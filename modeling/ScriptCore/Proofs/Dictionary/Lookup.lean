import ScriptCore.Error

/-!
# Looking up in dictionaries

Placing an entry and looking one up stop at the same entry, so a look-up finds what was
placed last under its key. As the keys increase, a look-up finds every entry, and erasing
a key removes its own entry and no other.
-/

namespace ScriptCore

/-- A key is the value that it was made from. -/
theorem Key.toValue_of_ofValue {v : Value} {k : Key} (hk : ofValue v = .ok k) : k.toValue = v := by
  cases v with
  | int n =>
      obtain rfl := Except.ok.inj hk
      rfl
  | str s =>
      obtain rfl := Except.ok.inj hk
      rfl
  | _ => contradiction

namespace Dictionary

variable {κ α : Type} [Ord κ] {d : Dictionary κ α} {entries : List (κ × α)} {entry : κ × α}
  {k l : κ} {a : α}

/-! ## Lists of entries -/

theorem mem_of_find (h : find k entries = some a) : ∃ entry ∈ entries, entry.2 = a := by
  induction entries with
  | nil => contradiction
  | cons entry rest ih =>
      rw [find] at h
      split at h
      · contradiction
      · exact ⟨entry, List.mem_cons_self, Option.some.inj h⟩
      · obtain ⟨found, hmem, heq⟩ := ih h
        exact ⟨found, List.mem_cons_of_mem entry hmem, heq⟩

theorem filter_of_lt (h : ∀ entry ∈ entries, compare k entry.1 = .lt) :
    entries.filter (fun entry => compare k entry.1 != .eq) = entries := by
  apply List.filter_eq_self.mpr
  intro entry hentry
  rw [h entry hentry]
  rfl

section

variable [Std.LawfulEqOrd κ]

theorem find_place_self : find k (place k a entries) = some a := by
  fun_induction place k a entries with
  | case1 => simp only [find, Std.ReflCmp.compare_self]
  | case2 => simp only [find, Std.ReflCmp.compare_self]
  | case3 => simp only [find, Std.ReflCmp.compare_self]
  | case4 l b rest hgt ih => simpa only [find, hgt] using ih

/-- A placed entry takes the place of the one that is found under its key. -/
theorem countP_place (p : κ × α → Bool) :
    (place k a entries).countP p + ((find k entries).toList.map (k, ·)).countP p =
      entries.countP p + [(k, a)].countP p := by
  fun_induction place k a entries with
  | case1 => simp [find]
  | case2 m b rest hlt => simp [find, hlt, List.countP_cons]
  | case3 m b rest heq =>
      obtain rfl := Std.LawfulEqCmp.eq_of_compare heq
      simp only [find, heq, Option.toList_some, List.map_cons, List.map_nil, List.countP_cons,
        List.countP_nil]
      omega
  | case4 m b rest hgt ih =>
      simp only [find, hgt, List.countP_cons] at ih ⊢
      omega

theorem place_of_find (hfind : find k entries = some a) : place k a entries = entries := by
  fun_induction place k a entries with
  | case1 => contradiction
  | case2 m b rest hlt => simp only [find, hlt, reduceCtorEq] at hfind
  | case3 m b rest heq =>
      obtain rfl := Std.LawfulEqCmp.eq_of_compare heq
      obtain rfl : b = a := by simpa only [find, heq, Option.some.injEq] using hfind
      rfl
  | case4 m b rest hgt ih =>
      simp only [find, hgt] at hfind
      rw [ih hfind]

theorem place_place {b : α} : place k b (place k a entries) = place k b entries := by
  fun_induction place k a entries with
  | case1 => simp only [place, Std.ReflCmp.compare_self]
  | case2 m c rest hlt => simp only [place, Std.ReflCmp.compare_self, hlt]
  | case3 m c rest heq => simp only [place, Std.ReflCmp.compare_self, heq]
  | case4 m c rest hgt ih => simp only [place, hgt, ih]

end

variable [Std.TransOrd κ] [Std.LawfulEqOrd κ]

theorem find_place_of_ne (hne : k ≠ l) : find l (place k a entries) = find l entries := by
  have hcompare : compare l k ≠ .eq := fun heq => hne (Std.LawfulEqCmp.eq_of_compare heq).symm
  fun_induction place k a entries with
  | case1 =>
      rw [find, find]
      split
      · rfl
      · contradiction
      · rfl
  | case2 m b rest hlt =>
      rw [find]
      split
      · rename_i hbefore
        -- What is smaller than `k` is smaller than `m`, too.
        have hm : compare l m = .lt := Std.TransCmp.lt_trans hbefore hlt
        simp only [find, hm]
      · contradiction
      · rfl
  | case3 m b rest heq =>
      obtain rfl := Std.LawfulEqCmp.eq_of_compare heq
      rw [find, find]
      split
      · rfl
      · contradiction
      · rfl
  | case4 m b rest hgt ih => rw [find, find, ih]

/-- In order, every entry is found. -/
theorem find_eq_some_iff (h : Increasing entries) : find k entries = some a ↔ (k, a) ∈ entries := by
  fun_induction find k entries with
  | case1 => simp
  | case2 l b rest hlt =>
      obtain ⟨hfirst, -⟩ := List.pairwise_cons.mp h
      simp only [reduceCtorEq, false_iff]
      intro hmem
      rcases List.mem_cons.mp hmem with heq | hlater
      · obtain ⟨rfl, rfl⟩ := Prod.mk.inj heq
        exact absurd hlt (by simp)
      · have hlk := Std.OrientedCmp.gt_iff_lt.mpr (hfirst _ hlater)
        exact absurd (hlt.symm.trans hlk) nofun
  | case3 l b rest heq =>
      obtain rfl := Std.LawfulEqCmp.eq_of_compare heq
      obtain ⟨hfirst, -⟩ := List.pairwise_cons.mp h
      constructor
      · rintro ⟨rfl⟩
        exact List.mem_cons_self
      · intro hmem
        rcases List.mem_cons.mp hmem with heq | hlater
        · rw [(Prod.mk.inj heq).2]
        · have hlt := hfirst _ hlater
          exact absurd (heq.symm.trans hlt) nofun
  | case4 l b rest hgt ih =>
      obtain ⟨hfirst, hrest⟩ := List.pairwise_cons.mp h
      rw [ih hrest, List.mem_cons, or_iff_right]
      intro heq
      obtain ⟨rfl, rfl⟩ := Prod.mk.inj heq
      exact absurd hgt (by simp)

/-- In order, all that a key's removal takes away is the entry that is found under it. -/
theorem countP_filter (h : Increasing entries) (p : κ × α → Bool) :
    (entries.filter fun entry => compare k entry.1 != .eq).countP p +
        ((find k entries).toList.map (k, ·)).countP p =
      entries.countP p := by
  fun_induction find k entries with
  | case1 => rfl
  | case2 l b rest hlt =>
      obtain ⟨hfirst, -⟩ := List.pairwise_cons.mp h
      have hall : ∀ entry ∈ (l, b) :: rest, compare k entry.1 = .lt := by
        intro entry hentry
        rcases List.mem_cons.mp hentry with rfl | hmem
        · exact hlt
        · exact Std.TransCmp.lt_trans hlt (hfirst entry hmem)
      rw [filter_of_lt hall]
      rfl
  | case3 l b rest heq =>
      obtain rfl := Std.LawfulEqCmp.eq_of_compare heq
      obtain ⟨hfirst, -⟩ := List.pairwise_cons.mp h
      rw [List.filter_cons_of_neg (by simp), filter_of_lt hfirst]
      simp only [Option.toList_some, List.map_cons, List.map_nil, List.countP_cons,
        List.countP_nil]
      omega
  | case4 l b rest hgt ih =>
      have htail := ih (List.pairwise_cons.mp h).2
      rw [List.filter_cons_of_pos (by simp [hgt])]
      simp only [List.countP_cons] at htail ⊢
      omega

/-! ## Inserting -/

@[simp] theorem entries_insert : (d.insert k a).entries = place k a d.entries :=
  entries_ofEntries _

theorem mem_insert (h : entry ∈ (d.insert k a).entries) : entry = (k, a) ∨ entry ∈ d.entries := by
  rw [entries_insert] at h
  exact mem_place h

theorem get?_insert_self : (d.insert k a).get? k = some a := by
  rw [get?, entries_insert, find_place_self]

theorem get?_insert_of_ne (hne : k ≠ l) : (d.insert k a).get? l = d.get? l := by
  rw [get?, entries_insert, find_place_of_ne hne, get?]

/-- What is found was inserted, or was found before. -/
theorem eq_or_get?_of_get?_insert {b : α} (h : (d.insert k a).get? l = some b) :
    k = l ∧ a = b ∨ d.get? l = some b := by
  by_cases hkey : k = l
  · subst hkey
    exact .inl ⟨rfl, Option.some.inj (get?_insert_self.symm.trans h)⟩
  · rw [get?_insert_of_ne hkey] at h
    exact .inr h

/-- Only the last value stored under a key is kept. -/
theorem insert_insert {b : α} : (d.insert k a).insert k b = d.insert k b := by
  apply entries_injective
  rw [entries_insert, entries_insert, entries_insert, place_place]

/-- Storing what is there changes nothing. -/
theorem insert_of_get? (h : d.get? k = some a) : d.insert k a = d := by
  apply entries_injective
  rw [entries_insert, place_of_find h]

/-- An inserted entry takes the place of the one that was found under its key. -/
theorem countP_insert (p : κ × α → Bool) :
    (d.insert k a).entries.countP p + ((d.get? k).toList.map (k, ·)).countP p =
      d.entries.countP p + [(k, a)].countP p := by
  rw [entries_insert]
  exact countP_place p

/-- A key that is new makes the dictionary larger by one. -/
theorem size_insert : (d.insert k a).size = if d.contains k then d.size else d.size + 1 := by
  have hcount : (d.insert k a).entries.countP (fun _ => true) + _ = _ := countP_insert _
  simp only [List.countP_true, List.length_map, List.length_cons, List.length_nil] at hcount
  rw [contains, size, size]
  cases hget : d.get? k with
  | none =>
      rw [hget] at hcount
      simpa using hcount
  | some b =>
      rw [hget] at hcount
      simpa using hcount

/-! ## Every entry is found -/

theorem get?_eq_some_iff : d.get? k = some a ↔ (k, a) ∈ d.entries :=
  find_eq_some_iff d.increasing_entries

theorem mem_keys_iff : k ∈ d.keys ↔ (d.get? k).isSome := by
  rw [keys, List.mem_map, Option.isSome_iff_exists]
  constructor
  · rintro ⟨⟨l, a⟩, hmem, rfl⟩
    exact ⟨a, get?_eq_some_iff.mpr hmem⟩
  · rintro ⟨a, ha⟩
    exact ⟨(k, a), get?_eq_some_iff.mp ha, rfl⟩

theorem nodup_keys : d.keys.Nodup := by
  apply List.pairwise_map.mpr
  apply List.Pairwise.imp _ d.increasing_entries
  intro x y hlt heq
  rw [heq] at hlt
  exact absurd hlt (by simp)

/-! ## Erasing -/

omit [Std.LawfulEqOrd κ] in
@[simp] theorem entries_erase :
    (d.erase k).entries = d.entries.filter fun entry => compare k entry.1 != .eq :=
  entries_ofEntries _

omit [Std.LawfulEqOrd κ] in
theorem mem_erase (h : entry ∈ (d.erase k).entries) : entry ∈ d.entries := by
  rw [entries_erase] at h
  exact (List.mem_filter.mp h).1

/-- What is found after erasing a key was there before. -/
theorem get?_of_get?_erase (hl : (d.erase k).get? l = some a) : d.get? l = some a :=
  get?_eq_some_iff.mpr (mem_erase (get?_eq_some_iff.mp hl))

theorem get?_erase_self : (d.erase k).get? k = none := by
  apply Option.eq_none_iff_forall_ne_some.mpr
  intro a ha
  rw [get?_eq_some_iff, entries_erase, List.mem_filter] at ha
  simp at ha

theorem get?_erase_of_ne (hne : k ≠ l) : (d.erase k).get? l = d.get? l := by
  have hkeeps : (compare k l != .eq) = true := by
    rw [bne_iff_ne]
    exact fun heq => hne (Std.LawfulEqCmp.eq_of_compare heq)
  ext a
  rw [get?_eq_some_iff, get?_eq_some_iff, entries_erase, List.mem_filter, and_iff_left hkeeps]

omit [Std.LawfulEqOrd κ] in
/-- A key that is erased again is not there any more. -/
theorem erase_erase : (d.erase k).erase k = d.erase k := by
  apply entries_injective
  simp only [entries_erase, List.filter_filter, Bool.and_self]

/-- All that erasing a key takes away is the entry that is found under it. -/
theorem countP_erase (p : κ × α → Bool) :
    (d.erase k).entries.countP p + ((d.get? k).toList.map (k, ·)).countP p =
      d.entries.countP p := by
  rw [entries_erase]
  exact countP_filter d.increasing_entries p

end Dictionary

end ScriptCore
