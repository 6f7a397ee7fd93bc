import Mathlib.Data.List.Forall2
import Mathlib.Data.List.Perm.Subperm
import ScriptCore.Proofs.Comparison.Exactness
import ScriptCore.Proofs.Session.Lifetimes

/-!
# Sameness of values

Values are the same when their items and entries are, down to the leaves. There, floats are
the same when they denote the same number, handles when they name the same storage, and all
else when it is equal. A float that is not a number is not even the same as itself, and
neither is any value with such a float inside it: sameness is symmetric and transitive, and
reflexive on all other values.
-/

namespace ScriptCore

/-! ## Lists related item by item -/

section Pointwise

variable {α : Type} {R : α → α → Prop} {xs ys zs : List α}

theorem forall₂_symm (hR : ∀ x ∈ xs, ∀ y, R x y → R y x) (hxy : List.Forall₂ R xs ys) :
    List.Forall₂ R ys xs := by
  have hboth := (List.forall₂_and_left xs ys).mpr ⟨hR, hxy⟩
  exact (hboth.imp fun x y h => h.1 y h.2).flip

theorem forall₂_trans (hR : ∀ x ∈ xs, ∀ y z, R x y → R y z → R x z)
    (hxy : List.Forall₂ R xs ys) (hyz : List.Forall₂ R ys zs) : List.Forall₂ R xs zs := by
  induction hxy generalizing zs with
  | nil => exact hyz
  | @cons x y xs ys hfirst hrest ih =>
      cases hyz with
      | @cons _ z _ zs hfirst' hrest' =>
          have hrestR : ∀ x ∈ xs, ∀ y z, R x y → R y z → R x z :=
            fun x hx => hR x (List.mem_cons_of_mem _ hx)
          exact .cons (hR x List.mem_cons_self y z hfirst hfirst') (ih hrestR hrest')

theorem exists_mem_of_forall₂ (hxy : List.Forall₂ R xs ys) {x : α} (hx : x ∈ xs) :
    ∃ y ∈ ys, R x y := by
  induction hxy with
  | nil => contradiction
  | @cons x' y xs ys hfirst hrest ih =>
      rcases List.mem_cons.mp hx with rfl | hmem
      · exact ⟨y, List.mem_cons_self, hfirst⟩
      · obtain ⟨z, hz, hxz⟩ := ih hmem
        exact ⟨z, List.mem_cons_of_mem y hz, hxz⟩

end Pointwise

/-! ## Dictionaries are what is found in them -/

namespace Dictionary

variable {κ α : Type} [Ord κ] [Std.TransOrd κ] [Std.LawfulEqOrd κ] {d e : Dictionary κ α}

omit [Std.LawfulEqOrd κ] in
/-- There is one way to list given items by increasing keys. -/
theorem eq_of_perm_of_increasing {β : Type} (key : β → κ) {xs ys : List β} (hperm : xs.Perm ys)
    (hxs : xs.Pairwise fun x y => compare (key x) (key y) = .lt)
    (hys : ys.Pairwise fun x y => compare (key x) (key y) = .lt) : xs = ys := by
  refine hperm.eq_of_pairwise ?_ hxs hys
  intro x y _ _ hlt hgt
  exact absurd hgt (Std.OrientedCmp.not_lt_of_lt hlt)

theorem keys_eq_of_subset (hsize : d.size = e.size) (hkeys : d.keys ⊆ e.keys) :
    d.keys = e.keys := by
  have hlength : e.keys.length ≤ d.keys.length := by
    rw [keys, keys, List.length_map, List.length_map]
    exact hsize.ge
  have hperm := (List.subperm_of_subset nodup_keys hkeys).perm_of_length_le hlength
  exact eq_of_perm_of_increasing id hperm (List.pairwise_map.mpr d.increasing_entries)
    (List.pairwise_map.mpr e.increasing_entries)

/-- What is found under each key is all there is to a dictionary. -/
@[ext]
theorem ext_get? (hget : ∀ k, d.get? k = e.get? k) : d = e := by
  have hmem : ∀ entry, entry ∈ d.entries ↔ entry ∈ e.entries := by
    rintro ⟨k, a⟩
    rw [← get?_eq_some_iff, ← get?_eq_some_iff, hget]
  have hperm := (List.perm_ext_iff_of_nodup nodup_keys.of_map nodup_keys.of_map).mpr hmem
  apply entries_injective
  exact eq_of_perm_of_increasing Prod.fst hperm d.increasing_entries e.increasing_entries

theorem insert_comm {k l : κ} (hne : k ≠ l) (a b : α) :
    (d.insert k a).insert l b = (d.insert l b).insert k a := by
  ext1 m
  by_cases hk : k = m
  · subst hk
    rw [get?_insert_of_ne hne.symm, get?_insert_self, get?_insert_self]
  · by_cases hl : l = m
    · subst hl
      rw [get?_insert_self, get?_insert_of_ne hne, get?_insert_self]
    · rw [get?_insert_of_ne hl, get?_insert_of_ne hk, get?_insert_of_ne hk, get?_insert_of_ne hl]

/-- The dictionary left when entries are inserted one after another. -/
def fill (d : Dictionary κ α) (entries : List (κ × α)) : Dictionary κ α :=
  entries.foldl (fun d entry => d.insert entry.1 entry.2) d

/-- Entries under different keys may be inserted in any order. -/
theorem fill_perm {entries others : List (κ × α)} (hperm : entries.Perm others)
    (hnodup : (entries.map Prod.fst).Nodup) : d.fill entries = d.fill others := by
  -- The entries inserted first stay in the dictionary that the rest are inserted into.
  induction hperm generalizing d with
  | nil => rfl
  | cons entry _ ih => exact ih (List.nodup_cons.mp hnodup).2
  | swap x y rest =>
      have hne : y.1 ≠ x.1 := by
        intro heq
        simp [heq] at hnodup
      exact congrArg (fill · rest) (insert_comm hne y.2 x.2)
  | trans hfirst _ ih ih' =>
      exact (ih hnodup).trans (ih' ((hfirst.map Prod.fst).nodup_iff.mp hnodup))

end Dictionary

/-! ## Values inside values -/

namespace Value

/-- The values that hold no others and are compared as they are. -/
def Plain : Value → Prop
  | .float _ | .array _ | .hash _ => False
  | _ => True

/-- What holds of a value when it holds of the values right inside it holds of every value. -/
@[elab_as_elim]
theorem inside_induction {motive : Value → Prop} (plain : ∀ v, v.Plain → motive v)
    (float : ∀ x, motive (.float x))
    (array : ∀ items, (∀ v ∈ items, motive v) → motive (.array items))
    (hash : ∀ table : Table, (∀ entry ∈ table.entries, motive entry.2) → motive (.hash table))
    (v : Value) : motive v :=
  @Value.rec motive (fun items => ∀ v ∈ items, motive v)
    (fun table => ∀ entry ∈ table.entries, motive entry.2)
    (fun _ entries => ∀ entry ∈ entries.toList, motive entry.2)
    (plain .null trivial) (fun n => plain (.int n) trivial) float (fun s => plain (.str s) trivial)
    array hash (fun g => plain (.native g) trivial) (fun r => plain (.unit r) trivial)
    (List.forall_mem_nil _) (fun _ _ hv hrest => List.forall_mem_cons.mpr ⟨hv, hrest⟩)
    (fun _ hentries => hentries)
    (List.forall_mem_nil _) (fun _ _ _ _ hv hrest => List.forall_mem_cons.mpr ⟨hv, hrest⟩) v

/-- Somewhere inside is a float that is not a number. What a handle names is not inside. -/
inductive HasNaN : Value → Prop
  | float {x : Float} (nothing : binary64 x.toBits.toBitVec = none) : HasNaN (.float x)
  | item {items : List Value} {v : Value} (mem : v ∈ items) (inside : HasNaN v) :
      HasNaN (.array items)
  | entry {table : Table} {entry : Key × Value} (mem : entry ∈ table.entries)
      (inside : HasNaN entry.2) : HasNaN (.hash table)

/-! ## What sameness compares -/

variable {v w x : Value}

theorem same_iff_of_plain (hv : v.Plain) : same v w = true ↔ v = w := by
  cases v <;> cases w <;> simp [same, Plain] at hv ⊢

theorem same_float_iff {x : Float} : same (.float x) w = true ↔
    ∃ y p, w = .float y ∧ binary64 x.toBits.toBitVec = some p ∧
      binary64 y.toBits.toBitVec = some p := by
  cases w with
  | float y =>
      have hequals : Comparison.equals (.float x) (.float y) = .ok (same (.float x) (.float y)) :=
        rfl
      have hiff := Number.equals_iff (.float x) (.float y)
      rw [Number.toValue, Number.toValue, hequals, Except.ok.injEq] at hiff
      rw [hiff]
      constructor
      · rintro ⟨p, hx, hy⟩
        exact ⟨y, p, rfl, hx, hy⟩
      · rintro ⟨_, p, ⟨rfl⟩, hx, hy⟩
        exact ⟨p, hx, hy⟩
  | _ => simp [same]

theorem sameItems_iff {vs ws : List Value} :
    sameItems vs ws = true ↔ List.Forall₂ (fun v w => same v w = true) vs ws := by
  induction vs generalizing ws with
  | nil => cases ws <;> simp [sameItems]
  | cons v vs ih => cases ws <;> simp [sameItems, ih]

/-- Two entries with one key and the same value. -/
def SameEntry (e f : Key × Value) : Prop :=
  e.1 = f.1 ∧ same e.2 f.2 = true

theorem sameEntries_iff {low high : Option Key} {es : Ascending Key Value low}
    {fs : Ascending Key Value high} :
    sameEntries es fs = true ↔ List.Forall₂ SameEntry es.toList fs.toList := by
  induction es generalizing high with
  | nil => cases fs <;> simp [sameEntries, Ascending.toList]
  | cons k v behind es ih => cases fs <;> simp [sameEntries, SameEntry, Ascending.toList, ih]

theorem same_array_iff {vs : List Value} : same (.array vs) w = true ↔
    ∃ ws, w = .array ws ∧ List.Forall₂ (fun v w => same v w = true) vs ws := by
  cases w <;> simp [same, sameItems_iff]

theorem same_hash_iff {t : Table} : same (.hash t) w = true ↔
    ∃ u : Table, w = .hash u ∧ List.Forall₂ SameEntry t.entries u.entries := by
  cases w <;> simp [same, sameEntries_iff, Dictionary.entries]

/-! ## The laws -/

theorem same_symm (h : same v w = true) : same w v = true := by
  induction v using inside_induction generalizing w with
  | plain v hv =>
      obtain rfl := (same_iff_of_plain hv).mp h
      exact h
  | float x =>
      obtain ⟨y, p, rfl, hx, hy⟩ := same_float_iff.mp h
      exact same_float_iff.mpr ⟨x, p, rfl, hy, hx⟩
  | array vs ih =>
      obtain ⟨ws, rfl, hitems⟩ := same_array_iff.mp h
      exact same_array_iff.mpr ⟨vs, rfl, forall₂_symm (fun v hv w => ih v hv) hitems⟩
  | hash t ih =>
      obtain ⟨u, rfl, hentries⟩ := same_hash_iff.mp h
      refine same_hash_iff.mpr ⟨t, rfl, forall₂_symm ?_ hentries⟩
      rintro e he f ⟨hkey, hvalue⟩
      exact ⟨hkey.symm, ih e he hvalue⟩

theorem same_trans (hvw : same v w = true) (hwx : same w x = true) : same v x = true := by
  induction v using inside_induction generalizing w x with
  | plain v hv =>
      obtain rfl := (same_iff_of_plain hv).mp hvw
      exact hwx
  | float a =>
      obtain ⟨b, p, rfl, ha, hb⟩ := same_float_iff.mp hvw
      obtain ⟨c, q, rfl, hb', hc⟩ := same_float_iff.mp hwx
      obtain rfl : p = q := Option.some.inj (hb.symm.trans hb')
      exact same_float_iff.mpr ⟨c, p, rfl, ha, hc⟩
  | array vs ih =>
      obtain ⟨ws, rfl, hfirst⟩ := same_array_iff.mp hvw
      obtain ⟨xs, rfl, hsecond⟩ := same_array_iff.mp hwx
      refine same_array_iff.mpr ⟨xs, rfl, forall₂_trans ?_ hfirst hsecond⟩
      exact fun v hv w x => ih v hv
  | hash t ih =>
      obtain ⟨u, rfl, hfirst⟩ := same_hash_iff.mp hvw
      obtain ⟨r, rfl, hsecond⟩ := same_hash_iff.mp hwx
      refine same_hash_iff.mpr ⟨r, rfl, forall₂_trans ?_ hfirst hsecond⟩
      rintro e he f g ⟨hkey, hvalue⟩ ⟨hkey', hvalue'⟩
      exact ⟨hkey.trans hkey', ih e he hvalue hvalue'⟩

theorem same_self_array_iff {vs : List Value} :
    same (.array vs) (.array vs) = true ↔ ∀ v ∈ vs, same v v = true := by
  rw [same, sameItems_iff, List.forall₂_same]

theorem same_self_hash_iff {t : Table} :
    same (.hash t) (.hash t) = true ↔ ∀ entry ∈ t.entries, same entry.2 entry.2 = true := by
  rw [same, sameEntries_iff, List.forall₂_same]
  simp only [SameEntry, true_and, Dictionary.entries]

/-- The one thing that is not the same as itself is what is not a number. -/
theorem same_self_iff : same v v = true ↔ ¬ v.HasNaN := by
  induction v using inside_induction with
  | plain v hv =>
      refine iff_of_true ((same_iff_of_plain hv).mpr rfl) ?_
      rintro (_ | _ | _) <;> exact hv
  | float x =>
      rw [same_float_iff]
      constructor
      · rintro ⟨_, p, _, hx, _⟩ ⟨hnone⟩
        exact Option.some_ne_none p (hx.symm.trans hnone)
      · intro hnumber
        obtain ⟨p, hp⟩ := Option.ne_none_iff_exists'.mp fun hnone => hnumber (.float hnone)
        exact ⟨x, p, rfl, hp, hp⟩
  | array vs ih =>
      rw [same_self_array_iff]
      constructor
      · rintro hsame (_ | ⟨hv, hinside⟩)
        exact (ih _ hv).mp (hsame _ hv) hinside
      · intro hnone v hv
        exact (ih v hv).mpr fun hinside => hnone (.item hv hinside)
  | hash t ih =>
      rw [same_self_hash_iff]
      constructor
      · rintro hsame (_ | _ | ⟨hentry, hinside⟩)
        exact (ih _ hentry).mp (hsame _ hentry) hinside
      · intro hnone entry hentry
        exact (ih entry hentry).mpr fun hinside => hnone (.entry hentry hinside)

/-- Tables are compared by what is found under each key of the one on the left. -/
theorem same_hash_iff_get? {t u : Table} :
    same (.hash t) (.hash u) = true ↔ t.size = u.size ∧
      ∀ k v, t.get? k = some v → ∃ w, u.get? k = some w ∧ same v w = true := by
  rw [same, sameEntries_iff]
  constructor
  · intro hentries
    refine ⟨hentries.length_eq, fun k v hv => ?_⟩
    obtain ⟨⟨l, w⟩, hmem, hkey, hvalue⟩ :=
      exists_mem_of_forall₂ hentries (Dictionary.get?_eq_some_iff.mp hv)
    obtain rfl : k = l := hkey
    exact ⟨w, Dictionary.get?_eq_some_iff.mpr hmem, hvalue⟩
  · rintro ⟨hsize, hfound⟩
    -- The keys of `t` are keys of `u`, and as many, so the entries stand in the same order.
    have hsubset : t.keys ⊆ u.keys := by
      intro k hk
      obtain ⟨v, hv⟩ := Option.isSome_iff_exists.mp (Dictionary.mem_keys_iff.mp hk)
      obtain ⟨w, hw, -⟩ := hfound k v hv
      exact Dictionary.mem_keys_iff.mpr (Option.isSome_of_mem hw)
    have hkeys : List.Forall₂ (fun e f : Key × Value => e.1 = f.1) t.entries u.entries := by
      have heq := Dictionary.keys_eq_of_subset hsize hsubset
      rw [← List.forall₂_eq_eq_eq] at heq
      exact List.forall₂_map_right_iff.mp (List.forall₂_map_left_iff.mp heq)
    refine List.forall₂_iff_zip.mpr ⟨hsize, ?_⟩
    rintro ⟨k, v⟩ ⟨l, w⟩ hzip
    obtain ⟨hv, hw⟩ := List.of_mem_zip hzip
    obtain rfl : k = l := List.forall₂_zip hkeys hzip
    obtain ⟨w', hw', hsame⟩ := hfound k v (Dictionary.get?_eq_some_iff.mpr hv)
    obtain rfl : w' = w := Option.some.inj (hw'.symm.trans (Dictionary.get?_eq_some_iff.mpr hw))
    exact ⟨rfl, hsame⟩

end Value

/-! ## Handles and the storage they name -/

/-- Where a piece of the host's storage lies. -/
inductive Location where
  | buffer (index : Nat)
  | slot (index : Nat)
  | record (index : Nat)

def Handle.location : Handle → Location
  | .slice b => .buffer b.index
  | .slot r => .slot r.index
  | .record r => .record r.index

namespace Session

/-- The host has a name for what the handle names. -/
def Names (s : Session) : Handle → Prop
  | .slice b => s.OwnsBuffer b
  | .slot r => s.OwnsSlot r
  | .record r => ∃ name, s.records.get? name = some r

variable {s s' : Session}

/-- A buffer keeps its place and its element type, so one that is named later in the same
place is the same buffer. -/
theorem Grows.buffer_eq {b c : BufferRef} (hgrows : s.Grows s') (hs : s.Accounted)
    (hb : s.OwnsBuffer b) (hc : s'.OwnsBuffer c) (hindex : b.index = c.index) : b = c := by
  obtain ⟨name, hname⟩ := hb
  have hlt := hs.buffers.lt_of_get? hname
  have helem {name : String} {r : BufferRef} (hr : s.buffers.get? name = some r) :=
    hs.elements (name, r) (Dictionary.get?_eq_some_iff.mp hr)
  rcases hgrows.ownsBuffer c hc with ⟨name', hname'⟩ | hnew
  · have helems := (helem hname).symm.trans ((congrArg _ hindex).trans (helem hname'))
    cases b
    cases c
    exact congrArg₂ BufferRef.mk (Option.some.inj helems) hindex
  · -- What is new lies behind all that was there.
    omega

/-- Handles that the host gave out, at whatever times, are equal when they lie in one place. -/
theorem Grows.handle_eq_iff {g k : Handle} (hgrows : s.Grows s') (hs : s.Accounted)
    (hg : s.Names g) (hk : s'.Names k) : g = k ↔ g.location = k.location := by
  refine ⟨congrArg Handle.location, fun hlocation => ?_⟩
  cases g with
  | slice b =>
      cases k with
      | slice c =>
          have hindex : b.index = c.index := Location.buffer.inj hlocation
          exact congrArg Handle.slice (hgrows.buffer_eq hs hg hk hindex)
      | _ => contradiction
  | slot r =>
      cases k with
      | slot t => exact congrArg (Handle.slot ⟨·⟩) (Location.slot.inj hlocation)
      | _ => contradiction
  | record r =>
      cases k with
      | record t => exact congrArg (Handle.record ⟨·⟩) (Location.record.inj hlocation)
      | _ => contradiction

end Session

/-- An equality of values by their structure, which only what is not a number escapes. -/
structure StructuralEquality (same : Value → Value → Bool) : Prop where
  symm : ∀ v w, same v w = true → same w v = true
  trans : ∀ v w x, same v w = true → same w x = true → same v x = true
  refl_iff : ∀ v, same v v = true ↔ ¬ v.HasNaN
  /-- Floats are the same when they denote one number. -/
  floats : ∀ x y, same (.float x) (.float y) = true ↔
    ∃ p, binary64 x.toBits.toBitVec = some p ∧ binary64 y.toBits.toBitVec = some p
  /-- Handles are the same when they name one piece of storage, whichever of its names have
  been dropped since. -/
  handles : ∀ (width : Width) (steps later : List Step) (g k : Handle),
    ((Session.start width).performAll steps).2.Names g →
    (((Session.start width).performAll steps).2.performAll later).2.Names k →
    (same (.native g) (.native k) = true ↔ g.location = k.location)
  /-- Tables are the same when they are of one size and the same is found under each key. -/
  tables : ∀ t u : Table,
    (same (.hash t) (.hash u) = true ↔ t.size = u.size ∧
      ∀ k v, t.get? k = some v → ∃ w, u.get? k = some w ∧ same v w = true)
  /-- So the order in which a table was filled makes no difference. -/
  filled : ∀ (t : Table) (entries others : List (Key × Value)),
    entries.Perm others → (entries.map Prod.fst).Nodup → ∀ w,
    same (.hash (t.fill entries)) w = same (.hash (t.fill others)) w ∧
      same w (.hash (t.fill entries)) = same w (.hash (t.fill others))

/-- Sameness of values of any depth is an equality, but for what is not a number. -/
theorem sameness_is_structural : StructuralEquality Value.same where
  symm := fun _ _ => Value.same_symm
  trans := fun _ _ _ => Value.same_trans
  refl_iff := fun _ => Value.same_self_iff
  floats := by
    intro x y
    rw [Value.same_float_iff]
    constructor
    · rintro ⟨_, p, ⟨rfl⟩, hx, hy⟩
      exact ⟨p, hx, hy⟩
    · rintro ⟨p, hx, hy⟩
      exact ⟨y, p, rfl, hx, hy⟩
  handles := by
    intro width steps later g k hg hk
    obtain ⟨hs, -⟩ := (Session.accounted_start width).performAll steps
    obtain ⟨-, hgrows⟩ := hs.performAll later
    have hplain : (Value.native g).Plain := trivial
    rw [Value.same_iff_of_plain hplain, Value.native.injEq]
    exact hgrows.handle_eq_iff hs hg hk
  tables := fun _ _ => Value.same_hash_iff_get?
  filled := by
    intro t entries others hperm hnodup w
    rw [Dictionary.fill_perm hperm hnodup]
    exact ⟨rfl, rfl⟩

-- The zeros are the same whatever their sign, and an array with no number in it is not itself.
example : Value.same (.float (.ofBits 0)) (.float (.ofBits 0x8000000000000000)) = true ∧
    Value.same (.array [.float (.ofBits 0x7FF8000000000000)])
      (.array [.float (.ofBits 0x7FF8000000000000)]) = false := by
  decide +kernel

end ScriptCore
