import Mathlib.Data.List.Nodup
import Mathlib.Data.List.Perm.Subperm
import ScriptCore.Host

/-!
# Chains of host values

An alias leads over live host values, each an alias of the next, to one whose content is
no alias. Such a chain passes no host value twice: the content of a host value decides
all that comes after it, so a chain that came back would never end. Hence the number of
host values bounds its length, a way that comes back to a host value is the only one that
never ends, and storing the copies taken along a chain undoes exactly what was written to
it in the meantime.
-/

namespace ScriptCore

def Value.IsAlias : Value → Prop
  | .native (.slot _) => True
  | _ => False

theorem exists_slot_of_isAlias {v : Value} (hv : v.IsAlias) : ∃ r, v = .native (.slot r) := by
  cases v with
  | native handle =>
      cases handle with
      | slot r => exact ⟨r, rfl⟩
      | _ => exact absurd hv id
  | _ => exact absurd hv id

theorem exists_of_map_eq_ok {ε α β : Type} {x : Except ε α} {f : α → β} {b : β}
    (h : x.map f = .ok b) : ∃ a, x = .ok a ∧ f a = b := by
  cases x with
  | error e => simp only [Except.map, reduceCtorEq] at h
  | ok a => exact ⟨a, rfl, Except.ok.inj h⟩

namespace Host

/-! ## Single host values -/

theorem slot?_congr {g h : Host} (hslots : g.slots = h.slots) (r : SlotRef) :
    g.slot? r = h.slot? r := by
  rw [slot?, slot?, hslots]

theorem slot?_eq_some_iff {h : Host} {r : SlotRef} {v : Value} :
    h.slot? r = some v ↔ ∃ s, h.slots[r.index]? = some s ∧ 0 < s.owners ∧ s.content = v := by
  rw [slot?]
  cases h.slots[r.index]? with
  | none => simp
  | some s => simp

theorem index_lt_of_slot? {h : Host} {r : SlotRef} {v : Value} (hv : h.slot? r = some v) :
    r.index < h.slots.length := by
  obtain ⟨s, hs, -⟩ := slot?_eq_some_iff.mp hv
  exact (List.getElem?_eq_some_iff.mp hs).1

theorem setSlot_setSlot (h : Host) (r : SlotRef) (v w : Value) :
    (h.setSlot r v).setSlot r w = h.setSlot r w := by
  simp only [setSlot, modifySlot, List.modify_modify_eq]
  rfl

theorem index_injective : Function.Injective SlotRef.index := by
  rintro ⟨i⟩ ⟨j⟩ rfl
  rfl

theorem setSlot_comm {r t : SlotRef} (hne : r ≠ t) (h : Host) (v w : Value) :
    (h.setSlot r v).setSlot t w = (h.setSlot t w).setSlot r v := by
  have hindex : r.index ≠ t.index := index_injective.ne hne
  simp only [setSlot, modifySlot, List.modify_modify_ne _ _ _ hindex]

theorem slot?_setSlot_self {h : Host} {r : SlotRef} {v w : Value} (hw : h.slot? r = some w) :
    (h.setSlot r v).slot? r = some v := by
  obtain ⟨s, hs, howned, -⟩ := slot?_eq_some_iff.mp hw
  refine slot?_eq_some_iff.mpr ⟨{ s with content := v }, ?_, howned, rfl⟩
  rw [setSlot, modifySlot, List.getElem?_modify_eq, hs]
  rfl

theorem slot?_setSlot_of_ne {h : Host} {r t : SlotRef} {v : Value} (hne : r ≠ t) :
    (h.setSlot r v).slot? t = h.slot? t := by
  have hindex : r.index ≠ t.index := index_injective.ne hne
  rw [slot?, slot?, setSlot, modifySlot, List.getElem?_modify_ne _ _ hindex]

/-- Storing what a host value holds changes nothing. -/
theorem setSlot_of_slot? {h : Host} {r : SlotRef} {v : Value} (hv : h.slot? r = some v) :
    h.setSlot r v = h := by
  obtain ⟨s, hs, -, rfl⟩ := slot?_eq_some_iff.mp hv
  have hslots : h.slots.modify r.index (fun t => { t with content := s.content }) = h.slots := by
    apply List.ext_getElem?
    intro i
    rw [List.getElem?_modify]
    by_cases hi : r.index = i
    · subst hi
      simp [hs]
    · simp [hi]
  rw [setSlot, modifySlot, hslots]

/-! ## Ways over aliases -/

theorem trail_of_not_isAlias {h : Host} {v : Value} (hv : ¬ v.IsAlias) (fuel : Nat) :
    h.trail fuel v = .ok ([], v) := by
  fun_cases h.trail fuel v with
  | case1 => exact absurd trivial hv
  | case2 => exact absurd trivial hv
  | case3 => exact absurd trivial hv
  | case4 => rfl

theorem resolve_of_not_isAlias {h : Host} {v : Value} (hv : ¬ v.IsAlias) :
    h.resolve v = .ok v := by
  rw [resolve, follow, trail_of_not_isAlias hv]
  rfl

theorem trail_slot {h : Host} {r : SlotRef} {v : Value} (hv : h.slot? r = some v) (fuel : Nat) :
    h.trail (fuel + 1) (.native (.slot r)) =
      (h.trail fuel v).map fun (passed, w) => (r :: passed, w) := by
  rw [trail]
  simp only [hv]

/-- From a value over the live host values `passed` to the value `w`. -/
inductive Way (h : Host) : Value → (passed : List SlotRef) → (w : Value) → Prop
  | here {v : Value} : Way h v [] v
  | pass {r : SlotRef} {v w : Value} {passed : List SlotRef} (held : h.slot? r = some v)
      (rest : Way h v passed w) : Way h (.native (.slot r)) (r :: passed) w

/-- No way leads on from the value: it is no alias, or an alias of what is not live. -/
def Ends (h : Host) (w : Value) : Prop :=
  ∀ r, w = .native (.slot r) → h.slot? r = none

theorem ends_of_not_isAlias {h : Host} {w : Value} (hw : ¬ w.IsAlias) : h.Ends w := by
  rintro r rfl
  exact absurd trivial hw

theorem exists_of_not_ends {h : Host} {w : Value} (hw : ¬ h.Ends w) :
    ∃ r, w = .native (.slot r) ∧ ∃ v, h.slot? r = some v := by
  obtain ⟨r, hr⟩ := not_forall.mp hw
  obtain ⟨heq, hheld⟩ := Classical.not_imp.mp hr
  exact ⟨r, heq, Option.ne_none_iff_exists'.mp hheld⟩

namespace Way

variable {h : Host} {v w : Value} {passed : List SlotRef}

/-- What a host value holds decides where the way goes on from it. -/
theorem passed_unique (way : h.Way v passed w) (hw : h.Ends w) {passed' : List SlotRef} {w' : Value}
    (way' : h.Way v passed' w') (hw' : h.Ends w') : passed = passed' := by
  induction way generalizing passed' with
  | here =>
      cases way' with
      | here => rfl
      | pass held' rest' => exact absurd ((hw _ rfl).symm.trans held') nofun
  | pass held rest ih =>
      cases way' with
      | here => exact absurd ((hw' _ rfl).symm.trans held) nofun
      | pass held' rest' =>
          obtain rfl := Option.some.inj (held.symm.trans held')
          rw [ih hw rest']

/-- The way from a host value that was passed is a part of the way that passed it. -/
theorem from_mem (way : h.Way v passed w) {t : SlotRef} (ht : t ∈ passed) :
    ∃ later, later.length ≤ passed.length ∧ h.Way (.native (.slot t)) later w := by
  induction way with
  | here => contradiction
  | pass held rest ih =>
      rcases List.mem_cons.mp ht with rfl | hlater
      · exact ⟨_, Nat.le_refl _, .pass held rest⟩
      · obtain ⟨later, hlength, way⟩ := ih hlater
        exact ⟨later, Nat.le_succ_of_le hlength, way⟩

theorem nodup (way : h.Way v passed w) (hw : h.Ends w) : passed.Nodup := by
  induction way with
  | here => exact List.nodup_nil
  | pass held rest ih =>
      refine List.nodup_cons.mpr ⟨?_, ih hw⟩
      intro hreturn
      -- Coming back to a host value, the way would be a part of itself.
      obtain ⟨later, hlength, way⟩ := rest.from_mem hreturn
      obtain rfl := (Way.pass held rest).passed_unique hw way hw
      exact absurd hlength (Nat.not_succ_le_self _)

theorem index_lt (way : h.Way v passed w) {t : SlotRef} (ht : t ∈ passed) :
    t.index < h.slots.length := by
  induction way with
  | here => contradiction
  | pass held rest ih =>
      rcases List.mem_cons.mp ht with rfl | hlater
      · exact index_lt_of_slot? held
      · exact ih hlater

theorem length_le_of_nodup (way : h.Way v passed w) (hnodup : passed.Nodup) :
    passed.length ≤ h.slots.length := by
  have hsubset : passed.map SlotRef.index ⊆ List.range h.slots.length := by
    intro i hi
    obtain ⟨t, ht, rfl⟩ := List.mem_map.mp hi
    exact List.mem_range.mpr (way.index_lt ht)
  have hperm := (hnodup.map index_injective).subperm hsubset
  simpa only [List.length_map, List.length_range] using hperm.length_le

theorem length_le (way : h.Way v passed w) (hw : h.Ends w) : passed.length ≤ h.slots.length :=
  way.length_le_of_nodup (way.nodup hw)

/-- The way is the first part of the trail. -/
theorem trail_eq (way : h.Way v passed w) (fuel : Nat) :
    h.trail (passed.length + fuel) v =
      (h.trail fuel w).map fun (more, x) => (passed ++ more, x) := by
  induction way with
  | here =>
      rw [List.length_nil, Nat.zero_add]
      cases h.trail fuel _ <;> rfl
  | pass held rest ih =>
      rw [List.length_cons, Nat.add_right_comm, trail_slot held, ih]
      cases h.trail fuel _ <;> rfl

end Way

theorem trail_of_ends {h : Host} {w : Value} (hw : h.Ends w) (fuel : Nat) :
    h.trail (fuel + 1) w = h.trail 1 w := by
  by_cases halias : w.IsAlias
  · obtain ⟨r, rfl⟩ := exists_slot_of_isAlias halias
    simp only [trail, hw r rfl]
  · rw [trail_of_not_isAlias halias, trail_of_not_isAlias halias]

/-- From a value whose way never ends, no trail is found. -/
theorem trail_of_endless {h : Host} {v : Value} (hv : ∀ passed w, h.Way v passed w → ¬ h.Ends w)
    (fuel : Nat) : h.trail fuel v = .error .endless := by
  induction fuel generalizing v with
  | zero =>
      obtain ⟨r, rfl, -⟩ := exists_of_not_ends (hv [] v .here)
      rfl
  | succ fuel ih =>
      obtain ⟨r, rfl, inner, held⟩ := exists_of_not_ends (hv [] v .here)
      rw [trail_slot held, ih fun passed w way => hv _ w (.pass held way)]
      rfl

/-! ## Ways that come back -/

/-- The way from the value comes back to a host value that it has passed. -/
def Circles (h : Host) (v : Value) : Prop :=
  ∃ r before around, h.Way v before (.native (.slot r)) ∧ around ≠ [] ∧
    h.Way (.native (.slot r)) around (.native (.slot r))

theorem Circles.pass {h : Host} {r : SlotRef} {v : Value} (held : h.slot? r = some v)
    (hv : h.Circles v) : h.Circles (.native (.slot r)) := by
  obtain ⟨t, before, around, way, hne, back⟩ := hv
  exact ⟨t, r :: before, around, .pass held way, hne, back⟩

theorem Circles.exists_slot {h : Host} {v : Value} (hv : h.Circles v) :
    ∃ r, v = .native (.slot r) := by
  obtain ⟨t, before, around, way, -⟩ := hv
  cases way with
  | here => exact ⟨t, rfl⟩
  | pass held rest => exact ⟨_, rfl⟩

namespace Way

variable {h : Host} {v w x : Value} {passed more : List SlotRef}

theorem append (way : h.Way v passed w) (way' : h.Way w more x) : h.Way v (passed ++ more) x := by
  induction way with
  | here => exact way'
  | pass held rest ih => exact .pass held (ih way')

/-- A way that ends goes on from wherever it has got. -/
theorem exists_rest (way : h.Way v passed x) {all : List SlotRef} (whole : h.Way v all w)
    (hw : h.Ends w) : ∃ later, h.Way x later w := by
  induction way generalizing all with
  | here => exact ⟨all, whole⟩
  | pass held rest ih =>
      cases whole with
      | here => exact absurd ((hw _ rfl).symm.trans held) nofun
      | pass held' rest' =>
          obtain rfl := Option.some.inj (held.symm.trans held')
          exact ih rest'

/-- Up to a host value that was passed, the way is a way to it. -/
theorem to_mem (way : h.Way v passed w) {t : SlotRef} (ht : t ∈ passed) :
    ∃ before, h.Way v before (.native (.slot t)) := by
  induction way with
  | here => contradiction
  | pass held rest ih =>
      rcases List.mem_cons.mp ht with rfl | hlater
      · exact ⟨[], .here⟩
      · obtain ⟨before, way⟩ := ih hlater
        exact ⟨_, .pass held way⟩

theorem circles_of_not_nodup (way : h.Way v passed w) (hpassed : ¬ passed.Nodup) :
    h.Circles v := by
  induction way with
  | here => exact absurd List.nodup_nil hpassed
  | @pass r inner w passed held rest ih =>
      by_cases hreturn : r ∈ passed
      · obtain ⟨around, back⟩ := rest.to_mem hreturn
        exact ⟨r, [], r :: around, .here, List.cons_ne_nil _ _, .pass held back⟩
      · have hrest : ¬ passed.Nodup := fun hnodup => hpassed (List.nodup_cons.mpr ⟨hreturn, hnodup⟩)
        exact (ih hrest).pass held

end Way

theorem Circles.not_ends {h : Host} {v w : Value} {passed : List SlotRef} (hv : h.Circles v)
    (way : h.Way v passed w) : ¬ h.Ends w := by
  intro hw
  obtain ⟨r, before, around, hto, hne, back⟩ := hv
  obtain ⟨later, hlater⟩ := hto.exists_rest way hw
  -- Once more around, the way to the end would be longer than it is.
  have hsame := hlater.passed_unique hw (back.append hlater) hw
  have hlength := congrArg List.length hsame
  rw [List.length_append] at hlength
  exact hne (List.length_eq_zero_iff.mp (by omega))

/-- A way that never ends is as long as one likes. -/
theorem exists_way_of_endless {h : Host} {v : Value}
    (hv : ∀ passed w, h.Way v passed w → ¬ h.Ends w) (n : Nat) :
    ∃ passed w, h.Way v passed w ∧ passed.length = n := by
  induction n generalizing v with
  | zero => exact ⟨[], v, .here, rfl⟩
  | succ n ih =>
      obtain ⟨r, rfl, inner, held⟩ := exists_of_not_ends (hv [] v .here)
      obtain ⟨passed, w, way, rfl⟩ := ih fun passed w way => hv _ w (.pass held way)
      exact ⟨r :: passed, w, .pass held way, rfl⟩

theorem circles_of_endless {h : Host} {v : Value}
    (hv : ∀ passed w, h.Way v passed w → ¬ h.Ends w) : h.Circles v := by
  obtain ⟨passed, w, way, hlength⟩ := exists_way_of_endless hv (h.slots.length + 1)
  refine way.circles_of_not_nodup fun hnodup => ?_
  have hle := way.length_le_of_nodup hnodup
  omega

theorem follow_of_circles {h : Host} {v : Value} (hv : h.Circles v) :
    h.follow v = .error .endless :=
  trail_of_endless (fun _ _ way => hv.not_ends way) _

/-- A way that does not come back ends, at a value that is no alias or at one of what is not
live, and what it passes is followed to there. -/
theorem follow_of_not_circles {h : Host} {v : Value} (hv : ¬ h.Circles v) :
    (∃ passed w, h.follow v = .ok (passed, w) ∧ h.Way v passed w ∧ ¬ w.IsAlias) ∨
      h.follow v = .error (.raised .dangling) := by
  obtain ⟨passed, w, way, hw⟩ : ∃ passed w, h.Way v passed w ∧ h.Ends w := by
    by_contra hnone
    exact hv (circles_of_endless fun passed w way hw => hnone ⟨passed, w, way, hw⟩)
  obtain ⟨more, hmore⟩ := Nat.exists_eq_add_of_le (way.length_le hw)
  rw [follow, hmore, Nat.add_assoc, way.trail_eq, trail_of_ends hw]
  by_cases halias : w.IsAlias
  · obtain ⟨r, rfl⟩ := exists_slot_of_isAlias halias
    refine .inr ?_
    simp only [trail, hw r rfl]
    rfl
  · refine .inl ⟨passed, w, ?_, way, halias⟩
    rw [trail_of_not_isAlias halias]
    exact congrArg (fun all => Except.ok (all, w)) (List.append_nil passed)

/-- Aliases are followed without end exactly where they lead back to a host value that was
passed; everywhere else chains are finite. -/
theorem follow_eq_endless_iff {h : Host} {v : Value} :
    h.follow v = .error .endless ↔ h.Circles v := by
  constructor
  · intro hfollow
    by_contra hv
    rcases follow_of_not_circles hv with ⟨passed, w, hok, -⟩ | hdangling
    · exact absurd (hok.symm.trans hfollow) (by simp)
    · exact absurd (hdangling.symm.trans hfollow) (by simp)
  · exact follow_of_circles

/-- The trail of an alias of a live host value is the host value and the trail of what it
holds. -/
theorem follow_slot {h : Host} {r : SlotRef} {v : Value} (hv : h.slot? r = some v) :
    h.follow (.native (.slot r)) = (h.follow v).map fun (passed, w) => (r :: passed, w) := by
  rw [follow, follow, trail_slot hv]
  congr 1
  by_cases hends : ∃ passed w, h.Way v passed w ∧ h.Ends w
  · obtain ⟨passed, w, way, hw⟩ := hends
    -- The way from the alias has no more host values than there are, so that from `v` has fewer.
    obtain ⟨more, hmore⟩ := Nat.exists_eq_add_of_le ((Way.pass hv way).length_le hw)
    rw [List.length_cons, Nat.add_right_comm] at hmore
    rw [hmore, Nat.add_assoc, Nat.add_assoc, way.trail_eq, way.trail_eq,
      trail_of_ends hw more, trail_of_ends hw (more + 1)]
  · have hendless : ∀ passed w, h.Way v passed w → ¬ h.Ends w :=
      fun passed w way hw => hends ⟨passed, w, way, hw⟩
    rw [trail_of_endless hendless, trail_of_endless hendless]

theorem resolve_slot {h : Host} {r : SlotRef} {v : Value} (hv : h.slot? r = some v) :
    h.resolve (.native (.slot r)) = h.resolve v := by
  rw [resolve, resolve, follow_slot hv]
  cases h.follow v <;> rfl

/-- An alias of what is not live leads nowhere. -/
theorem follow_of_slot?_eq_none {h : Host} {r : SlotRef} (hr : h.slot? r = none) :
    h.follow (.native (.slot r)) = .error (.raised .dangling) := by
  simp only [follow, trail, hr]

/-! ## Chains -/

/-- From the host value `first` over aliases to the host value `last`, which holds `w`, no
alias; `passed` are all host values on the way, both ends included. -/
inductive Chain (h : Host) : (first : SlotRef) → (passed : List SlotRef) → (last : SlotRef) →
    (w : Value) → Prop
  | stop {r : SlotRef} {w : Value} (held : h.slot? r = some w) (final : ¬ w.IsAlias) :
      Chain h r [r] r w
  | pass {r next last : SlotRef} {passed : List SlotRef} {w : Value}
      (held : h.slot? r = some (.native (.slot next))) (tail : Chain h next passed last w) :
      Chain h r (r :: passed) last w

namespace Chain

variable {h : Host} {first last : SlotRef} {passed : List SlotRef} {w : Value}

theorem slot?_last (c : h.Chain first passed last w) : h.slot? last = some w := by
  induction c with
  | stop held final => exact held
  | pass held tail ih => exact ih

theorem not_isAlias (c : h.Chain first passed last w) : ¬ w.IsAlias := by
  induction c with
  | stop held final => exact final
  | pass held tail ih => exact ih

theorem last_mem (c : h.Chain first passed last w) : last ∈ passed := by
  induction c with
  | stop held final => exact List.mem_singleton_self _
  | pass held tail ih => exact List.mem_cons_of_mem _ ih

theorem passed_eq_cons (c : h.Chain first passed last w) : ∃ rest, passed = first :: rest := by
  cases c with
  | stop held final => exact ⟨[], rfl⟩
  | pass held tail => exact ⟨_, rfl⟩

/-- A chain depends on the host values only. -/
theorem congr {g : Host} (hslots : g.slots = h.slots) (c : h.Chain first passed last w) :
    g.Chain first passed last w := by
  induction c with
  | stop held final => exact .stop ((slot?_congr hslots _).trans held) final
  | pass held tail ih => exact .pass ((slot?_congr hslots _).trans held) ih

theorem way (c : h.Chain first passed last w) : h.Way (.native (.slot first)) passed w := by
  induction c with
  | stop held final => exact .pass held .here
  | pass held tail ih => exact .pass held ih

theorem nodup (c : h.Chain first passed last w) : passed.Nodup :=
  c.way.nodup (ends_of_not_isAlias c.not_isAlias)

theorem last_ne {r next : SlotRef} (held : h.slot? r = some (.native (.slot next)))
    (tail : h.Chain next passed last w) : last ≠ r := by
  rintro rfl
  exact (List.nodup_cons.mp (Chain.pass held tail).nodup).1 tail.last_mem

theorem length_le (c : h.Chain first passed last w) : passed.length ≤ h.slots.length :=
  c.way.length_le (ends_of_not_isAlias c.not_isAlias)

theorem trail_eq (c : h.Chain first passed last w) {fuel : Nat} (hfuel : passed.length ≤ fuel) :
    h.trail fuel (.native (.slot first)) = .ok (passed, w) := by
  obtain ⟨more, rfl⟩ := Nat.exists_eq_add_of_le hfuel
  rw [c.way.trail_eq, trail_of_not_isAlias c.not_isAlias]
  exact congrArg (fun passed => Except.ok (passed, w)) (List.append_nil passed)

/-- An alias is followed to the end of its chain. -/
theorem follow_eq (c : h.Chain first passed last w) :
    h.follow (.native (.slot first)) = .ok (passed, w) :=
  c.trail_eq (Nat.le_succ_of_le c.length_le)

theorem resolve_eq (c : h.Chain first passed last w) :
    h.resolve (.native (.slot first)) = .ok w := by
  rw [resolve, c.follow_eq]
  rfl

/-- New content at the end of a chain. -/
theorem setSlot_last (c : h.Chain first passed last w) {v : Value} (hv : ¬ v.IsAlias) :
    (h.setSlot last v).Chain first passed last v := by
  induction c with
  | stop held final => exact .stop (slot?_setSlot_self held) hv
  | pass held tail ih =>
      exact .pass ((slot?_setSlot_of_ne (last_ne held tail)).trans held) ih

/-- A chain does not depend on other host values. -/
theorem setSlot_of_notMem (c : h.Chain first passed last w) {t : SlotRef} {v : Value}
    (ht : t ∉ passed) : (h.setSlot t v).Chain first passed last w := by
  induction c with
  | stop held final =>
      have hne := List.ne_of_not_mem_cons ht
      exact .stop ((slot?_setSlot_of_ne hne).trans held) final
  | pass held tail ih =>
      have hne := List.ne_of_not_mem_cons ht
      exact .pass ((slot?_setSlot_of_ne hne).trans held) (ih (List.not_mem_of_not_mem_cons ht))

end Chain

/-- What is at the end of a trail from an alias is at the end of a chain. -/
theorem exists_chain_of_trail {h : Host} {fuel : Nat} {r : SlotRef} {passed : List SlotRef}
    {w : Value} (htrail : h.trail fuel (.native (.slot r)) = .ok (passed, w)) :
    ∃ last, h.Chain r passed last w := by
  induction fuel generalizing r passed with
  | zero => contradiction
  | succ fuel ih =>
      cases hheld : h.slot? r with
      | none => simp only [trail, hheld, reduceCtorEq] at htrail
      | some inner =>
          rw [trail_slot hheld] at htrail
          obtain ⟨⟨rest, end'⟩, hrest, heq⟩ := exists_of_map_eq_ok htrail
          obtain ⟨rfl, rfl⟩ := Prod.mk.inj heq
          by_cases hinner : inner.IsAlias
          · obtain ⟨next, rfl⟩ := exists_slot_of_isAlias hinner
            obtain ⟨last, c⟩ := ih hrest
            exact ⟨last, .pass hheld c⟩
          · rw [trail_of_not_isAlias hinner] at hrest
            obtain ⟨rfl, rfl⟩ := Prod.mk.inj (Except.ok.inj hrest)
            exact ⟨r, .stop hheld hinner⟩

/-! ## Storing the copies -/

/-- What is stored along a trail leaves other host values alone. -/
theorem settle_setSlot_comm {t : SlotRef} {passed : List SlotRef} (ht : t ∉ passed) (h : Host)
    (x v : Value) : (h.setSlot t x).settle v passed = (h.settle v passed).setSlot t x := by
  fun_induction h.settle v passed with
  | case1 => rfl
  | case2 r =>
      rw [settle]
      exact setSlot_comm (fun heq => ht (List.mem_singleton.mpr heq)) h x v
  | case3 r next rest ih =>
      have hr : t ≠ r := fun heq => ht (heq ▸ List.mem_cons_self)
      have hrest : t ∉ next :: rest := fun hmem => ht (List.mem_cons_of_mem r hmem)
      rw [settle, ih hrest, setSlot_comm hr]

/-- What was written to a host value on a trail is gone once the copies are stored. -/
theorem settle_setSlot_of_mem {t : SlotRef} {passed : List SlotRef} (hnodup : passed.Nodup)
    (ht : t ∈ passed) (h : Host) (x v : Value) :
    (h.setSlot t x).settle v passed = h.settle v passed := by
  fun_induction h.settle v passed with
  | case1 => contradiction
  | case2 r =>
      obtain rfl := List.mem_singleton.mp ht
      rw [settle, setSlot_setSlot]
  | case3 r next rest ih =>
      obtain ⟨hr, hrest⟩ := List.nodup_cons.mp hnodup
      rcases List.mem_cons.mp ht with rfl | hlater
      · rw [settle, settle_setSlot_comm hr, setSlot_setSlot]
      · rw [settle, ih hrest hlater]

namespace Chain

variable {h : Host} {first last : SlotRef} {passed : List SlotRef} {w : Value}

/-- Only the end of a chain is changed when the copies are stored. -/
theorem settle_eq (c : h.Chain first passed last w) (v : Value) :
    h.settle v passed = h.setSlot last v := by
  induction c with
  | stop held final => rfl
  | @pass r next last passed w held tail ih =>
      obtain ⟨rest, rfl⟩ := tail.passed_eq_cons
      rw [settle, ih, setSlot_comm (last_ne held tail), setSlot_of_slot? held]

/-- Storing the copies as they were taken changes nothing. -/
theorem settle_self (c : h.Chain first passed last w) : h.settle w passed = h :=
  (c.settle_eq w).trans (setSlot_of_slot? c.slot?_last)

end Chain

end Host

end ScriptCore
