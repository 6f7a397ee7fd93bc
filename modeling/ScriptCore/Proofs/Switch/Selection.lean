import Mathlib.Algebra.Ring.Int.Defs
import Mathlib.Algebra.Ring.Nat
import Mathlib.Data.List.Find
import ScriptCore.Switch

/-!
# Every layout selects the same arm

A value selects the first arm whose label equals it, and the first default arm
when there is none. The jump table and the index are read back as a search
through the labels in order, which is what trying the arms one by one does.
-/

namespace ScriptCore

variable {β : Type}

/-- The arm has a label, and the label equals the value. -/
def Arm.Equals (arm : Arm β) (v : Value) : Prop :=
  ∃ l, arm.label = some l ∧ Comparison.equals l.toValue v = .ok true

/-- The arm at position `i` has the property, and no earlier arm has it. -/
def Arm.FirstAt (p : Arm β → Prop) (arms : List (Arm β)) (i : Nat) : Prop :=
  (∃ arm, arms[i]? = some arm ∧ p arm) ∧
    ∀ j < i, ∀ arm, arms[j]? = some arm → ¬ p arm

/-- Which position, if any, a value selects. -/
inductive Switch.Selects (arms : List (Arm β)) (v : Value) : Option Nat → Prop
  | labelled {i : Nat} (first : Arm.FirstAt (·.Equals v) arms i) : Selects arms v (some i)
  | fallback {i : Nat} (unequal : ∀ arm ∈ arms, ¬ arm.Equals v)
      (first : Arm.FirstAt (·.label = none) arms i) : Selects arms v (some i)
  | nothing (unequal : ∀ arm ∈ arms, ¬ arm.Equals v)
      (labelled : ∀ arm ∈ arms, arm.label ≠ none) : Selects arms v none

/-- A jump table is filled and read inside its bounds, on true distances from its base. -/
structure Switch.InBounds (arms : List (Arm β)) (base : Int64) (slots : List (Option Nat)) :
    Prop where
  /-- The wrapped distance of a label is its true distance, and there is a slot for it. -/
  filled : ∀ arm ∈ arms, ∀ l, arm.label = some l → ∃ n, l = .int n ∧
    (n - base).toInt = n.toInt - base.toInt ∧ 0 ≤ (n - base).toInt ∧
    (n - base).toInt.toNat < slots.length
  /-- The position at which an integer is looked up is its true distance. -/
  read : ∀ n i, Plan.offset? base n = some i → (i : Int) = n.toInt - base.toInt
  /-- An integer without a position, or with one behind the last slot, labels no arm. -/
  missed : ∀ n, (∀ i, Plan.offset? base n = some i → slots.length ≤ i) →
    ∀ arm ∈ arms, arm.label ≠ some (.int n)

namespace Label

/-- Only null, numbers and strings equal a label. -/
theorem accepts_eq_false {v : Value} (hkey : LabelKey.ofValue? v = none)
    (hfloat : ∀ x, v ≠ .float x) (l : Label) : l.accepts v = false := by
  cases v with
  | float x => exact absurd rfl (hfloat x)
  | array items => cases l <;> rfl
  | hash table => cases l <;> rfl
  | native handle => cases l <;> rfl
  | unit ref => cases l <;> rfl
  | _ => simp [LabelKey.ofValue?] at hkey

/-- A label has a test of its own, which is the equality of scalars. -/
theorem accepts_eq_scalarEqual (l : Label) (v : Value) :
    l.accepts v = Comparison.scalarEqual l.toValue v := by
  cases l <;> cases v <;> rfl

/-- The test that the layouts agree on is equality of values. -/
theorem accepts_iff_equals (l : Label) (v : Value) :
    l.accepts v = true ↔ Comparison.equals l.toValue v = .ok true := by
  have hl : Comparison.comparable l.toValue.tag = true := by cases l <;> rfl
  by_cases hv : Comparison.comparable v.tag = true
  · simp [accepts_eq_scalarEqual, Comparison.equals, hl, hv]
  · have hkey : LabelKey.ofValue? v = none := by
      cases v <;> simp_all [Comparison.comparable, Value.tag, LabelKey.ofValue?]
    have hfloat : ∀ x, v ≠ .float x := by
      rintro x rfl
      exact hv rfl
    simp [Comparison.equals, hl, hv, accepts_eq_false hkey hfloat]

theorem accepts_int_iff (m n : Int64) : (Label.int m).accepts (.int n) = true ↔ m = n :=
  beq_iff_eq

theorem accepts_str_iff (s t : String) : (Label.str s).accepts (.str t) = true ↔ s = t :=
  beq_iff_eq

end Label

/-- A traversal that succeeds and can be undone item by item is undone as a whole. -/
theorem eq_map_of_mapM_eq_some {α γ : Type} {f : α → Option γ} {g : γ → α}
    (hg : ∀ a c, f a = some c → a = g c) {xs : List α} {ys : List γ}
    (h : xs.mapM f = some ys) : xs = ys.map g := by
  induction xs generalizing ys with
  | nil =>
      simp only [List.mapM_nil, Option.pure_def, Option.some.injEq] at h
      simp [← h]
  | cons x xs ih =>
      simp only [List.mapM_cons, Option.pure_def, Option.bind_eq_bind,
        Option.bind_eq_some_iff, Option.some.injEq] at h
      obtain ⟨c, hc, cs, hcs, rfl⟩ := h
      rw [List.map_cons, ← hg x c hc, ← ih hcs]

namespace LabelKey

def toLabel : LabelKey → Label
  | .null => .null
  | .int n => .int n
  | .str s => .str s

theorem eq_toLabel_of_ofLabel? {l : Label} {k : LabelKey} (h : ofLabel? l = some k) :
    l = k.toLabel := by
  cases l <;> simp only [ofLabel?, Option.some.injEq, reduceCtorEq] at h <;>
    subst h <;> rfl

theorem accepts_toLabel_iff {v : Value} {k : LabelKey} (h : ofValue? v = some k)
    (l : LabelKey) : l.toLabel.accepts v = true ↔ k = l := by
  cases v with
  | null =>
      simp only [ofValue?, Option.some.injEq] at h
      subst h
      cases l <;> simp [toLabel, Label.accepts]
  | int n =>
      simp only [ofValue?, Option.some.injEq] at h
      subst h
      cases l with
      | int m =>
          rw [toLabel, Label.accepts_int_iff, LabelKey.int.injEq]
          exact eq_comm
      | _ => simp [toLabel, Label.accepts]
  | str s =>
      simp only [ofValue?, Option.some.injEq] at h
      subst h
      cases l with
      | str t =>
          rw [toLabel, Label.accepts_str_iff, LabelKey.str.injEq]
          exact eq_comm
      | _ => simp [toLabel, Label.accepts]
  | _ => simp [ofValue?] at h

end LabelKey

namespace Switch

/-- The position of the first label that equals the value. -/
def firstLabel (labels : List (Nat × Label)) (v : Value) : Option Nat :=
  (labels.find? (·.2.accepts v)).map Prod.fst

theorem firstLabel_eq_none {labels : List (Nat × Label)} {v : Value}
    (h : ∀ l ∈ labels, l.2.accepts v = false) : firstLabel labels v = none := by
  rw [firstLabel, List.find?_eq_none.mpr (by simpa using h), Option.map_none]

theorem mem_labels_iff {arms : List (Arm β)} {i : Nat} {l : Label} :
    (i, l) ∈ labels arms ↔ ∃ arm, arms[i]? = some arm ∧ arm.label = some l := by
  simp [labels, List.mem_filterMap, List.mem_zipIdx_iff_getElem?]

/-- Trying the arms in order finds the first label that equals the value. -/
theorem probe_eq_firstLabel (s : Switch β) (v : Value) :
    s.probe v = firstLabel (labels s.arms) v := by
  have htest : ∀ e : Arm β × Nat,
      ((e.1.label.map (e.2, ·)).any fun l => l.2.accepts v) = e.1.accepts v := by
    rintro ⟨arm, i⟩
    cases h : arm.label <;> simp [Arm.accepts, h]
  rw [probe, List.findIdx?_eq_fst_find?_zipIdx, firstLabel, labels, List.find?_filterMap]
  simp only [htest]
  cases hfind : s.arms.zipIdx.find? (fun e => e.1.accepts v) with
  | none => simp
  | some e =>
      have haccepts : e.1.accepts v = true := by simpa using List.find?_some hfind
      cases h : e.1.label with
      | none => simp [Arm.accepts, h] at haccepts
      | some l => simp [h]

end Switch

namespace Plan

/-- A key finds in the index the first label that equals its value. -/
theorem lookup_eq_firstLabel {v : Value} {k : LabelKey} (hk : LabelKey.ofValue? v = some k)
    (index : List (LabelKey × Nat)) :
    index.lookup k = Switch.firstLabel (index.map fun e => (e.2, e.1.toLabel)) v := by
  induction index with
  | nil => rfl
  | cons e rest ih =>
      obtain ⟨l, i⟩ := e
      have htest := LabelKey.accepts_toLabel_iff hk l
      simp only [Switch.firstLabel] at ih
      rw [List.lookup_cons, Switch.firstLabel, List.map_cons, List.find?_cons]
      by_cases h : k = l
      · simp [h, htest.mpr h]
      · have hf : l.toLabel.accepts v = false := by simpa [h] using htest
        have hne : (k == l) = false := by simpa using h
        simp only [hne, hf]
        exact ih

theorem eq_map_of_keyed? {labels : List (Nat × Label)} {plan : Plan}
    (h : keyed? labels = some plan) :
    ∃ index, plan = .keyed index ∧ labels = index.map fun e => (e.2, e.1.toLabel) := by
  obtain ⟨index, hindex, rfl⟩ := Option.map_eq_some_iff.mp h
  refine ⟨index, rfl, eq_map_of_mapM_eq_some ?_ hindex⟩
  rintro ⟨i, l⟩ e he
  obtain ⟨k, hk, rfl⟩ := Option.map_eq_some_iff.mp he
  rw [← LabelKey.eq_toLabel_of_ofLabel? hk]

theorem length_fill (slots : List (Option Nat)) (i arm : Nat) :
    (fill slots i arm).length = slots.length := by
  simp [fill]

/-- Filling a slot changes that slot only, and only when it is free. -/
theorem join_getElem?_fill {slots : List (Option Nat)} {i : Nat} (hi : i < slots.length)
    (j arm : Nat) :
    (fill slots j arm)[i]?.join =
      slots[i]?.join.or (if j = i then some arm else none) := by
  by_cases h : j = i
  · subst h
    cases hslot : slots[j] <;> simp [fill, hi, hslot]
  · simp [fill, h]

/-- Filling slots one after another leaves in each the first arm meant for it. -/
theorem join_getElem?_foldl_fill {α : Type} (place arm : α → Nat) (items : List α)
    {slots : List (Option Nat)} {i : Nat} (hi : i < slots.length) :
    (items.foldl (fun slots a => fill slots (place a) (arm a)) slots)[i]?.join =
      slots[i]?.join.or ((items.find? fun a => place a = i).map arm) := by
  induction items generalizing slots with
  | nil => simp
  | cons a rest ih =>
      rw [List.foldl_cons, ih (by rwa [length_fill]), join_getElem?_fill hi, List.find?_cons]
      by_cases h : place a = i
      · simp [h]
      · simp [h]

theorem length_foldl_fill {α : Type} (place arm : α → Nat) (items : List α)
    (slots : List (Option Nat)) :
    (items.foldl (fun slots a => fill slots (place a) (arm a)) slots).length =
      slots.length := by
  induction items generalizing slots with
  | nil => rfl
  | cons a rest ih => rw [List.foldl_cons, ih, length_fill]

/-- Where combining two words gives a bound of both, folding gives a bound of all. -/
theorem foldl_bounds {r : Int64 → Int64 → Prop} {combine : Int64 → Int64 → Int64}
    (hrefl : ∀ a, r a a) (htrans : ∀ a b c, r a b → r b c → r a c)
    (hcombine : ∀ a b, r (combine a b) a ∧ r (combine a b) b)
    (n : Int64) (rest : List (Nat × Int64)) :
    ∀ l ∈ n :: rest.map Prod.snd, r (rest.foldl (fun m l => combine m l.2) n) l := by
  induction rest generalizing n with
  | nil =>
      intro l hl
      rw [List.mem_singleton.mp hl]
      exact hrefl n
  | cons first rest ih =>
      have hfold := ih (combine n first.2)
      have hhead := hfold (combine n first.2) List.mem_cons_self
      intro l hl
      rcases List.mem_cons.mp hl with rfl | hl
      · exact htrans _ _ _ hhead (hcombine l first.2).1
      · rcases List.mem_cons.mp hl with rfl | hl
        · exact htrans _ _ _ hhead (hcombine n first.2).2
        · exact hfold l (List.mem_cons_of_mem _ hl)

theorem foldl_min_le (n : Int64) (rest : List (Nat × Int64)) :
    ∀ l ∈ n :: rest.map Prod.snd,
      (rest.foldl (fun m l => min m l.2) n).toInt ≤ l.toInt := by
  apply foldl_bounds (r := fun a b => a.toInt ≤ b.toInt)
  · intro a
    exact Int.le_refl _
  · intro a b c
    exact Int.le_trans
  · intro a b
    simp only [min, Int64.le_iff_toInt_le]
    split <;> omega

theorem le_foldl_max (n : Int64) (rest : List (Nat × Int64)) :
    ∀ l ∈ n :: rest.map Prod.snd,
      l.toInt ≤ (rest.foldl (fun m l => max m l.2) n).toInt := by
  apply foldl_bounds (r := fun a b => b.toInt ≤ a.toInt)
  · intro a
    exact Int.le_refl _
  · intro a b c hab hbc
    exact Int.le_trans hbc hab
  · intro a b
    simp only [max, Int64.le_iff_toInt_le]
    split <;> omega

/-- The wrapped difference of two words is their true difference when that is a word. -/
theorem toInt_sub_of_bounds {n base : Int64} (hlow : 0 ≤ n.toInt - base.toInt)
    (hhigh : n.toInt - base.toInt < 2 ^ 63) : (n - base).toInt = n.toInt - base.toInt := by
  rw [Int64.toInt_sub]
  exact Int.bmod_eq_of_le (by omega) (by omega)

/-- Every integer label has a slot, and a slot holds the first arm labelled with the
integer that the slot stands for. -/
structure JumpTable (base : Int64) (slots : List (Option Nat)) (ints : List (Nat × Int64)) :
    Prop where
  short : slots.length ≤ maxSpan
  inside : ∀ l ∈ ints, ∃ i < slots.length, l.2.toInt = base.toInt + i
  first : ∀ i < slots.length,
    slots[i]?.join = (ints.find? fun l => l.2.toInt = base.toInt + i).map Prod.fst

theorem jumpTable_of_dense? {ints : List (Nat × Int64)} {plan : Plan}
    (h : dense? ints = some plan) :
    ∃ base slots, plan = .dense base slots ∧ JumpTable base slots ints := by
  cases ints with
  | nil => simp [dense?] at h
  | cons l rest =>
      obtain ⟨arm, n⟩ := l
      simp only [dense?] at h
      have hmin := foldl_min_le n rest
      have hmax := le_foldl_max n rest
      generalize rest.foldl (fun m l => min m l.2) n = low at *
      generalize rest.foldl (fun m l => max m l.2) n = high at *
      split at h
      · rename_i hspan
        have hbounds : ∀ l ∈ (arm, n) :: rest, low.toInt ≤ l.2.toInt ∧ l.2.toInt ≤ high.toInt := by
          intro l hl
          have hmem : l.2 ∈ n :: rest.map Prod.snd := List.mem_map_of_mem hl
          exact ⟨hmin l.2 hmem, hmax l.2 hmem⟩
        have hplace : ∀ l ∈ (arm, n) :: rest, ∀ i : Nat,
            (l.2 - low).toInt.toNat = i ↔ l.2.toInt = low.toInt + i := by
          intro l hl i
          have := hbounds l hl
          rw [toInt_sub_of_bounds] <;> simp only [maxSpan] at hspan <;> omega
        refine ⟨low, _, (Option.some.inj h).symm, ?_, ?_, ?_⟩
        · rw [length_foldl_fill, List.length_replicate]
          omega
        · intro l hl
          have := hbounds l hl
          refine ⟨(l.2.toInt - low.toInt).toNat, ?_, by omega⟩
          rw [length_foldl_fill, List.length_replicate]
          omega
        · intro i hi
          rw [length_foldl_fill] at hi
          rw [join_getElem?_foldl_fill _ _ _ hi]
          have hfree : (List.replicate ((high.toInt - low.toInt).toNat + 1)
              (none : Option Nat))[i]?.join = none := by
            rw [List.getElem?_replicate_of_lt (by simpa using hi)]
            rfl
          rw [hfree, Option.none_or]
          congr 1
          apply List.find?_congr
          intro l hl
          simp only [hplace l hl i]
      · simp at h

theorem offset?_eq_some_iff {base n : Int64} {i : Nat} :
    offset? base n = some i ↔ n.toInt = base.toInt + i ∧ i < 2 ^ 63 := by
  have hmax : Int64.maxValue.toInt = 2 ^ 63 - 1 := rfl
  simp only [offset?]
  split
  · rw [Option.some.injEq]
    omega
  · simp only [reduceCtorEq, false_iff]
    omega

/-- Reading the jump table finds the first arm labelled with the integer. A position that
the table lacks belongs to no label. -/
theorem JumpTable.lookup_eq_firstLabel {base : Int64} {slots : List (Option Nat)}
    {ints : List (Nat × Int64)} (table : JumpTable base slots ints) (n : Int64) :
    ((offset? base n).bind fun i => slots[i]?.join) =
      Switch.firstLabel (ints.map fun l => (l.1, .int l.2)) (.int n) := by
  have hsearch : Switch.firstLabel (ints.map fun l => (l.1, .int l.2)) (.int n) =
      (ints.find? fun l => l.2.toInt = n.toInt).map Prod.fst := by
    have htest : ∀ l : Nat × Int64,
        (Label.int l.2).accepts (.int n) = decide (l.2.toInt = n.toInt) := by
      intro l
      rw [Bool.eq_iff_iff, Label.accepts_int_iff, decide_eq_true_iff, Int64.toInt_inj]
    simp only [Switch.firstLabel, List.find?_map, Option.map_map, Function.comp_def, htest]
  rw [hsearch]
  by_cases hslot : ∃ i < slots.length, n.toInt = base.toInt + i
  · obtain ⟨i, hi, hn⟩ := hslot
    have hshort := table.short
    have hoffset : offset? base n = some i :=
      offset?_eq_some_iff.mpr ⟨hn, by simp only [maxSpan] at hshort; omega⟩
    rw [hoffset, Option.bind_some, table.first i hi, hn]
  · have hnone : (ints.find? fun l => l.2.toInt = n.toInt) = none := by
      rw [List.find?_eq_none]
      intro l hl heq
      obtain ⟨i, hi, hli⟩ := table.inside l hl
      exact hslot ⟨i, hi, by simpa [hli] using (of_decide_eq_true heq).symm⟩
    rw [hnone, Option.map_none]
    cases hoffset : offset? base n with
    | none => rfl
    | some i =>
        have hout : slots.length ≤ i := by
          by_contra hi
          exact hslot ⟨i, by omega, (offset?_eq_some_iff.mp hoffset).1⟩
        rw [Option.bind_some, List.getElem?_eq_none hout]
        rfl

/-- What a layout records of the labels. -/
inductive Lays (labels : List (Nat × Label)) : Plan → Prop
  | dense {base : Int64} {slots : List (Option Nat)} {ints : List (Nat × Int64)}
      (table : JumpTable base slots ints)
      (spells : labels = ints.map fun l => (l.1, .int l.2)) : Lays labels (.dense base slots)
  | keyed {index : List (LabelKey × Nat)}
      (spells : labels = index.map fun e => (e.2, e.1.toLabel)) : Lays labels (.keyed index)
  | scan : Lays labels .scan

theorem ofLabels_lays (labels : List (Nat × Label)) : Lays labels (ofLabels labels) := by
  rw [ofLabels]
  split
  · rename_i plan hplan
    obtain ⟨ints, hints, hdense⟩ := Option.bind_eq_some_iff.mp hplan
    obtain ⟨base, slots, rfl, table⟩ := jumpTable_of_dense? hdense
    refine .dense table (eq_map_of_mapM_eq_some ?_ hints)
    rintro ⟨i, l⟩ c hc
    obtain ⟨n, hn, rfl⟩ := Option.map_eq_some_iff.mp hc
    cases l <;> simp_all [Label.int?]
  · split
    · cases hkeyed : keyed? labels with
      | none => exact .scan
      | some plan =>
          obtain ⟨index, rfl, spells⟩ := eq_map_of_keyed? hkeyed
          exact .keyed spells
    · exact .scan

end Plan

namespace Switch

theorem find_float (s : Switch β) (x : Float) : s.find (.float x) = s.probe (.float x) := by
  obtain ⟨arms, plan⟩ := s
  cases plan <;> rfl

/-- Every layout finds what trying the arms in order finds. -/
theorem find_eq_probe {s : Switch β} (h : s.plan.Lays (labels s.arms)) (v : Value) :
    s.find v = s.probe v := by
  by_cases hfloat : ∃ x, v = .float x
  · obtain ⟨x, rfl⟩ := hfloat
    exact s.find_float x
  have hfloat' : ∀ x, v ≠ .float x := fun x hx => hfloat ⟨x, hx⟩
  obtain ⟨arms, plan⟩ := s
  cases h with
  | scan => rfl
  | @keyed index spells =>
      have hfind : find ⟨arms, .keyed index⟩ v =
          (LabelKey.ofValue? v).bind fun k => index.lookup k := by
        cases v with
        | float x => exact absurd rfl (hfloat' x)
        | _ => rfl
      rw [hfind, probe_eq_firstLabel]
      cases hkey : LabelKey.ofValue? v with
      | none => exact (firstLabel_eq_none fun l _ => l.2.accepts_eq_false hkey hfloat').symm
      | some k => rw [Option.bind_some, Plan.lookup_eq_firstLabel hkey, spells]
  | @dense base slots ints table spells =>
      rw [probe_eq_firstLabel, spells]
      by_cases hint : ∃ n, v = .int n
      · obtain ⟨n, rfl⟩ := hint
        exact table.lookup_eq_firstLabel n
      -- A value that is no number equals no integer.
      · have hfind : find ⟨arms, .dense base slots⟩ v = none := by
          cases v with
          | float x => exact absurd rfl (hfloat' x)
          | int n => exact absurd ⟨n, rfl⟩ hint
          | _ => rfl
        rw [hfind, firstLabel_eq_none]
        intro l hl
        obtain ⟨e, _, rfl⟩ := List.mem_map.mp hl
        cases v with
        | float x => exact absurd rfl (hfloat' x)
        | int n => exact absurd ⟨n, rfl⟩ hint
        | _ => rfl

theorem find_ofArms (arms : List (Arm β)) (v : Value) :
    (ofArms arms).find v = arms.findIdx? (·.accepts v) :=
  find_eq_probe (Plan.ofLabels_lays (labels arms)) v

theorem accepts_iff_equals (arm : Arm β) (v : Value) :
    arm.accepts v = true ↔ arm.Equals v := by
  cases h : arm.label <;> simp [Arm.accepts, Arm.Equals, h, Label.accepts_iff_equals]

/-- A search by a test finds the first arm with the property that the test decides. -/
theorem findIdx?_eq_some_iff_firstAt {p : Arm β → Prop} {test : Arm β → Bool}
    (htest : ∀ arm, test arm = true ↔ p arm) {arms : List (Arm β)} {i : Nat} :
    arms.findIdx? test = some i ↔ Arm.FirstAt p arms i := by
  simp only [List.findIdx?_eq_some_iff_getElem, Arm.FirstAt, ← htest]
  constructor
  · rintro ⟨hi, hfound, hearlier⟩
    refine ⟨⟨arms[i], List.getElem?_eq_getElem hi, hfound⟩, ?_⟩
    intro j hj arm harm
    obtain ⟨hlt, rfl⟩ := List.getElem?_eq_some_iff.mp harm
    exact hearlier j hj
  · rintro ⟨⟨arm, harm, hfound⟩, hearlier⟩
    obtain ⟨hi, rfl⟩ := List.getElem?_eq_some_iff.mp harm
    refine ⟨hi, hfound, ?_⟩
    intro j hj
    exact hearlier j hj _ (List.getElem?_eq_getElem (by omega))

theorem findIdx?_eq_none_iff_forall {p : Arm β → Prop} {test : Arm β → Bool}
    (htest : ∀ arm, test arm = true ↔ p arm) {arms : List (Arm β)} :
    arms.findIdx? test = none ↔ ∀ arm ∈ arms, ¬ p arm := by
  simp only [List.findIdx?_eq_none_iff, ← htest, Bool.not_eq_true]

/-- The arm that a value selects, for any mix of labels and defaults. The search through
the labels comes first, whichever layout it uses. -/
theorem resolve_eq_iff_selects (arms : List (Arm β)) (v : Value) (r : Option Nat) :
    (ofArms arms).resolve v = r ↔ Selects arms v r := by
  have hequal : ∀ arm : Arm β, arm.accepts v = true ↔ arm.Equals v :=
    fun arm => accepts_iff_equals arm v
  have hdefault : ∀ arm : Arm β, arm.label.isNone = true ↔ arm.label = none :=
    fun arm => Option.isNone_iff_eq_none
  have hresolve : (ofArms arms).resolve v =
      (arms.findIdx? (·.accepts v)).or (arms.findIdx? (·.label.isNone)) := by
    rw [resolve, find_ofArms]
    rfl
  rw [hresolve]
  cases hfind : arms.findIdx? (·.accepts v) with
  | some i =>
      obtain ⟨⟨found, hfound, hfoundEq⟩, _⟩ := (findIdx?_eq_some_iff_firstAt hequal).mp hfind
      have hmem : found ∈ arms := List.mem_of_getElem? hfound
      constructor
      · rintro rfl
        exact .labelled ((findIdx?_eq_some_iff_firstAt hequal).mp hfind)
      · intro h
        cases h with
        | @labelled j first =>
            rw [Option.some_or, ← hfind]
            exact (findIdx?_eq_some_iff_firstAt hequal).mpr first
        | fallback unequal _ => exact absurd hfoundEq (unequal found hmem)
        | nothing unequal _ => exact absurd hfoundEq (unequal found hmem)
  | none =>
      have hunequal := (findIdx?_eq_none_iff_forall hequal).mp hfind
      rw [Option.none_or]
      constructor
      · rintro rfl
        cases hfallback : arms.findIdx? (·.label.isNone) with
        | some i => exact .fallback hunequal ((findIdx?_eq_some_iff_firstAt hdefault).mp hfallback)
        | none => exact .nothing hunequal ((findIdx?_eq_none_iff_forall hdefault).mp hfallback)
      · intro h
        cases h with
        | labelled first =>
            obtain ⟨⟨arm, harm, harmEq⟩, _⟩ := first
            exact absurd harmEq (hunequal arm (List.mem_of_getElem? harm))
        | fallback _ first => exact (findIdx?_eq_some_iff_firstAt hdefault).mpr first
        | nothing _ labelled => exact (findIdx?_eq_none_iff_forall hdefault).mpr labelled

theorem inBounds_of_jumpTable {arms : List (Arm β)} {base : Int64}
    {slots : List (Option Nat)} {ints : List (Nat × Int64)}
    (table : Plan.JumpTable base slots ints)
    (spells : labels arms = ints.map fun l => (l.1, .int l.2)) :
    InBounds arms base slots := by
  have hshort := table.short
  simp only [Plan.maxSpan] at hshort
  have hlabel : ∀ arm ∈ arms, ∀ l, arm.label = some l →
      ∃ n, l = .int n ∧ ∃ i < slots.length, n.toInt = base.toInt + i := by
    intro arm harm l hl
    obtain ⟨j, hj⟩ := List.mem_iff_getElem?.mp harm
    have hmem : (j, l) ∈ labels arms := mem_labels_iff.mpr ⟨arm, hj, hl⟩
    rw [spells] at hmem
    obtain ⟨e, he, heq⟩ := List.mem_map.mp hmem
    exact ⟨e.2, (congrArg Prod.snd heq).symm, table.inside e he⟩
  refine ⟨?_, ?_, ?_⟩
  · intro arm harm l hl
    obtain ⟨n, rfl, i, hi, hn⟩ := hlabel arm harm l hl
    have hsub := @Plan.toInt_sub_of_bounds n base (by omega) (by omega)
    exact ⟨n, rfl, hsub, by omega, by omega⟩
  · intro n i hi
    have := (Plan.offset?_eq_some_iff.mp hi).1
    omega
  · intro n hmissed arm harm hl
    obtain ⟨m, hm, i, hi, hn⟩ := hlabel arm harm _ hl
    obtain rfl : n = m := by simpa using hm
    have := hmissed i (Plan.offset?_eq_some_iff.mpr ⟨hn, by omega⟩)
    omega

/-- A value selects the first arm whose label equals it, else the first default arm, under
every layout; and a jump table stays inside its bounds. -/
theorem resolve_selects_in_bounds (arms : List (Arm β)) (v : Value) :
    (∀ r, (ofArms arms).resolve v = r ↔ Selects arms v r) ∧
      ∀ base slots, (ofArms arms).plan = .dense base slots → InBounds arms base slots := by
  refine ⟨resolve_eq_iff_selects arms v, ?_⟩
  intro base slots hplan
  have hlays := Plan.ofLabels_lays (labels arms)
  rw [show Plan.ofLabels (labels arms) = .dense base slots from hplan] at hlays
  cases hlays with
  | dense table spells => exact inBounds_of_jumpTable table spells

-- The distance from the base to the scrutinee does not fit in a word here.
example :
    (ofArms [⟨some (.int Int64.minValue), ()⟩, ⟨none, ()⟩,
      ⟨some (.int Int64.minValue), ()⟩]).resolve (.int Int64.maxValue) = some 1 := by
  decide +kernel

end Switch

end ScriptCore
