import Mathlib.Algebra.Group.Action.Defs
import Mathlib.Algebra.Order.BigOperators.Group.List
import ScriptCore.Image.Draft
import ScriptCore.Proofs.Varint.Fields

/-!
# Where the code of a draft lands

The positions in the unit table are varints, so a code section that starts later can
make the table longer. Laying out again from the length that was found never moves the
code back, and a position takes at most ten bytes, so the start settles on one that
agrees with itself.
-/

namespace ScriptCore.Draft

theorem length_starts_go (start : Nat) (units : List DraftUnit) :
    (starts.go start units).length = units.length := by
  induction units generalizing start with
  | nil => rfl
  | cons u rest ih => simp [starts.go, ih]

@[simp] theorem length_starts (d : Draft) : d.starts.length = d.units.length :=
  length_starts_go 0 d.units

/-- The code of the unit at position `i` and of all later ones begins at the unit's start. -/
theorem drop_code_of_starts_go {units : List DraftUnit} {start i s : Nat}
    (h : (starts.go start units)[i]? = some s) :
    start ≤ s ∧ s - start ≤ (units.flatMap DraftUnit.code).length ∧
      (units.flatMap DraftUnit.code).drop (s - start) =
        (units.drop i).flatMap DraftUnit.code := by
  induction units generalizing start i with
  | nil => simp [starts.go] at h
  | cons u rest ih =>
      cases i with
      | zero =>
          obtain rfl : start = s := by simpa [starts.go] using h
          simp
      | succ i =>
          have htail : (starts.go (start + u.code.length) rest)[i]? = some s := by
            simpa [starts.go] using h
          obtain ⟨hle, hlen, hdrop⟩ := ih htail
          have hsplit : s - start = u.code.length + (s - (start + u.code.length)) := by omega
          refine ⟨by omega, ?_, ?_⟩
          · rw [List.flatMap_cons, List.length_append]
            omega
          · rw [List.flatMap_cons, hsplit, List.drop_length_add_append, hdrop, List.drop_succ_cons]

theorem drop_code_of_starts {d : Draft} {i s : Nat} (h : d.starts[i]? = some s) :
    s ≤ d.code.length ∧ d.code.drop s = (d.units.drop i).flatMap DraftUnit.code := by
  obtain ⟨-, hlen, hdrop⟩ := drop_code_of_starts_go h
  exact ⟨hlen, hdrop⟩

theorem le_length_code {d : Draft} {s : Nat} (h : s ∈ d.starts) : s ≤ d.code.length := by
  obtain ⟨i, hi⟩ := List.mem_iff_getElem?.mp h
  exact (drop_code_of_starts hi).1

theorem layoutFrom_eq (d : Draft) (b : Nat) :
    d.layoutFrom b = d.fixedLength + (d.starts.map fun s => 9 + Varint.size (b + s)).sum := by
  rw [layoutFrom]
  generalize d.fixedLength = length
  induction d.starts generalizing length with
  | nil => rfl
  | cons s rest ih => rw [List.foldl_cons, ih, List.map_cons, List.sum_cons, Nat.add_assoc]

theorem layoutFrom_mono (d : Draft) {a b : Nat} (h : a ≤ b) :
    d.layoutFrom a ≤ d.layoutFrom b := by
  rw [layoutFrom_eq, layoutFrom_eq]
  apply Nat.add_le_add_left
  apply List.sum_le_sum
  intro s _
  have := Varint.size_mono (Nat.add_le_add_right h s)
  omega

/-- Every entry takes at least ten bytes. -/
theorem le_layoutFrom (d : Draft) (b : Nat) :
    d.fixedLength + 10 * d.units.length ≤ d.layoutFrom b := by
  have hsum := List.card_nsmul_le_sum (d.starts.map fun s => 9 + Varint.size (b + s)) 10 (by
    intro n hn
    obtain ⟨s, _, rfl⟩ := List.mem_map.mp hn
    have := Varint.size_pos (b + s)
    omega)
  simp only [List.length_map, length_starts, smul_eq_mul] at hsum
  rw [layoutFrom_eq]
  omega

/-- An entry takes at most nineteen bytes while its position takes at most ten. -/
theorem layoutFrom_le {d : Draft} {b : Nat} (h : b + d.code.length < 128 ^ 10) :
    d.layoutFrom b ≤ d.fixedLength + 19 * d.units.length := by
  have hsum := List.sum_le_card_nsmul (d.starts.map fun s => 9 + Varint.size (b + s)) 19 (by
    intro n hn
    obtain ⟨s, hs, rfl⟩ := List.mem_map.mp hn
    have hcode := le_length_code hs
    have hsize := (Varint.size_le_iff (b + s) 9).mpr (by omega)
    omega)
  simp only [List.length_map, length_starts, smul_eq_mul] at hsum
  rw [layoutFrom_eq]
  omega

/-- Laying out again from what was found until that is what it was found from. Such a run
starts from `b`, evaluates the layout `count` times and ends at `result`. -/
inductive Rounds (d : Draft) : (b count result : Nat) → Prop
  | stable {b} (h : d.layoutFrom b = b) : Rounds d b 1 b
  | moved {b count result} (h : d.layoutFrom b ≠ b)
      (rest : Rounds d (d.layoutFrom b) count result) : Rounds d b (count + 1) result

/-- With enough fuel, settling is running to the end. -/
theorem Rounds.settle_eq {d : Draft} {b count result fuel : Nat} (run : d.Rounds b count result)
    (hfuel : count ≤ fuel) : d.settle fuel b = result := by
  induction run generalizing fuel with
  | stable h =>
      obtain ⟨fuel, rfl⟩ := Nat.exists_eq_add_of_le' hfuel
      simp only [settle, h, if_true]
  | moved h rest ih =>
      obtain ⟨fuel, rfl⟩ := Nat.exists_eq_add_of_le' (Nat.one_le_of_lt hfuel)
      simp only [settle, h, if_false]
      exact ih (by omega)

theorem Rounds.layoutFrom_result {d : Draft} {b count result : Nat}
    (run : d.Rounds b count result) : d.layoutFrom result = result := by
  induction run with
  | stable h => exact h
  | moved h rest ih => exact ih

/-- Rounds that never move the start back and never carry it past a bound end after as many
evaluations as there are starts up to the bound. -/
theorem exists_rounds {d : Draft} {bound b : Nat} (hback : b ≤ d.layoutFrom b)
    (hbound : ∀ a ≤ bound, d.layoutFrom a ≤ bound) (hb : b ≤ bound) :
    ∃ count ≤ bound - b + 1, ∃ result, d.Rounds b count result := by
  -- A round that changes the start moves it forward, so what is left to the bound shrinks.
  induction hleft : bound - b using Nat.strong_induction_on generalizing b with
  | _ left ih =>
      by_cases hstable : d.layoutFrom b = b
      · exact ⟨1, by omega, b, .stable hstable⟩
      · have hnext := hbound b hb
        obtain ⟨count, hcount, result, run⟩ :=
          ih (bound - d.layoutFrom b) (by omega) (d.layoutFrom_mono hback) hnext rfl
        exact ⟨count + 1, by omega, result, .moved hstable run⟩

/-- The code section of a draft starts where laying out ends. -/
theorem exists_rounds_base {d : Draft}
    (h : d.fixedLength + 19 * d.units.length + d.code.length < 128 ^ 10) :
    ∃ count ≤ 9 * d.units.length + 1,
      d.Rounds (d.fixedLength + 10 * d.units.length) count d.base := by
  have hbound : ∀ a ≤ d.fixedLength + 19 * d.units.length,
      d.layoutFrom a ≤ d.fixedLength + 19 * d.units.length := by
    intro a ha
    exact layoutFrom_le (by omega)
  obtain ⟨count, hcount, result, run⟩ := exists_rounds (d.le_layoutFrom _) hbound (by omega)
  have hle : count ≤ 9 * d.units.length + 1 := by omega
  have hbase : d.base = result := run.settle_eq hle
  exact ⟨count, hle, hbase ▸ run⟩

/-- The code section of a draft starts where its table says that it starts. -/
theorem layoutFrom_base {d : Draft}
    (h : d.fixedLength + 19 * d.units.length + d.code.length < 128 ^ 10) :
    d.layoutFrom d.base = d.base := by
  obtain ⟨count, -, run⟩ := exists_rounds_base h
  exact run.layoutFrom_result

end ScriptCore.Draft
