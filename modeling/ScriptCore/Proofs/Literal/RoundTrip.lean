import ScriptCore.Proofs.Text.Numerals
import ScriptCore.Value.Text

/-!
# The text of an integer is its literal

The text of an integer is a decimal literal with the integer's sign and magnitude. The
magnitude of the least integer exceeds the greatest one, but like all others it fits in 64
bits, so the literal is read at every width, as what the integer wraps to. At 64 bits that is
the integer itself: no two integers have the same text.
-/

namespace ScriptCore

/-- The wrapped integer is the one of the width that is congruent to the integer. -/
theorem Width.reduces_wrap (w : Width) (n : Int64) : w.Reduces n.toInt (w.wrap n) := by
  have hreduces := w.reduces_ofInt n.toInt
  rwa [Width.ofInt, Int64.ofInt_toInt] at hreduces

theorem Width.wrap_of_inRange {w : Width} {n : Int64} (h : w.InRange n) : w.wrap n = n :=
  (w.reduces_wrap n).unique ⟨h, rfl⟩

namespace Literal

variable {w : Width} {n : Int64}

theorem writes_ofInt (z : Int) :
    Writes .decimal (decide (z < 0)) z.natAbs (Numeral.ofInt z).toList := by
  refine ⟨[], by decide, _, Numeral.spells_ofNat z.natAbs, ?_⟩
  by_cases hz : z < 0
  · simp [Numeral.ofInt, hz]
  · simp [Numeral.ofInt, hz]

theorem signed_natAbs (z : Int) : signed (decide (z < 0)) z.natAbs = z := by
  by_cases hz : z < 0
  · simp only [signed, hz, decide_true, if_true]
    omega
  · simp only [signed, hz, decide_false, Bool.false_eq_true, if_false]
    omega

theorem natAbs_toInt_lt (n : Int64) : n.toInt.natAbs < UInt64.size := by
  have hlow := n.le_toInt
  have hhigh := n.toInt_lt
  simp only [UInt64.size]
  omega

theorem int_text : int w (Value.int n).text = .ok (w.wrap n) := by
  calc
    int w (Value.int n).text = .ok (w.ofInt (signed (decide (n.toInt < 0)) n.toInt.natAbs)) := by
      rw [Value.text, int_of_writes (writes_ofInt n.toInt), if_pos (natAbs_toInt_lt n)]
    _ = .ok (w.wrap n) := by rw [signed_natAbs, Width.ofInt, Int64.ofInt_toInt]

theorem number_text : number w (Value.int n).text = .ok (.int (w.wrap n)) := by
  have hfloat : isFloat (Value.int n).text.toList = false := isFloat_of_writes (writes_ofInt n.toInt)
  rw [number, hfloat, int_text]
  rfl

theorem text_int_injective {m n : Int64} (h : (Value.int m).text = (Value.int n).text) : m = n := by
  have hm : number .w64 (Value.int m).text = .ok (.int m) := number_text
  have hn : number .w64 (Value.int n).text = .ok (.int n) := number_text
  rw [h, hn] at hm
  exact (Value.int.inj (Except.ok.inj hm)).symm

/-- The text of an integer is read as a number at every width, as what the integer wraps to,
which is the one integer of the width that is congruent to it. At 64 bits that is the integer
itself, and at 32 bits if it is in range. Different integers have different texts. -/
theorem integer_text_reads_back :
    (∀ (w : Width) (n : Int64), number w (Value.int n).text = .ok (.int (w.wrap n)) ∧
      w.Reduces n.toInt (w.wrap n)) ∧
    (∀ n : Int64, number .w64 (Value.int n).text = .ok (.int n)) ∧
    (∀ n : Int64, -2 ^ 31 ≤ n.toInt → n.toInt < 2 ^ 31 →
      number .w32 (Value.int n).text = .ok (.int n)) ∧
    (∀ m n : Int64, m ≠ n → (Value.int m).text ≠ (Value.int n).text) := by
  refine ⟨fun w n => ⟨number_text, w.reduces_wrap n⟩, fun n => number_text, ?_, ?_⟩
  · intro n hlow hhigh
    have hwrap : Width.w32.wrap n = n := Width.wrap_of_inRange ⟨hlow, hhigh⟩
    rw [number_text, hwrap]
  · intro m n hne htext
    exact hne (text_int_injective htext)

/-- The least integer of 32 bits, whose magnitude is out of their range. -/
theorem least_integer_text_reads_back :
    (Value.int (-2147483648)).text = "-2147483648" ∧
      number .w32 "-2147483648" = .ok (.int (-2147483648)) ∧
      (Value.int (-2147483648)).text ≠ (Value.int 2147483648).text := by
  obtain ⟨-, -, hread, hdiffer⟩ := integer_text_reads_back
  exact ⟨by decide, hread (-2147483648) (by decide) (by decide), hdiffer _ _ (by decide)⟩

-- The magnitude of the least integer is no integer, and its literal is read all the same.
example : number .w64 "-9223372036854775808" = .ok (.int Int64.minValue) := by
  rfl

end Literal

end ScriptCore
