import Mathlib.Tactic.Linarith
import ScriptCore.Host

/-!
# Elements of buffers

Storing an integer keeps its low bits. What is read back is the one integer of the element
type that is congruent to it. A read and a write of an element succeed exactly when the
buffer is live and the position is one of its own.
-/

namespace ScriptCore

namespace Element

/-- The integers of an element type. -/
def Contains (e : Element) (z : Int) : Prop :=
  if e.signed then -2 ^ (e.bits - 1) ≤ z ∧ z < 2 ^ (e.bits - 1) else 0 ≤ z ∧ z < 2 ^ e.bits

/-- The integer of the element type that is congruent to `n`. -/
def Reduces (e : Element) (n x : Int64) : Prop :=
  e.Contains x.toInt ∧ x.toInt % 2 ^ e.bits = n.toInt % 2 ^ e.bits

instance (e : Element) (z : Int) : Decidable (e.Contains z) :=
  inferInstanceAs (Decidable (if e.signed then -2 ^ (e.bits - 1) ≤ z ∧ z < 2 ^ (e.bits - 1)
    else 0 ≤ z ∧ z < 2 ^ e.bits))

instance (e : Element) (n x : Int64) : Decidable (e.Reduces n x) :=
  inferInstanceAs (Decidable (_ ∧ _))

theorem bits_le (e : Element) : e.bits ≤ 64 := by
  cases e <;> decide

theorem toInt_widen_of_signed {e : Element} (he : e.signed = true) (b : BitVec e.bits) :
    (e.widen b).toInt = b.toInt := by
  rw [widen, if_pos he, Int64.toInt_ofBitVec, BitVec.toInt_signExtend_of_le e.bits_le]

theorem toInt_widen_of_unsigned {e : Element} (he : e.signed = false) (b : BitVec e.bits) :
    (e.widen b).toInt = b.toNat := by
  have hbits : 2 ^ e.bits ≤ 2 ^ 32 := by
    cases e with
    | u8 => decide
    | u16 => decide
    | u32 => decide
    | _ => contradiction
  have hlt := b.isLt
  rw [widen, if_neg (by simp [he]), Int64.toInt_ofBitVec, BitVec.toInt_setWidth]
  apply Int.bmod_eq_of_le <;> omega

theorem contains_widen (e : Element) (b : BitVec e.bits) : e.Contains (e.widen b).toInt := by
  rw [Contains]
  split
  · rename_i he
    rw [toInt_widen_of_signed he]
    exact ⟨BitVec.le_toInt b, BitVec.toInt_lt⟩
  · rename_i he
    rw [toInt_widen_of_unsigned (Bool.not_eq_true _ ▸ he)]
    exact ⟨Int.natCast_nonneg _, by exact_mod_cast b.isLt⟩

theorem widen_narrow_emod (e : Element) (n : Int64) :
    (e.widen (e.narrow n)).toInt % 2 ^ e.bits = n.toInt % 2 ^ e.bits := by
  have hdvd : ((2 ^ e.bits : Nat) : Int) ∣ (2 ^ 64 : Nat) :=
    Int.natCast_dvd_natCast.mpr (Nat.pow_dvd_pow 2 e.bits_le)
  have hlow : n.toInt % (2 ^ e.bits : Nat) = (n.toBitVec.toNat : Int) % (2 ^ e.bits : Nat) := by
    rw [← Int64.toInt_toBitVec, BitVec.toInt_eq_toNat_bmod, ← Int.emod_emod_of_dvd _ hdvd,
      Int.bmod_emod, Int.emod_emod_of_dvd _ hdvd]
  push_cast at hlow
  rw [hlow, narrow]
  cases he : e.signed with
  | true =>
      rw [toInt_widen_of_signed he, BitVec.toInt_setWidth]
      exact_mod_cast Int.bmod_emod
  | false =>
      rw [toInt_widen_of_unsigned he, BitVec.toNat_setWidth]
      exact_mod_cast Nat.mod_mod _ _

theorem reduces_widen_narrow (e : Element) (n : Int64) : e.Reduces n (e.widen (e.narrow n)) :=
  ⟨e.contains_widen (e.narrow n), e.widen_narrow_emod n⟩

/-- An element type has only one integer that is congruent to `n`. -/
theorem Reduces.unique {e : Element} {n x y : Int64} (hx : e.Reduces n x) (hy : e.Reduces n y) :
    x = y := by
  obtain ⟨hx, hxmod⟩ := hx
  obtain ⟨hy, hymod⟩ := hy
  have hmod := hxmod.trans hymod.symm
  apply Int64.toInt.inj
  cases e <;> simp only [Contains, signed, bits, if_true, if_false, Bool.false_eq_true] at * <;>
    omega

end Element

theorem Buffer.contains_of_get? {b : Buffer} {i : Nat} {x : Int64} (hx : b.get? i = some x) :
    b.elem.Contains x.toInt := by
  obtain ⟨cell, -, rfl⟩ := Option.map_eq_some_iff.mp hx
  exact b.elem.contains_widen cell

namespace Host

variable {h h' : Host} {r : BufferRef} {n : Int64}

/-- A reference finds live storage of its own element type. -/
theorem buffer?_eq_some_iff {b : Buffer} :
    h.buffer? r = some b ↔
      ∃ s, h.buffers[r.index]? = some s ∧ 0 < s.owners ∧ s.content = b ∧ b.elem = r.elem := by
  rw [buffer?]
  cases h.buffers[r.index]? with
  | none => simp
  | some s =>
      dsimp only
      constructor
      · intro hb
        split at hb
        · rename_i hlive
          obtain rfl := Option.some.inj hb
          exact ⟨s, rfl, hlive.1, rfl, hlive.2⟩
        · contradiction
      · rintro ⟨_, hs, howners, rfl, helem⟩
        obtain rfl := Option.some.inj hs
        exact if_pos ⟨howners, helem⟩

theorem position?_eq_some_iff {i : Nat} : position? n = some i ↔ n.toInt = i := by
  rw [position?]
  split
  · rw [Option.some.injEq]
    omega
  · simp only [reduceCtorEq, false_iff]
    omega

/-- Reading succeeds on a live buffer, at a position of its own. -/
theorem readElement_eq_ok_iff {v : Value} :
    h.readElement r n = .ok v ↔
      ∃ b i x, h.buffer? r = some b ∧ n.toInt = (i : Nat) ∧ b.get? i = some x ∧ v = .int x := by
  rw [readElement]
  constructor
  · intro hread
    split at hread
    · contradiction
    · rename_i b hb
      split at hread
      · rename_i x hx
        obtain ⟨i, hi, hget⟩ := Option.bind_eq_some_iff.mp hx
        exact ⟨b, i, x, hb, position?_eq_some_iff.mp hi, hget, (Except.ok.inj hread).symm⟩
      · contradiction
  · rintro ⟨b, i, x, hb, hi, hget, rfl⟩
    simp only [hb, position?_eq_some_iff.mpr hi, Option.bind_some, hget]

/-- Writing succeeds on a live buffer, at a position of its own. -/
theorem writeElement_eq_ok_iff {v : Int64} :
    h.writeElement r n v = .ok h' ↔
      ∃ b i, h.buffer? r = some b ∧ n.toInt = (i : Nat) ∧ i < b.length ∧
        h' = h.setBuffer r (b.set i v) := by
  rw [writeElement]
  constructor
  · intro hwrite
    split at hwrite
    · contradiction
    · rename_i b hb
      split at hwrite
      · rename_i i hi
        split at hwrite
        · rename_i hlt
          exact ⟨b, i, hb, position?_eq_some_iff.mp hi, hlt, (Except.ok.inj hwrite).symm⟩
        · contradiction
      · contradiction
  · rintro ⟨b, i, hb, hi, hlt, rfl⟩
    simp only [hb, position?_eq_some_iff.mpr hi, if_pos hlt]

end Host

end ScriptCore
