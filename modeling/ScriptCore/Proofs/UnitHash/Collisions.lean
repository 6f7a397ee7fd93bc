import Mathlib.Logic.ExistsUnique
import Mathlib.Tactic.ByContra
import ScriptCore.UnitHash

/-!
# Hashes of near-identical names

A byte is absorbed without loss: the multiplier has an inverse modulo `2 ^ 64`, so from the
new hash and the old one the byte can be told, and from the new hash and the byte the old
one. Hashes that differ therefore differ after any bytes that follow, and one byte that is
not the same makes two hashes differ for good.
-/

namespace ScriptCore.UnitHash

/-- The multiplier's inverse modulo `2 ^ 64`. -/
def inverse : UInt64 := 0xce965057aff6957b

variable {g h : UInt64} {x y : UInt8} {a b s : List UInt8}

theorem absorb_mul_inverse : absorb h x * inverse = h ^^^ x.toUInt64 := by
  have hinverse : multiplier * inverse = 1 := by
    decide
  rw [absorb, UInt64.mul_assoc, hinverse, UInt64.mul_one]

theorem absorb_left_inj : absorb g x = absorb h x ↔ g = h := by
  constructor
  · intro heq
    have hmixed : g ^^^ x.toUInt64 = h ^^^ x.toUInt64 := by
      rw [← absorb_mul_inverse, heq, absorb_mul_inverse]
    exact (UInt64.xor_left_inj _).mp hmixed
  · rintro rfl
    rfl

theorem absorb_right_inj : absorb h x = absorb h y ↔ x = y := by
  constructor
  · intro heq
    have hmixed : h ^^^ x.toUInt64 = h ^^^ y.toUInt64 := by
      rw [← absorb_mul_inverse, heq, absorb_mul_inverse]
    exact UInt8.toUInt64_inj.mp ((UInt64.xor_right_inj _).mp hmixed)
  · rintro rfl
    rfl

/-- Bytes that follow keep hashes apart that are apart. -/
theorem foldl_absorb_inj (s : List UInt8) : s.foldl absorb g = s.foldl absorb h ↔ g = h := by
  induction s generalizing g h with
  | nil => rfl
  | cons x s ih => rw [List.foldl_cons, List.foldl_cons, ih, absorb_left_inj]

theorem ofBytes_eq_iff : ofBytes a = ofBytes b ↔ a.foldl absorb seed = b.foldl absorb seed := by
  rw [ofBytes, ofBytes, mk.injEq]

theorem ofBytes_append_inj : ofBytes (a ++ s) = ofBytes (b ++ s) ↔ ofBytes a = ofBytes b := by
  rw [ofBytes_eq_iff, ofBytes_eq_iff, List.foldl_append, List.foldl_append, foldl_absorb_inj]

/-- Byte strings of one length that differ at exactly one position. -/
def DifferOnce (a b : List UInt8) : Prop :=
  a.length = b.length ∧ ∃! i : Nat, a[i]? ≠ b[i]?

/-- Before and behind the one position the byte strings are the same. -/
theorem DifferOnce.split (hab : DifferOnce a b) :
    ∃ start x y rest, x ≠ y ∧ a = start ++ x :: rest ∧ b = start ++ y :: rest := by
  obtain ⟨hlen, i, hi, honly⟩ := hab
  have hsame : ∀ j, j ≠ i → a[j]? = b[j]? := by
    intro j hj
    by_contra hdiffer
    exact hj (honly j hdiffer)
  have hia : i < a.length := by
    by_contra hge
    exact hi (by rw [List.getElem?_eq_none (by omega), List.getElem?_eq_none (by omega)])
  have hib : i < b.length := hlen ▸ hia
  have hstart : a.take i = b.take i := by
    apply List.ext_getElem?
    intro j
    rw [List.getElem?_take, List.getElem?_take]
    by_cases hj : j < i
    · rw [if_pos hj, if_pos hj, hsame j (by omega)]
    · rw [if_neg hj, if_neg hj]
  have hrest : a.drop (i + 1) = b.drop (i + 1) := by
    apply List.ext_getElem?
    intro j
    rw [List.getElem?_drop, List.getElem?_drop, hsame _ (by omega)]
  refine ⟨a.take i, a[i], b[i], a.drop (i + 1), ?_, ?_, ?_⟩
  · intro heq
    exact hi (by rw [List.getElem?_eq_getElem hia, List.getElem?_eq_getElem hib, heq])
  · rw [List.getElem_cons_drop, List.take_append_drop]
  · rw [hstart, hrest, List.getElem_cons_drop, List.take_append_drop]

theorem DifferOnce.ofBytes_ne (hab : DifferOnce a b) : ofBytes a ≠ ofBytes b := by
  obtain ⟨start, x, y, rest, hxy, rfl, rfl⟩ := hab.split
  intro heq
  rw [ofBytes_eq_iff, List.foldl_append, List.foldl_append, List.foldl_cons, List.foldl_cons,
    foldl_absorb_inj, absorb_right_inj] at heq
  exact hxy heq

/-- Names whose encodings differ in exactly one byte have different hashes. Whatever two byte
strings are followed by, their hashes are the same exactly when they were before. -/
theorem near_identical_names_hash_apart :
    (∀ s t : String, DifferOnce s.toUTF8.toList t.toUTF8.toList → ofName s ≠ ofName t) ∧
    (∀ a b suffix : List UInt8,
      ofBytes (a ++ suffix) = ofBytes (b ++ suffix) ↔ ofBytes a = ofBytes b) :=
  ⟨fun _ _ hdiffer => hdiffer.ofBytes_ne, fun _ _ _ => ofBytes_append_inj⟩

/-- Two characters of two bytes each, of which the second bytes differ. -/
theorem accents_hash_apart :
    DifferOnce "é".toUTF8.toList "ê".toUTF8.toList ∧ ofName "é" ≠ ofName "ê" := by
  have hfirst : "é".toUTF8.toList = [0xc3, 0xa9] := by
    decide +kernel
  have hsecond : "ê".toUTF8.toList = [0xc3, 0xaa] := by
    decide +kernel
  have hdiffer : DifferOnce "é".toUTF8.toList "ê".toUTF8.toList := by
    rw [hfirst, hsecond]
    refine ⟨rfl, 1, by decide, ?_⟩
    intro i hi
    match i with
    | 0 => exact absurd rfl hi
    | 1 => rfl
    | i + 2 => exact absurd rfl hi
  exact ⟨hdiffer, near_identical_names_hash_apart.1 _ _ hdiffer⟩

end ScriptCore.UnitHash
