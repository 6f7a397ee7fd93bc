import Mathlib.Data.List.Forall2
import Mathlib.Data.Nat.Digits.Defs
import Mathlib.Tactic.Ring
import Mathlib.Tactic.SplitIfs
import ScriptCore.Literal
import ScriptCore.Proofs.Arithmetic.Words

/-!
# The grammar of integer literals

An integer literal is an optional minus sign, the mark of a base and one or more digits of
that base. Exactly these texts are read, unless the magnitude takes more than 64 bits, and
what is read depends on sign and magnitude only: it is the integer of the working width
that is congruent to them. Such a text is never taken for a float, although `e` is also a
digit of base sixteen.
-/

namespace ScriptCore

namespace Numeral

/-- The character of a digit, letters in either case. -/
def IsDigit (base d : Nat) (c : Char) : Prop :=
  d < base ∧ (c = d.digitChar ∨ c = d.digitChar.toUpper)

instance (base d : Nat) (c : Char) : Decidable (IsDigit base d c) :=
  inferInstanceAs (Decidable (_ ∧ _))

/-- One or more digits of a base, the highest first, that make the number `n`. -/
def Spells (base n : Nat) (cs : List Char) : Prop :=
  cs ≠ [] ∧ ∃ ds, List.Forall₂ (IsDigit base) ds cs ∧ Nat.ofDigits base ds.reverse = n

theorem IsDigit.mono {base base' d : Nat} {c : Char} (h : IsDigit base d c)
    (hbase : base ≤ base') : IsDigit base' d c :=
  ⟨h.1.trans_le hbase, h.2⟩

theorem digit?_of_isDigit {c : Char} {d : Nat} (h : IsDigit 16 d c) : digit? c = some d := by
  have hall : ∀ d < 16, digit? d.digitChar = some d ∧ digit? d.digitChar.toUpper = some d := by
    decide
  obtain ⟨hd, rfl | rfl⟩ := h
  · exact (hall d hd).1
  · exact (hall d hd).2

theorem toNat_lt_of_digit? {c : Char} {d : Nat} (h : digit? c = some d) : c.toNat < 103 := by
  rw [digit?] at h
  split_ifs at h with hdecimal hlower hupper
  · have : c.toNat ≤ 57 := hdecimal.2
    omega
  · have : c.toNat ≤ 102 := hlower.2
    omega
  · have : c.toNat ≤ 70 := hupper.2
    omega

theorem digit?_eq_some_iff {c : Char} {d : Nat} : digit? c = some d ↔ IsDigit 16 d c := by
  constructor
  · intro h
    -- All characters that can be digits lie below a bound, so they can be gone through.
    have hall : ∀ n < 103, ∀ d ∈ digit? (Char.ofNat n), IsDigit 16 d (Char.ofNat n) := by
      decide +kernel
    have hdigit := hall c.toNat (toNat_lt_of_digit? h)
    rw [Char.ofNat_toNat] at hdigit
    exact hdigit d h
  · exact digit?_of_isDigit

theorem extend?_cons_eq_some_iff {base n m : Nat} {c : Char} {cs : List Char}
    (hbase : base ≤ 16) :
    extend? base n (c :: cs) = some m ↔
      ∃ d, IsDigit base d c ∧ extend? base (base * n + d) cs = some m := by
  constructor
  · intro h
    rw [extend?] at h
    split at h
    · rename_i d hdigit
      split at h
      · rename_i hd
        exact ⟨d, ⟨hd, (digit?_eq_some_iff.mp hdigit).2⟩, h⟩
      · contradiction
    · contradiction
  · rintro ⟨d, hd, h⟩
    have hdigit : digit? c = some d := digit?_of_isDigit (hd.mono hbase)
    simp only [extend?, hdigit, hd.1, if_true]
    exact h

/-- Reading on from `n` puts the digits behind those of `n`. -/
theorem extend?_eq_some_iff {base n m : Nat} {cs : List Char} (hbase : base ≤ 16) :
    extend? base n cs = some m ↔
      ∃ ds, List.Forall₂ (IsDigit base) ds cs ∧
        n * base ^ ds.length + Nat.ofDigits base ds.reverse = m := by
  induction cs generalizing n with
  | nil => simp [extend?, List.forall₂_nil_right_iff]
  | cons c cs ih =>
      have hvalue : ∀ d ds, (base * n + d) * base ^ ds.length + Nat.ofDigits base ds.reverse =
          n * base ^ (d :: ds).length + Nat.ofDigits base (d :: ds).reverse := by
        intro d ds
        rw [List.reverse_cons, Nat.ofDigits_append, Nat.ofDigits_singleton, List.length_reverse,
          List.length_cons]
        ring
      rw [extend?_cons_eq_some_iff hbase]
      constructor
      · rintro ⟨d, hd, h⟩
        obtain ⟨ds, hds, rfl⟩ := ih.mp h
        exact ⟨d :: ds, .cons hd hds, (hvalue d ds).symm⟩
      · rintro ⟨_, hds, rfl⟩
        cases hds with
        | @cons d _ ds _ hd hds =>
            refine ⟨d, hd, ih.mpr ⟨ds, hds, ?_⟩⟩
            exact hvalue d ds

theorem read?_eq_some_iff {base m : Nat} {cs : List Char} (hbase : base ≤ 16) :
    read? base cs = some m ↔ Spells base m cs := by
  cases cs with
  | nil => simp [read?, Spells]
  | cons c cs => simp [read?, Spells, extend?_eq_some_iff hbase]

theorem le_of_extend? {base n m : Nat} {cs : List Char} (hbase : 0 < base)
    (h : extend? base n cs = some m) : n ≤ m := by
  fun_induction extend? base n cs with
  | case1 n => exact (Option.some.inj h).le
  | case2 n c cs d hdigit hd ih =>
      calc
        n ≤ base * n := Nat.le_mul_of_pos_left n hbase
        _ ≤ base * n + d := Nat.le_add_right _ _
        _ ≤ m := ih h
  | case3 => contradiction
  | case4 => contradiction

/-- Numbers only grow while they are read, so they fit all the while if they do in the end. -/
theorem extendWide?_eq_some_iff {base n m : Nat} {cs : List Char} (hbase : 0 < base)
    (hn : n < wideSize) :
    extendWide? base n cs = some m ↔ extend? base n cs = some m ∧ m < wideSize := by
  induction cs generalizing n with
  | nil =>
      constructor
      · intro h
        exact ⟨h, Option.some.inj h ▸ hn⟩
      · exact And.left
  | cons c cs ih =>
      rw [extendWide?, extend?]
      cases digit? c with
      | none => simp
      | some d =>
          by_cases hd : d < base
          · simp only [hd, true_and, if_true]
            by_cases hfits : base * n + d < wideSize
            · rw [if_pos hfits]
              exact ih hfits
            · rw [if_neg hfits]
              constructor
              · intro h
                contradiction
              · rintro ⟨h, hm⟩
                exact absurd (lt_of_le_of_lt (le_of_extend? hbase h) hm) hfits
          · simp [hd]

theorem isHexDigit_iff {c : Char} : isHexDigit c = true ↔ ∃ d, digit? c = some d := by
  simp only [isHexDigit, Bool.or_eq_true, Bool.and_eq_true, decide_eq_true_eq, digit?]
  split_ifs <;> simp_all

/-- Behind the filter for hexadecimal digits a plus sign is no part of a number. -/
theorem readWide?_of_isHexDigit {base : Nat} {cs : List Char} (hne : cs ≠ [])
    (hcs : ∀ c ∈ cs, isHexDigit c = true) :
    readWide? base cs = (extendWide? base 0 cs).map (BitVec.ofNat 128) := by
  fun_cases readWide? base cs with
  | case1 => contradiction
  | case2 c cs => exact absurd (hcs '+' List.mem_cons_self) (by decide)
  | case3 => rfl

/-- Every character of a numeral is a digit. -/
theorem Spells.exists_isDigit {base n : Nat} {cs : List Char} (h : Spells base n cs) {c : Char}
    (hc : c ∈ cs) : ∃ d, IsDigit base d c := by
  obtain ⟨-, ds, hds, -⟩ := h
  induction hds with
  | nil => contradiction
  | @cons d _ _ _ hfirst _ ih =>
      obtain rfl | hc := List.mem_cons.mp hc
      · exact ⟨d, hfirst⟩
      · exact ih hc

/-- Up to base ten every character of a numeral is a decimal digit. -/
theorem Spells.isDigit {base n : Nat} {cs : List Char} (h : Spells base n cs)
    (hbase : base ≤ 10) {c : Char} (hc : c ∈ cs) : c.isDigit = true := by
  have hall : ∀ d < 10, d.digitChar.isDigit ∧ d.digitChar.toUpper.isDigit := by
    decide
  obtain ⟨d, hdigit⟩ := h.exists_isDigit hc
  obtain ⟨hd, rfl | rfl⟩ := hdigit.mono hbase
  · exact (hall d hd).1
  · exact (hall d hd).2

end Numeral

namespace Literal

/-- The bases of integer literals. -/
inductive Base where
  | binary
  | decimal
  | hexadecimal

namespace Base

def radix : Base → Nat
  | .binary => 2
  | .decimal => 10
  | .hexadecimal => 16

/-- What may stand before the digits. -/
def marks : Base → List (List Char)
  | .binary => [['0', 'b'], ['0', 'B']]
  | .decimal => [[]]
  | .hexadecimal => [['0', 'x'], ['0', 'X']]

theorem radix_le (base : Base) : base.radix ≤ 16 := by
  cases base <;> decide

theorem minus_notMem_mark {base : Base} : ∀ mark ∈ base.marks, '-' ∉ mark := by
  cases base <;> decide

end Base

/-- A literal of the base with the given sign and magnitude. -/
def Writes (base : Base) (negative : Bool) (m : Nat) (cs : List Char) : Prop :=
  ∃ mark ∈ base.marks, ∃ digits, Numeral.Spells base.radix m digits ∧
    cs = (if negative then ['-'] else []) ++ mark ++ digits

/-- The integer of a sign and a magnitude. -/
def signed (negative : Bool) (m : Nat) : Int :=
  if negative then -m else m

theorem eq_append_of_splitMinus (cs : List Char) :
    cs = (if (splitMinus cs).1 then ['-'] else []) ++ (splitMinus cs).2 := by
  fun_cases splitMinus cs <;> rfl

/-- What stands before the digits is the mark of the base that was found. -/
theorem exists_base_of_splitBase (cs : List Char) :
    ∃ base : Base, (splitBase cs).1 = base.radix ∧
      ∃ mark ∈ base.marks, cs = mark ++ (splitBase cs).2 := by
  fun_cases splitBase cs with
  | case1 rest => exact ⟨.hexadecimal, rfl, ['0', 'x'], by decide, rfl⟩
  | case2 rest => exact ⟨.hexadecimal, rfl, ['0', 'X'], by decide, rfl⟩
  | case3 rest => exact ⟨.binary, rfl, ['0', 'b'], by decide, rfl⟩
  | case4 rest => exact ⟨.binary, rfl, ['0', 'B'], by decide, rfl⟩
  | case5 => exact ⟨.decimal, rfl, [], by decide, rfl⟩

/-- No mark can be read off decimal digits. -/
theorem splitBase_of_isDigit {cs : List Char} (h : ∀ c ∈ cs, c.isDigit = true) :
    splitBase cs = (10, cs) := by
  fun_cases splitBase cs with
  | case1 rest => exact absurd (h 'x' (by simp)) (by decide)
  | case2 rest => exact absurd (h 'X' (by simp)) (by decide)
  | case3 rest => exact absurd (h 'b' (by simp)) (by decide)
  | case4 rest => exact absurd (h 'B' (by simp)) (by decide)
  | case5 => rfl

variable {base : Base} {negative : Bool} {m : Nat} {cs : List Char}

theorem splitBase_append {mark digits : List Char} (hmark : mark ∈ base.marks)
    (hdigits : Numeral.Spells base.radix m digits) :
    splitBase (mark ++ digits) = (base.radix, digits) := by
  cases base with
  | binary =>
      obtain rfl | rfl : mark = ['0', 'b'] ∨ mark = ['0', 'B'] := by
        simpa [Base.marks] using hmark
      · rfl
      · rfl
  | decimal =>
      obtain rfl : mark = [] := by
        simpa [Base.marks] using hmark
      exact splitBase_of_isDigit fun c hc => hdigits.isDigit (le_refl 10) hc
  | hexadecimal =>
      obtain rfl | rfl : mark = ['0', 'x'] ∨ mark = ['0', 'X'] := by
        simpa [Base.marks] using hmark
      · rfl
      · rfl

theorem splitMinus_append {body : List Char} (hbody : '-' ∉ body) :
    splitMinus ((if negative then ['-'] else []) ++ body) = (negative, body) := by
  cases negative with
  | true => rfl
  | false =>
      change splitMinus body = (false, body)
      fun_cases splitMinus body with
      | case1 rest => exact absurd List.mem_cons_self hbody
      | case2 => rfl

/-- Neither marks nor digits hold a minus sign. -/
theorem minus_notMem {mark digits : List Char} (hmark : mark ∈ base.marks)
    (hdigits : Numeral.Spells base.radix m digits) : '-' ∉ mark ++ digits := by
  intro hmem
  obtain hmem | hmem := List.mem_append.mp hmem
  · exact Base.minus_notMem_mark mark hmark hmem
  · obtain ⟨d, hd⟩ := hdigits.exists_isDigit hmem
    have hdigit := Numeral.digit?_of_isDigit (hd.mono base.radix_le)
    contradiction

/-- A literal is split into the parts that it was written from. -/
theorem Writes.split (h : Writes base negative m cs) :
    ∃ body digits, splitMinus cs = (negative, body) ∧ splitBase body = (base.radix, digits) ∧
      Numeral.Spells base.radix m digits := by
  obtain ⟨mark, hmark, digits, hdigits, rfl⟩ := h
  refine ⟨mark ++ digits, digits, ?_, splitBase_append hmark hdigits, hdigits⟩
  rw [List.append_assoc, splitMinus_append (minus_notMem hmark hdigits)]

/-- Sign and magnitude of an integer literal. -/
def readInt? (cs : List Char) : Option (Bool × Nat) :=
  let (negative, body) := splitMinus cs
  let (base, digits) := splitBase body
  match Numeral.read? base digits with
  | some m => if m < UInt64.size then some (negative, m) else none
  | none => none

/-- What is read at a width, given sign and magnitude. -/
def reading (w : Width) : Option (Bool × Nat) → Except ScriptError Int64
  | some (negative, m) => .ok (w.ofInt (signed negative m))
  | none => .error .invalidLiteral

/-- Negating the magnitude in 128 bits leaves its low bits those of the negative integer. -/
theorem wrapBits_eq_ofInt (w : Width) (negative : Bool) (m : Nat) :
    w.wrapBits (if negative then -BitVec.ofNat 128 m else BitVec.ofNat 128 m) =
      w.ofInt (signed negative m) := by
  have hbits : (if negative then -BitVec.ofNat 128 m else BitVec.ofNat 128 m) =
      BitVec.ofInt 128 (signed negative m) := by
    cases negative with
    | false => exact (BitVec.ofInt_natCast 128 m).symm
    | true =>
        rw [if_pos rfl, signed, if_pos rfl, BitVec.ofInt_neg, BitVec.ofInt_natCast]
  apply Int64.toInt.inj
  rw [hbits, Width.ofInt]
  generalize signed negative m = z
  cases w with
  | w32 =>
      have hlow : (BitVec.ofInt 128 z).setWidth 32 = BitVec.ofInt 32 z := by
        apply BitVec.eq_of_toNat_eq
        rw [BitVec.toNat_setWidth, BitVec.toNat_ofInt, BitVec.toNat_ofInt]
        omega
      rw [Width.wrapBits, Width.wrap, hlow, Int32.toInt_toInt64, Int32.toInt_toInt64,
        Int32.toInt_ofBitVec, BitVec.toInt_ofInt, Int64.toInt_toInt32, Int64.toInt_ofInt,
        Int.bmod_bmod_of_dvd (by decide)]
  | w64 =>
      have hlow : (BitVec.ofInt 128 z).setWidth 64 = BitVec.ofInt 64 z := by
        apply BitVec.eq_of_toNat_eq
        rw [BitVec.toNat_setWidth, BitVec.toNat_ofInt, BitVec.toNat_ofInt]
        omega
      rw [Width.wrapBits, Width.wrap_w64, hlow, Int64.toInt_ofBitVec, BitVec.toInt_ofInt,
        Int64.toInt_ofInt]

/-- What the filter for hexadecimal digits holds back is no numeral. -/
theorem read?_eq_none {base : Nat} {digits : List Char} (hbase : base ≤ 16)
    (h : (digits.isEmpty || !digits.all Numeral.isHexDigit) = true) :
    Numeral.read? base digits = none := by
  rw [Option.eq_none_iff_forall_ne_some]
  intro m hread
  have hspells := (Numeral.read?_eq_some_iff hbase).mp hread
  have hall : digits.all Numeral.isHexDigit = true := by
    rw [List.all_eq_true]
    intro c hc
    obtain ⟨d, hd⟩ := hspells.exists_isDigit hc
    exact Numeral.isHexDigit_iff.mpr ⟨d, Numeral.digit?_of_isDigit (hd.mono hbase)⟩
  rw [hall, Bool.not_true, Bool.or_false, List.isEmpty_iff] at h
  exact hspells.1 h

theorem int_of_split {w : Width} {text : String} {negative : Bool} {base : Nat}
    {body digits : List Char} (hminus : splitMinus text.toList = (negative, body))
    (hbase : splitBase body = (base, digits)) (hpos : 0 < base) (hle : base ≤ 16) :
    int w text = reading w (readInt? text.toList) := by
  simp only [int, readInt?, hminus, hbase]
  by_cases hfilter : (digits.isEmpty || !digits.all Numeral.isHexDigit) = true
  · rw [if_pos hfilter, read?_eq_none hle hfilter]
    rfl
  · rw [if_neg hfilter]
    simp only [Bool.or_eq_true, List.isEmpty_iff, Bool.not_eq_true', List.all_eq_false, not_or,
      not_exists, not_and, Bool.not_eq_true, Bool.not_eq_false] at hfilter
    obtain ⟨hne, hhex⟩ := hfilter
    have hread : Numeral.read? base digits = Numeral.extend? base 0 digits := by
      cases digits with
      | nil => contradiction
      | cons c cs => rfl
    rw [Numeral.readWide?_of_isHexDigit hne hhex, hread]
    have hwide (m : Nat) : Numeral.extendWide? base 0 digits = some m ↔
        Numeral.extend? base 0 digits = some m ∧ m < Numeral.wideSize :=
      Numeral.extendWide?_eq_some_iff hpos (by decide)
    cases hextend : Numeral.extendWide? base 0 digits with
    | some m =>
        obtain ⟨hnarrow, hlt⟩ := (hwide m).mp hextend
        have htoNat : (BitVec.ofNat 128 m).toNat = m := Nat.mod_eq_of_lt hlt
        simp only [Option.map_some, htoNat, hnarrow]
        by_cases hsize : m < UInt64.size
        · rw [if_neg (Nat.not_le.mpr hsize), if_pos hsize, wrapBits_eq_ofInt]
          rfl
        · rw [if_pos (Nat.not_lt.mp hsize), if_neg hsize]
          rfl
    | none =>
        -- A number that takes more than 128 bits takes more than 64.
        cases hnarrow : Numeral.extend? base 0 digits with
        | none => rfl
        | some m =>
            have hsize : ¬ m < UInt64.size := by
              intro hlt
              have hsome := (hwide m).mpr ⟨hnarrow, lt_trans hlt (by decide)⟩
              rw [hextend] at hsome
              contradiction
            simp only [Option.map_none, hsize, if_false]
            rfl

/-- The steps of reading an integer come to its sign and magnitude. -/
theorem int_eq_reading (w : Width) (text : String) :
    int w text = reading w (readInt? text.toList) := by
  obtain ⟨base, hradix, -⟩ := exists_base_of_splitBase (splitMinus text.toList).2
  have hpos : 0 < base.radix := by cases base <;> decide
  exact int_of_split rfl rfl (hradix ▸ hpos) (hradix ▸ base.radix_le)

theorem readInt?_of_writes (h : Writes base negative m cs) :
    readInt? cs = if m < UInt64.size then some (negative, m) else none := by
  obtain ⟨body, digits, hminus, hbase, hdigits⟩ := h.split
  have hread := (Numeral.read?_eq_some_iff base.radix_le).mpr hdigits
  simp only [readInt?, hminus, hbase, hread]

theorem exists_writes_of_readInt? (h : readInt? cs = some (negative, m)) :
    (∃ base, Writes base negative m cs) ∧ m < UInt64.size := by
  obtain ⟨base, hradix, mark, hmark, hbody⟩ := exists_base_of_splitBase (splitMinus cs).2
  simp only [readInt?, hradix] at h
  split at h
  · rename_i k hread
    split at h
    · rename_i hlt
      obtain ⟨rfl, rfl⟩ := Prod.mk.inj (Option.some.inj h)
      have hdigits := (Numeral.read?_eq_some_iff base.radix_le).mp hread
      refine ⟨⟨base, mark, hmark, _, hdigits, ?_⟩, hlt⟩
      rw [List.append_assoc, ← hbody]
      exact eq_append_of_splitMinus cs
    · contradiction
  · contradiction

/-- Below base sixteen a literal holds neither a point nor an exponent mark. -/
theorem Writes.ne_of_mem (h : Writes base negative m cs) (hbase : base.radix ≤ 10) {c : Char}
    (hc : c ∈ cs) : c ≠ '.' ∧ c ≠ 'e' ∧ c ≠ 'E' := by
  obtain ⟨mark, hmark, digits, hdigits, rfl⟩ := h
  rcases List.mem_append.mp hc with hc | hc
  · rcases List.mem_append.mp hc with hc | hc
    · have hsign : ∀ c ∈ if negative then ['-'] else [], c ≠ '.' ∧ c ≠ 'e' ∧ c ≠ 'E' := by
        cases negative <;> simp
      exact hsign c hc
    · have hmarks : ∀ mark ∈ base.marks, ∀ c ∈ mark, c ≠ '.' ∧ c ≠ 'e' ∧ c ≠ 'E' := by
        cases base <;> simp [Base.marks]
      exact hmarks mark hmark c hc
  · have hdigit := hdigits.isDigit hbase hc
    refine ⟨?_, ?_, ?_⟩ <;> rintro rfl <;> contradiction

theorem isFloat_of_writes (h : Writes base negative m cs) : isFloat cs = false := by
  rw [isFloat, Bool.and_eq_false_iff]
  by_cases hbase : base.radix ≤ 10
  · right
    rw [List.any_eq_false]
    intro c hc
    obtain ⟨hpoint, hlower, hupper⟩ := h.ne_of_mem hbase hc
    simp [hpoint, hlower, hupper]
  · left
    have hradix : base.radix = 16 := by
      cases base with
      | hexadecimal => rfl
      | _ => contradiction
    obtain ⟨body, digits, hminus, hbase, -⟩ := h.split
    rw [hminus, hbase, hradix]
    rfl

/-- Sign and magnitude decide what is read. -/
theorem int_of_writes {w : Width} {text : String} (h : Writes base negative m text.toList) :
    int w text =
      if m < UInt64.size then .ok (w.ofInt (signed negative m)) else .error .invalidLiteral := by
  rw [int_eq_reading, readInt?_of_writes h]
  by_cases hlt : m < UInt64.size
  · rw [if_pos hlt, if_pos hlt]
    rfl
  · rw [if_neg hlt, if_neg hlt]
    rfl

theorem exists_writes_of_int {w : Width} {text : String} {n : Int64} (h : int w text = .ok n) :
    ∃ base negative m, Writes base negative m text.toList ∧ m < UInt64.size := by
  cases hread : readInt? text.toList with
  | none =>
      rw [int_eq_reading, hread] at h
      contradiction
  | some p =>
      obtain ⟨⟨base, hwrites⟩, hlt⟩ := exists_writes_of_readInt? hread
      exact ⟨base, p.1, p.2, hwrites, hlt⟩

/-- Exactly the texts of the grammar whose magnitude fits in 64 bits are read as integers,
in every base by the same rule: as the one integer of the width that is congruent to the
magnitude, or to its negative after a minus sign. A literal that is read at 64 bits is read
at 32 bits as what that integer wraps to, and as a number it is the same integer. -/
theorem integer_literal_follows_grammar (w : Width) (text : String) :
    ((∃ n, int w text = .ok n) ↔
      ∃ base negative m, Writes base negative m text.toList ∧ m ≤ 2 ^ 64 - 1) ∧
    (∀ e, int w text = .error e → e = .invalidLiteral) ∧
    (∀ base negative m n, Writes base negative m text.toList → int w text = .ok n →
      ∀ k, w.Reduces (signed negative m) k ↔ k = n) ∧
    (∀ base base' negative m text', Writes base negative m text.toList →
      Writes base' negative m text'.toList → int w text = int w text') ∧
    int .w32 text = (int .w64 text).map Width.w32.wrap ∧
    (∀ n, int w text = .ok n → number w text = .ok (.int n)) := by
  have hsize : ∀ m, m < UInt64.size ↔ m ≤ 2 ^ 64 - 1 := by
    intro m
    simp only [UInt64.size]
    omega
  refine ⟨⟨?_, ?_⟩, ?_, ?_, ?_, ?_, ?_⟩
  · rintro ⟨n, hn⟩
    obtain ⟨base, negative, m, hwrites, hlt⟩ := exists_writes_of_int hn
    exact ⟨base, negative, m, hwrites, (hsize m).mp hlt⟩
  · rintro ⟨base, negative, m, hwrites, hle⟩
    exact ⟨_, by rw [int_of_writes hwrites, if_pos ((hsize m).mpr hle)]⟩
  · intro e he
    rw [int_eq_reading] at he
    cases hread : readInt? text.toList with
    | none =>
        rw [hread] at he
        exact (Except.error.inj he).symm
    | some p =>
        rw [hread] at he
        contradiction
  · intro base negative m n hwrites hn k
    rw [int_of_writes hwrites] at hn
    split at hn
    · obtain rfl := Except.ok.inj hn
      constructor
      · intro hk
        exact hk.unique (w.reduces_ofInt _)
      · rintro rfl
        exact w.reduces_ofInt _
    · contradiction
  · intro base base' negative m text' hwrites hwrites'
    rw [int_of_writes hwrites, int_of_writes hwrites']
  · rw [int_eq_reading, int_eq_reading]
    cases readInt? text.toList <;> rfl
  · intro n hn
    obtain ⟨base, negative, m, hwrites, -⟩ := exists_writes_of_int hn
    rw [number, isFloat_of_writes hwrites, hn]
    rfl

/-- Three of these digits would be exponent marks if the base were ten. -/
theorem negative_hexadecimal_literal_is_read :
    Writes .hexadecimal true 61182 "-0xEEfe".toList ∧
      int .w32 "-0xEEfe" = .ok (-61182) ∧ number .w32 "-0xEEfe" = .ok (.int (-61182)) := by
  have hdigits : List.Forall₂ (Numeral.IsDigit 16) [14, 14, 15, 14] ['E', 'E', 'f', 'e'] := by
    decide
  have hwrites : Writes .hexadecimal true 61182 "-0xEEfe".toList :=
    ⟨['0', 'x'], by decide, _, ⟨by decide, _, hdigits, rfl⟩, rfl⟩
  obtain ⟨hreads, -, hvalue, -, -, hnumber⟩ := integer_literal_follows_grammar .w32 "-0xEEfe"
  obtain ⟨n, hn⟩ := hreads.mpr ⟨_, _, _, hwrites, by decide⟩
  obtain rfl : -61182 = n := (hvalue _ _ _ n hwrites hn _).mp (by decide)
  exact ⟨hwrites, hn, hnumber _ hn⟩

end Literal

end ScriptCore
