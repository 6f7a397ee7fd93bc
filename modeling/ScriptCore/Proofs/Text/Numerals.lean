import ScriptCore.Proofs.Literal.Grammar

/-!
# Printed numbers

Numbers are printed in base ten, or in base sixteen with a fixed count of digits. Either way
the digits spell the number. A digit string spells one number only, so different numbers are
printed differently.
-/

namespace ScriptCore

namespace Numeral

variable {base m n d : Nat} {cs : List Char}

/-- A digit string has one value. -/
theorem Spells.unique (hbase : base ≤ 16) (hm : Spells base m cs) (hn : Spells base n cs) :
    m = n := by
  have hread := (read?_eq_some_iff hbase).mpr hm
  rw [(read?_eq_some_iff hbase).mpr hn] at hread
  exact (Option.some.inj hread).symm

theorem spells_digitChar (hd : d < base) : Spells base d [d.digitChar] :=
  ⟨List.cons_ne_nil _ _, [d], .cons ⟨hd, .inl rfl⟩ .nil, Nat.ofDigits_singleton⟩

/-- A digit behind a number multiplies it by the base. -/
theorem Spells.append_digitChar (h : Spells base n cs) (hd : d < base) :
    Spells base (base * n + d) (cs ++ [d.digitChar]) := by
  obtain ⟨hcs, ds, hds, rfl⟩ := h
  refine ⟨by simp, ds ++ [d], List.rel_append hds (.cons ⟨hd, .inl rfl⟩ .nil), ?_⟩
  rw [List.reverse_append, List.reverse_singleton, List.singleton_append, Nat.ofDigits_cons]
  exact Nat.add_comm _ _

theorem spells_toDigits (hbase : 1 < base) (n : Nat) : Spells base n (Nat.toDigits base n) := by
  induction n using Nat.strongRecOn with
  | ind n ih =>
      by_cases hn : n < base
      · rw [Nat.toDigits_of_lt_base hn]
        exact spells_digitChar hn
      · have hpos : 0 < base := by omega
        have hless : n / base < n := Nat.div_lt_self (by omega) hbase
        have hdigits := (ih (n / base) hless).append_digitChar (Nat.mod_lt n hpos)
        rw [Nat.toDigits_of_base_le hbase (Nat.le_of_not_lt hn)]
        rwa [Nat.div_add_mod] at hdigits

theorem spells_ofNat (n : Nat) : Spells 10 n (ofNat n).toList := by
  rw [ofNat, String.toList_ofList]
  exact spells_toDigits (by decide) n

theorem ofNat_injective (h : ofNat m = ofNat n) : m = n := by
  have hm := spells_ofNat m
  rw [h] at hm
  exact hm.unique (by decide) (spells_ofNat n)

end Numeral

namespace Hex

/-- The number without its last digit fits in one digit less. -/
theorem div_lt_pow {count n : Nat} (h : n < 16 ^ (count + 1)) : n / 16 < 16 ^ count := by
  rw [Nat.div_lt_iff_lt_mul (by decide)]
  exact h

/-- A number that fits in the digits is spelled by them. -/
theorem spells_digits {count n : Nat} (h : n < 16 ^ (count + 1)) :
    Numeral.Spells 16 n (digits (count + 1) n) := by
  induction count generalizing n with
  | zero =>
      have hn : n < 16 := h
      rw [digits, digits, Nat.mod_eq_of_lt hn]
      exact Numeral.spells_digitChar hn
  | succ count ih =>
      have hdigits := (ih (div_lt_pow h)).append_digitChar (Nat.mod_lt n (by decide))
      rwa [Nat.div_add_mod] at hdigits

/-- The digits are those of the number, behind as many zeros as there is room for. -/
theorem digits_eq_leftpad {count n : Nat} (h : n < 16 ^ (count + 1)) :
    digits (count + 1) n = (Nat.toDigits 16 n).leftpad (count + 1) '0' := by
  induction count generalizing n with
  | zero =>
      have hn : n < 16 := h
      rw [digits, digits, Nat.mod_eq_of_lt hn, Nat.toDigits_of_lt_base hn]
      rfl
  | succ count ih =>
      rw [digits, ih (div_lt_pow h)]
      by_cases hn : n < 16
      · rw [Nat.div_eq_of_lt hn, Nat.mod_eq_of_lt hn, Nat.toDigits_of_lt_base hn]
        simp [List.leftpad, List.replicate_succ', Nat.toDigits_zero]
      · rw [Nat.toDigits_of_base_le (by decide) (Nat.le_of_not_lt hn)]
        simp [List.leftpad]

end Hex

namespace UnitHash

theorem toNat_val_lt (h : UnitHash) : h.val.toNat < 16 ^ (15 + 1) :=
  h.val.toNat_lt

theorem spells_text (h : UnitHash) : Numeral.Spells 16 h.val.toNat h.text.toList := by
  rw [text, Hex.padded, String.toList_ofList]
  exact Hex.spells_digits h.toNat_val_lt

theorem text_injective {g h : UnitHash} (heq : g.text = h.text) : g = h := by
  have hg := g.spells_text
  rw [heq] at hg
  have hval : g.val = h.val := UInt64.toNat_inj.mp (hg.unique (le_refl 16) h.spells_text)
  rw [mk.injEq]
  exact hval

end UnitHash

end ScriptCore
