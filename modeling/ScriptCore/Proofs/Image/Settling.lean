import Mathlib.Order.Bounds.Defs
import ScriptCore.Proofs.Image.RoundTrip

/-!
# The layout of a draft ends at the least start

The layout starts from the smallest table that a draft can have and grows. No round passes a
start that agrees with itself, so the one where the rounds end is the least of them. The
bytes before the code section of the finished image are then as many as the table says.
-/

namespace ScriptCore.Draft

/-- No round passes a start that agrees with itself. -/
theorem Rounds.result_le {d : Draft} {a b count result : Nat} (run : d.Rounds b count result)
    (ha : d.layoutFrom a = a) (hb : b ≤ a) : result ≤ a := by
  induction run with
  | stable h => exact hb
  | moved h rest ih =>
      apply ih
      calc
        d.layoutFrom _ ≤ d.layoutFrom a := d.layoutFrom_mono hb
        _ = a := ha

/-- Everything before the code section. -/
def front (d : Draft) : List UInt8 :=
  d.header ++ (List.zipWith (entryBytes d.base) d.units d.starts).flatten
    ++ Varint.encode d.code.length

theorem image_eq (d : Draft) : d.image = d.front ++ d.code := rfl

theorem length_front (d : Draft) : d.front.length = d.layoutFrom d.base := by
  have hlength := d.length_image
  rw [image_eq, List.length_append] at hlength
  omega

/-- If the image of a draft has a 64-bit length, its layout settles after at most `9 * n + 1`
evaluations for `n` units, at the least start that agrees with the table written for it.
There the code section of the image starts, and no position that is computed on the way
takes more than 64 bits. -/
theorem layout_settles_at_least_start (d : Draft) (hsize : d.image.length < 2 ^ 64) :
    (∃ count ≤ 9 * d.units.length + 1,
      d.Rounds (d.fixedLength + 10 * d.units.length) count d.base) ∧
    IsLeast {b | b = d.fixedLength + (d.starts.map fun s => 9 + Varint.size (b + s)).sum} d.base ∧
    d.image.take d.base = d.front ∧ d.image.drop d.base = d.code ∧
    ∀ b ≤ d.base, ∀ s ∈ d.starts, b + s < 2 ^ 64 := by
  have hlength := d.length_image
  have hroom := d.le_layoutFrom d.base
  have hshort : d.fixedLength + 19 * d.units.length + d.code.length < 128 ^ 10 := by omega
  obtain ⟨count, hcount, run⟩ := exists_rounds_base hshort
  have hbase := run.layoutFrom_result
  have hfront : d.front.length = d.base := d.length_front.trans hbase
  refine ⟨⟨count, hcount, run⟩, ⟨?_, ?_⟩, ?_, ?_, ?_⟩
  · rw [Set.mem_ofPred_eq, ← layoutFrom_eq, hbase]
  · intro a ha
    rw [Set.mem_ofPred_eq, ← layoutFrom_eq] at ha
    apply run.result_le ha.symm
    rw [ha]
    exact d.le_layoutFrom a
  · rw [image_eq, ← hfront, List.take_left]
  · rw [image_eq, ← hfront, List.drop_left]
  · intro b hb s hs
    have hcode := le_length_code hs
    omega

/-- With thirteen units every position takes a second byte, which moves the code on. -/
theorem layout_of_thirteen_units_settles :
    let d : Draft := ⟨0, List.replicate 13 ⟨⟨7⟩, 0, [0]⟩⟩
    d.image.length < 2 ^ 64 ∧ d.layoutFrom 139 = 152 ∧
      (∃ count ≤ 118, d.Rounds 139 count 152) ∧ d.image.drop 152 = List.replicate 13 0 := by
  intro d
  have hsize : d.image.length < 2 ^ 64 := by decide +kernel
  have hstart : d.fixedLength + 10 * d.units.length = 139 := by decide +kernel
  have hbase : d.base = 152 := by decide +kernel
  obtain ⟨hrounds, -, -, hcode, -⟩ := layout_settles_at_least_start d hsize
  rw [hstart, hbase] at hrounds
  rw [hbase] at hcode
  exact ⟨hsize, by decide +kernel, hrounds, hcode⟩

end ScriptCore.Draft
