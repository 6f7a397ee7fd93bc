import ScriptCore.Cursor
import ScriptCore.Proofs.Varint.Fields

/-!
# Readers and the grammars they follow

A grammar says which byte fields spell which values. A reader follows it when it
succeeds exactly on input that starts with a field of the grammar, and then stands
right behind that field. Readers in sequence follow the concatenation of their
grammars, so a format is read correctly when each of its parts is.
-/

namespace ScriptCore.Cursor

variable {α β : Type}

theorem bind_of_ok {r : Read α} {k : α → Read β} {c c' : Cursor} {a : α} (h : r c = .ok a c') :
    (r >>= k) c = k a c' := by
  change EStateM.bind r k c = _
  rw [EStateM.bind, h]

theorem bind_of_error {r : Read α} {k : α → Read β} {c c' : Cursor} {e : LoadError}
    (h : r c = .error e c') : (r >>= k) c = .error e c' := by
  change EStateM.bind r k c = _
  rw [EStateM.bind, h]

/-- Two reads in sequence succeed when the first does and the second does behind it. -/
theorem bind_eq_ok_iff {r : Read α} {k : α → Read β} {c c' : Cursor} {b : β} :
    (r >>= k) c = .ok b c' ↔ ∃ a d, r c = .ok a d ∧ k a d = .ok b c' := by
  cases h : r c with
  | ok a d => simp [bind_of_ok h]
  | error e d => simp [bind_of_error h]

/-- `G pos field a`: at position `pos`, the bytes `field` spell `a`. -/
abbrev Grammar (α : Type) := Nat → List UInt8 → α → Prop

/-- The reader succeeds exactly on what the grammar allows, and stops behind it. -/
def Follows (r : Read α) (G : Grammar α) : Prop :=
  ∀ pos bytes a c, r ⟨pos, bytes⟩ = .ok a c ↔
    ∃ field rest, bytes = field ++ rest ∧ G pos field a ∧ c = ⟨pos + field.length, rest⟩

namespace Follows

variable {r : Read α} {G : Grammar α}

/-- Reading a field of the grammar, whatever comes after it. -/
theorem read_append (h : Follows r G) {pos : Nat} {field : List UInt8} {a : α}
    (hfield : G pos field a) (rest : List UInt8) :
    r ⟨pos, field ++ rest⟩ = .ok a ⟨pos + field.length, rest⟩ :=
  (h _ _ _ _).mpr ⟨field, rest, rfl, hfield, rfl⟩

theorem of_iff {H : Grammar α} (h : Follows r G)
    (hiff : ∀ pos field a, G pos field a ↔ H pos field a) : Follows r H := by
  intro pos bytes a c
  simp only [← hiff]
  exact h pos bytes a c

theorem pure (a : α) : Follows (pure a) fun _ field b => field = [] ∧ b = a := by
  intro pos bytes b c
  constructor
  · intro h
    obtain ⟨rfl, rfl⟩ := EStateM.Result.ok.inj h
    exact ⟨[], bytes, rfl, ⟨rfl, rfl⟩, rfl⟩
  · rintro ⟨_, rest, rfl, ⟨rfl, rfl⟩, rfl⟩
    rfl

/-- Two readers in sequence follow their grammars in sequence. -/
theorem bind {k : α → Read β} {H : α → Grammar β} (h : Follows r G)
    (hk : ∀ a, Follows (k a) (H a)) :
    Follows (r >>= k) fun pos field b =>
      ∃ a f g, field = f ++ g ∧ G pos f a ∧ H a (pos + f.length) g b := by
  intro pos bytes b c
  rw [bind_eq_ok_iff]
  constructor
  · rintro ⟨a, c', hr, hc⟩
    obtain ⟨f, rest, rfl, hf, rfl⟩ := (h _ _ _ _).mp hr
    obtain ⟨g, rest, rfl, hg, rfl⟩ := (hk a _ _ _ _).mp hc
    refine ⟨f ++ g, rest, by simp, ⟨a, f, g, rfl, hf, hg⟩, ?_⟩
    rw [List.length_append, Nat.add_assoc]
  · rintro ⟨_, rest, rfl, ⟨a, f, g, rfl, hf, hg⟩, rfl⟩
    refine ⟨a, ⟨pos + f.length, g ++ rest⟩, ?_, ?_⟩
    · rw [List.append_assoc]
      exact h.read_append hf (g ++ rest)
    · rw [List.length_append, ← Nat.add_assoc]
      exact (hk a).read_append hg rest

/-- A check between two reads restricts the grammar of what comes after it. -/
theorem check {p : Prop} [Decidable p] {e : LoadError} {k : Unit → Read α}
    (h : Follows (k ()) G) :
    Follows (if p then throw e >>= k else k ()) fun pos field a => ¬ p ∧ G pos field a := by
  intro pos bytes a c
  by_cases hp : p
  · have hthrow : (throw e >>= k : Read α) ⟨pos, bytes⟩ = .error e ⟨pos, bytes⟩ := rfl
    rw [if_pos hp, hthrow]
    simp [hp]
  · rw [if_neg hp]
    simp only [hp, not_false_eq_true, true_and]
    exact h pos bytes a c

/-- A reader may ask where it stands. -/
theorem here {k : Nat → Read α} {H : Nat → Grammar α} (h : ∀ n, Follows (k n) (H n)) :
    Follows (get >>= fun c => k c.pos) fun pos field a => H pos pos field a :=
  fun pos bytes a c => h pos pos bytes a c

end Follows

theorem byte_follows : Follows byte fun _ field b => field = [b] := by
  intro pos bytes b c
  cases bytes with
  | nil => simp [byte]
  | cons d rest =>
      simp only [byte]
      constructor
      · intro h
        obtain ⟨rfl, rfl⟩ := EStateM.Result.ok.inj h
        exact ⟨[d], rest, rfl, rfl, rfl⟩
      · rintro ⟨_, tail, hbytes, rfl, rfl⟩
        obtain ⟨rfl, rfl⟩ := List.cons.inj hbytes
        rfl

theorem take_follows (n : Nat) :
    Follows (take n) fun _ field bytes => bytes = field ∧ field.length = n := by
  intro pos bytes a c
  simp only [take]
  split
  · rename_i hlen
    constructor
    · intro h
      obtain ⟨rfl, rfl⟩ := EStateM.Result.ok.inj h
      have hfield : (bytes.take n).length = n := List.length_take_of_le hlen
      refine ⟨bytes.take n, bytes.drop n, (List.take_append_drop n bytes).symm,
        ⟨rfl, hfield⟩, ?_⟩
      rw [hfield]
    · rintro ⟨field, rest, rfl, ⟨rfl, rfl⟩, rfl⟩
      simp
  · rename_i hlen
    simp only [reduceCtorEq, false_iff]
    rintro ⟨field, rest, rfl, ⟨_, rfl⟩, _⟩
    simp at hlen

theorem word_follows :
    Follows word fun _ field w => field.length = 8 ∧ w = UInt64.ofNat (littleEndian field) := by
  refine ((take_follows 8).bind fun bytes => .pure (UInt64.ofNat (littleEndian bytes))).of_iff ?_
  intro pos field w
  constructor
  · rintro ⟨_, f, _, rfl, ⟨rfl, hlen⟩, rfl, rfl⟩
    simp [hlen]
  · rintro ⟨hlen, rfl⟩
    exact ⟨field, field, [], by simp, ⟨rfl, hlen⟩, rfl, rfl⟩

/-- A reader that hands its input to a decoder, and leaves what the decoder leaves, follows
what the decoder accepts. -/
theorem Follows.of_decoder {r : Read α} {decode : List UInt8 → Except LoadError α × List UInt8}
    {Accepts : List UInt8 → α → Prop}
    (hread : ∀ pos bytes a c, r ⟨pos, bytes⟩ = .ok a c ↔
      ∃ rest, decode bytes = (.ok a, rest) ∧ c = leaving ⟨pos, bytes⟩ rest)
    (hdecode : ∀ bytes rest a, decode bytes = (.ok a, rest) ↔
      ∃ field, bytes = field ++ rest ∧ Accepts field a) :
    Follows r fun _ field a => Accepts field a := by
  intro pos bytes a c
  simp only [hread, hdecode]
  constructor
  · rintro ⟨rest, ⟨field, rfl, hfield⟩, rfl⟩
    exact ⟨field, rest, rfl, hfield, by simp [leaving]⟩
  · rintro ⟨field, rest, rfl, hfield, rfl⟩
    exact ⟨rest, ⟨field, rfl, hfield⟩, by simp [leaving]⟩

theorem varint_follows :
    Follows varint fun _ field n => Varint.IsField field ∧ Varint.value field = n := by
  refine .of_decoder (fun pos bytes n c => ?_) fun _ _ _ => Varint.decode_eq_ok_iff
  rw [varint]
  rcases Varint.decode bytes with ⟨_ | m, rest⟩ <;> simp [eq_comm]

theorem signedVarint_follows :
    Follows signedVarint fun _ field z =>
      Varint.IsSignedField field ∧ Varint.signedValue field = z := by
  refine .of_decoder (fun pos bytes z c => ?_) fun _ _ _ => Varint.decodeInt_eq_ok_iff
  rw [signedVarint]
  rcases Varint.decodeInt bytes with ⟨_ | m, rest⟩ <;> simp [eq_comm]

end ScriptCore.Cursor
