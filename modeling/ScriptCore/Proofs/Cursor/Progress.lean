import ScriptCore.Proofs.Cursor.Grammar
import ScriptCore.Proofs.Machine.Turns

/-!
# Cursors move forward

Every read leaves the cursor some bytes on, none of them beyond the end, whether or not it
succeeds. A read of fixed length that fails leaves it where it was; a varint looks at ten
bytes at most. So reads in any order, failed ones among them, never move a cursor back and
never take it out of its bytes.
-/

namespace ScriptCore

namespace Varint

/-- What is left of the input is what is behind the bytes that were looked at. -/
theorem exists_drop_decodeGroups (hasRoom : UInt8 → Bool)
    (finish : Nat → UInt8 → UInt64 → UInt64) (groups shift : Nat) (word : UInt64)
    (bytes : List UInt8) :
    ∃ n, n ≤ groups ∧ n ≤ bytes.length ∧
      (decodeGroups hasRoom finish groups shift word bytes).2 = bytes.drop n := by
  fun_induction decodeGroups hasRoom finish groups shift word bytes with
  | case1 => exact ⟨0, Nat.le_refl 0, Nat.zero_le _, rfl⟩
  | case2 => exact ⟨0, Nat.zero_le _, Nat.le_refl 0, rfl⟩
  | case3 => exact ⟨1, Nat.le_add_left 1 _, by simp, rfl⟩
  | case4 => exact ⟨1, Nat.le_add_left 1 _, by simp, rfl⟩
  | case5 groups shift word b rest payload _ gathered _ ih =>
      obtain ⟨n, hgroups, hlen, hdrop⟩ := ih
      exact ⟨n + 1, Nat.succ_le_succ hgroups, Nat.succ_le_succ hlen, hdrop⟩

theorem exists_drop_decode (bytes : List UInt8) :
    ∃ n, n ≤ 10 ∧ n ≤ bytes.length ∧ (decode bytes).2 = bytes.drop n :=
  exists_drop_decodeGroups ..

theorem exists_drop_decodeInt (bytes : List UInt8) :
    ∃ n, n ≤ 10 ∧ n ≤ bytes.length ∧ (decodeInt bytes).2 = bytes.drop n :=
  exists_drop_decodeGroups ..

end Varint

namespace Cursor

/-- A read of any kind. -/
inductive Operation where
  | byte
  | word
  | take (count : Nat)
  | varint
  | signedVarint

namespace Operation

/-- What a read returns. -/
abbrev Content : Operation → Type
  | .byte => UInt8
  | .word => UInt64
  | .take _ => List UInt8
  | .varint => Nat
  | .signedVarint => Int

def read : (op : Operation) → Read op.Content
  | .byte => Cursor.byte
  | .word => Cursor.word
  | .take count => Cursor.take count
  | .varint => Cursor.varint
  | .signedVarint => Cursor.signedVarint

/-- Whether the bytes that are read decide how many there are. -/
def isVarint : Operation → Bool
  | .byte | .word | .take _ => false
  | .varint | .signedVarint => true

end Operation

/-- Where a list of reads leaves the cursor; after a read that fails the next one is made
all the same. -/
def performAll (ops : List Operation) (c : Cursor) : Cursor :=
  ops.foldl (fun c op => stateAfter (op.read c)) c

theorem performAll_cons (op : Operation) (ops : List Operation) (c : Cursor) :
    performAll (op :: ops) c = performAll ops (stateAfter (op.read c)) := rfl

theorem performAll_append (earlier later : List Operation) (c : Cursor) :
    performAll (earlier ++ later) c = performAll later (performAll earlier c) :=
  List.foldl_append

/-- The cursor moved on by `n` bytes. -/
def skip (c : Cursor) (n : Nat) : Cursor :=
  ⟨c.pos + n, c.rest.drop n⟩

theorem skip_skip (c : Cursor) (m n : Nat) : (c.skip m).skip n = c.skip (m + n) := by
  simp only [skip, Nat.add_assoc, List.drop_drop]

theorem leaving_drop {c : Cursor} {n : Nat} (h : n ≤ c.rest.length) :
    c.leaving (c.rest.drop n) = c.skip n := by
  have hread : c.rest.length - (c.rest.length - n) = n := by omega
  rw [leaving, List.length_drop, hread, skip]

theorem stateAfter_varint (c : Cursor) :
    stateAfter (varint c) = c.leaving (Varint.decode c.rest).2 := by
  rw [varint]
  rcases Varint.decode c.rest with ⟨e | n, rest⟩
  · rfl
  · rfl

theorem stateAfter_signedVarint (c : Cursor) :
    stateAfter (signedVarint c) = c.leaving (Varint.decodeInt c.rest).2 := by
  rw [signedVarint]
  rcases Varint.decodeInt c.rest with ⟨e | z, rest⟩
  · rfl
  · rfl

namespace Operation

/-- A read of fixed length fails where it stands, or moves on by bytes that are there. -/
theorem read_of_fixed {op : Operation} (h : op.isVarint = false) (c : Cursor) :
    (∃ e, op.read c = .error e c) ∨
      ∃ a n, n ≤ c.rest.length ∧ op.read c = .ok a (c.skip n) := by
  have htake : ∀ n, Cursor.take n c = .error .unexpectedEnd c ∨
      n ≤ c.rest.length ∧ Cursor.take n c = .ok (c.rest.take n) (c.skip n) := by
    intro n
    rw [Cursor.take]
    split
    · rename_i hlen
      exact .inr ⟨hlen, rfl⟩
    · exact .inl rfl
  cases op with
  | byte =>
      obtain ⟨pos, rest⟩ := c
      cases rest with
      | nil => exact .inl ⟨_, rfl⟩
      | cons b rest => exact .inr ⟨b, 1, by simp, rfl⟩
  | word =>
      rcases htake 8 with hshort | ⟨hlen, htaken⟩
      · exact .inl ⟨_, bind_of_error hshort⟩
      · exact .inr ⟨_, 8, hlen, bind_of_ok htaken⟩
  | take count =>
      rcases htake count with hshort | ⟨hlen, htaken⟩
      · exact .inl ⟨_, hshort⟩
      · exact .inr ⟨_, count, hlen, htaken⟩
  | varint => contradiction
  | signedVarint => contradiction

/-- A varint takes ten bytes at most, whether or not it is one. -/
theorem exists_skip_of_varint {op : Operation} (h : op.isVarint = true) (c : Cursor) :
    ∃ n, n ≤ 10 ∧ n ≤ c.rest.length ∧ stateAfter (op.read c) = c.skip n := by
  cases op with
  | varint =>
      obtain ⟨n, hten, hlen, hdrop⟩ := Varint.exists_drop_decode c.rest
      exact ⟨n, hten, hlen, by rw [read, stateAfter_varint, hdrop, leaving_drop hlen]⟩
  | signedVarint =>
      obtain ⟨n, hten, hlen, hdrop⟩ := Varint.exists_drop_decodeInt c.rest
      exact ⟨n, hten, hlen, by rw [read, stateAfter_signedVarint, hdrop, leaving_drop hlen]⟩
  | byte => contradiction
  | word => contradiction
  | take count => contradiction

theorem exists_skip_read (op : Operation) (c : Cursor) :
    ∃ n, n ≤ c.rest.length ∧ stateAfter (op.read c) = c.skip n := by
  cases hkind : op.isVarint with
  | true =>
      obtain ⟨n, -, hlen, hread⟩ := exists_skip_of_varint hkind c
      exact ⟨n, hlen, hread⟩
  | false =>
      rcases read_of_fixed hkind c with ⟨e, hread⟩ | ⟨a, n, hlen, hread⟩
      · exact ⟨0, Nat.zero_le _, by rw [hread]; rfl⟩
      · exact ⟨n, hlen, by rw [hread]; rfl⟩

end Operation

/-- Reads only ever move the cursor on, by bytes that are there. -/
theorem exists_skip_performAll (ops : List Operation) (c : Cursor) :
    ∃ n, n ≤ c.rest.length ∧ performAll ops c = c.skip n := by
  induction ops generalizing c with
  | nil => exact ⟨0, Nat.zero_le _, rfl⟩
  | cons op ops ih =>
      obtain ⟨m, hm, hread⟩ := op.exists_skip_read c
      obtain ⟨n, hn, hrest⟩ := ih (c.skip m)
      have hleft : (c.skip m).rest.length = c.rest.length - m := List.length_drop
      refine ⟨m + n, by omega, ?_⟩
      rw [performAll_cons, hread, hrest, skip_skip]

theorem length_rest_performAll_le (ops : List Operation) (c : Cursor) :
    (performAll ops c).rest.length ≤ c.rest.length := by
  obtain ⟨n, -, hskip⟩ := exists_skip_performAll ops c
  rw [hskip, skip, List.length_drop]
  exact Nat.sub_le _ _

/-- The cursor is confined to `bytes`, and so are further reads with it. -/
structure Confined (bytes : List UInt8) (c : Cursor) : Prop where
  within : c.pos ≤ bytes.length
  /-- What is left to read is what comes after the position. -/
  rest : c.rest = bytes.drop c.pos
  forward : ∀ later, c.pos ≤ (performAll later c).pos
  /-- A read of fixed length that fails leaves the cursor where it was. -/
  fixed : ∀ (op : Operation) e c', op.isVarint = false → op.read c = .error e c' → c' = c
  /-- A varint that fails has taken ten bytes at most. -/
  varint : ∀ (op : Operation) e c', op.isVarint = true → op.read c = .error e c' →
    c'.pos ≤ c.pos + 10

theorem confined_performAll (bytes : List UInt8) (earlier : List Operation) :
    Confined bytes (performAll earlier (ofBytes bytes)) := by
  obtain ⟨n, hn, hearlier⟩ := exists_skip_performAll earlier (ofBytes bytes)
  have hpos : ((ofBytes bytes).skip n).pos = n := Nat.zero_add n
  rw [hearlier]
  refine ⟨?within, ?rest, ?forward, ?fixed, ?varint⟩
  case within =>
    rw [hpos]
    exact hn
  case rest =>
    rw [hpos]
    rfl
  case forward =>
    intro later
    obtain ⟨m, -, hlater⟩ := exists_skip_performAll later ((ofBytes bytes).skip n)
    rw [hlater]
    exact Nat.le_add_right _ m
  case fixed =>
    intro op e c' hkind hfailed
    rcases Operation.read_of_fixed hkind ((ofBytes bytes).skip n) with ⟨f, hread⟩ | ⟨a, m, -, hread⟩
    · rw [hread] at hfailed
      exact (EStateM.Result.error.inj hfailed).2.symm
    · rw [hread] at hfailed
      contradiction
  case varint =>
    intro op e c' hkind hfailed
    obtain ⟨m, hten, -, hread⟩ := Operation.exists_skip_of_varint hkind ((ofBytes bytes).skip n)
    rw [hfailed] at hread
    obtain rfl : c' = _ := hread
    exact Nat.add_le_add_left hten _

-- A count that no bytes can meet fails in place; a varint that is cut short takes what there is.
example : (performAll [.byte, .take 18446744073709551615, .word, .signedVarint]
    (ofBytes [7, 0x80, 0x80])).pos = 3 := by decide

end Cursor

end ScriptCore
