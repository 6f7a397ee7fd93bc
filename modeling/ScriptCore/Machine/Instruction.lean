import ScriptCore.Varint

/-! # Instructions

The instruction set of the stack machine and its byte code. An instruction is one byte
of operation code followed by its operands: single bytes, varints, and texts as a length
and UTF-8 bytes.
-/

namespace ScriptCore

inductive Instruction where
  /-- Ends the call with the top of the stack, or null when the stack is empty. -/
  | ret
  | null
  /-- Pushes an argument, or null. -/
  | arg (index : UInt8)
  | int (n : Int64)
  | str (s : String)
  | loadGlobal (slot : Nat)
  | storeGlobal (slot : Nat)
  /-- Adds the top of the stack to a global. -/
  | addGlobal (slot : Nat)
  | binary (op : BinaryOperator)
  | equal
  | native (name : String) (argc : UInt8)
  | pop
  | readIndex
  /-- Writes inside a value and pushes the changed value. -/
  | writeIndex
deriving DecidableEq

/-- Why bytes are no instruction. -/
inductive Fault where
  | truncated
  | invalidText
  | unknownOperator
  | invalidOpcode (byte : UInt8)
deriving DecidableEq

def Fault.report : Fault → String
  | .truncated => "truncated code"
  | .invalidText => "string is not utf-8"
  | .unknownOperator => "unknown operator"
  | .invalidOpcode byte => "invalid opcode 0x" ++ Hex.padded 2 byte.toNat

def BinaryOperator.code (op : BinaryOperator) : UInt8 :=
  UInt8.ofNat (all.idxOf op)

def BinaryOperator.ofCode? (b : UInt8) : Option BinaryOperator :=
  all[b.toNat]?

namespace Instruction

def encodeText (s : String) : List UInt8 :=
  Varint.encode s.utf8ByteSize ++ s.toUTF8.toList

def encode : Instruction → List UInt8
  | .ret => [0x00]
  | .null => [0x01]
  | .arg index => [0x02, index]
  | .int n => 0x03 :: Varint.encodeInt n.toInt
  | .str s => 0x04 :: encodeText s
  | .loadGlobal slot => 0x05 :: Varint.encode slot
  | .storeGlobal slot => 0x06 :: Varint.encode slot
  | .binary op => [0x07, op.code]
  | .equal => [0x08]
  | .native name argc => 0x09 :: argc :: encodeText name
  | .pop => [0x0a]
  | .readIndex => [0x0b]
  | .writeIndex => [0x0c]
  | .addGlobal slot => 0x0d :: Varint.encode slot

/-- An operand and the bytes after it. -/
abbrev Operand (α : Type) := Except Fault (α × List UInt8)

namespace Operand

def map {α β : Type} (f : α → β) : Operand α → Operand β
  | .ok (a, rest) => .ok (f a, rest)
  | .error e => .error e

def byte : List UInt8 → Operand UInt8
  | [] => .error .truncated
  | b :: rest => .ok (b, rest)

def nat (bytes : List UInt8) : Operand Nat :=
  match Varint.decode bytes with
  | (.ok n, rest) => .ok (n, rest)
  | (.error _, _) => .error .truncated

def int (bytes : List UInt8) : Operand Int64 :=
  match Varint.decodeInt bytes with
  | (.ok z, rest) => .ok (Int64.ofInt z, rest)
  | (.error _, _) => .error .truncated

def text (bytes : List UInt8) : Operand String :=
  match nat bytes with
  | .error e => .error e
  | .ok (n, rest) =>
      if n ≤ rest.length then
        match String.fromUTF8? ⟨(rest.take n).toArray⟩ with
        | some s => .ok (s, rest.drop n)
        | none => .error .invalidText
      else .error .truncated

def operator (bytes : List UInt8) : Operand BinaryOperator :=
  match byte bytes with
  | .error e => .error e
  | .ok (b, rest) =>
      match BinaryOperator.ofCode? b with
      | some op => .ok (op, rest)
      | none => .error .unknownOperator

/-- A host function's argument count and name. -/
def native (bytes : List UInt8) : Operand (UInt8 × String) :=
  match byte bytes with
  | .error e => .error e
  | .ok (argc, rest) => map (argc, ·) (text rest)

theorem length_map_le {α β : Type} {f : α → β} {r : Operand α} {n : Nat} {b : β}
    {rest : List UInt8} (hr : ∀ a tail, r = .ok (a, tail) → tail.length ≤ n)
    (h : map f r = .ok (b, rest)) : rest.length ≤ n := by
  cases r with
  | error e => simp [map] at h
  | ok p =>
      simp only [map, Except.ok.injEq, Prod.mk.injEq] at h
      exact hr p.1 rest (by rw [← h.2])

theorem length_byte_le {bytes rest : List UInt8} {b : UInt8} (h : byte bytes = .ok (b, rest)) :
    rest.length ≤ bytes.length := by
  cases bytes with
  | nil => simp [byte] at h
  | cons c cs => simp [byte] at h; simp [h.2]

theorem length_nat_le {bytes rest : List UInt8} {n : Nat} (h : nat bytes = .ok (n, rest)) :
    rest.length ≤ bytes.length := by
  have hle : (Varint.decode bytes).2.length ≤ bytes.length := Varint.length_decodeGroups_le ..
  rw [nat] at h
  split at h
  case h_1 n' rest' hdecode =>
    obtain ⟨-, rfl⟩ := Prod.mk.inj (Except.ok.inj h)
    rwa [hdecode] at hle
  case h_2 => contradiction

theorem length_int_le {bytes rest : List UInt8} {n : Int64} (h : int bytes = .ok (n, rest)) :
    rest.length ≤ bytes.length := by
  have hle : (Varint.decodeInt bytes).2.length ≤ bytes.length := Varint.length_decodeGroups_le ..
  rw [int] at h
  split at h
  case h_1 z rest' hdecode =>
    obtain ⟨-, rfl⟩ := Prod.mk.inj (Except.ok.inj h)
    rwa [hdecode] at hle
  case h_2 => contradiction

theorem length_text_le {bytes rest : List UInt8} {s : String} (h : text bytes = .ok (s, rest)) :
    rest.length ≤ bytes.length := by
  simp only [text] at h
  split at h
  · simp at h
  · rename_i n tail hn
    have := length_nat_le hn
    split at h
    · split at h
      · simp only [Except.ok.injEq, Prod.mk.injEq] at h
        simp only [← h.2, List.length_drop]
        omega
      · simp at h
    · simp at h

theorem length_operator_le {bytes rest : List UInt8} {op : BinaryOperator}
    (h : operator bytes = .ok (op, rest)) : rest.length ≤ bytes.length := by
  simp only [operator] at h
  split at h
  · simp at h
  · rename_i b tail hb
    have := length_byte_le hb
    split at h <;> simp_all

theorem length_native_le {bytes rest : List UInt8} {f : UInt8 × String}
    (h : native bytes = .ok (f, rest)) : rest.length ≤ bytes.length := by
  simp only [native] at h
  split at h
  · simp at h
  · rename_i argc tail hb
    exact Nat.le_trans (length_map_le (fun _ _ => length_text_le) h) (length_byte_le hb)

end Operand

/-- Reads the operands of an operation code. -/
def decode (opcode : UInt8) (bytes : List UInt8) : Operand Instruction :=
  match opcode.toNat with
  | 0x00 => .ok (.ret, bytes)
  | 0x01 => .ok (.null, bytes)
  | 0x02 => Operand.map .arg (Operand.byte bytes)
  | 0x03 => Operand.map .int (Operand.int bytes)
  | 0x04 => Operand.map .str (Operand.text bytes)
  | 0x05 => Operand.map .loadGlobal (Operand.nat bytes)
  | 0x06 => Operand.map .storeGlobal (Operand.nat bytes)
  | 0x07 => Operand.map .binary (Operand.operator bytes)
  | 0x08 => .ok (.equal, bytes)
  | 0x09 => Operand.map (fun f => .native f.2 f.1) (Operand.native bytes)
  | 0x0a => .ok (.pop, bytes)
  | 0x0b => .ok (.readIndex, bytes)
  | 0x0c => .ok (.writeIndex, bytes)
  | 0x0d => Operand.map .addGlobal (Operand.nat bytes)
  | _ => .error (.invalidOpcode opcode)

theorem length_decode_le {opcode : UInt8} {bytes rest : List UInt8} {i : Instruction}
    (h : decode opcode bytes = .ok (i, rest)) : rest.length ≤ bytes.length := by
  unfold decode at h
  split at h
  case h_3 => exact Operand.length_map_le (fun _ _ => Operand.length_byte_le) h
  case h_4 => exact Operand.length_map_le (fun _ _ => Operand.length_int_le) h
  case h_5 => exact Operand.length_map_le (fun _ _ => Operand.length_text_le) h
  case h_6 => exact Operand.length_map_le (fun _ _ => Operand.length_nat_le) h
  case h_7 => exact Operand.length_map_le (fun _ _ => Operand.length_nat_le) h
  case h_8 => exact Operand.length_map_le (fun _ _ => Operand.length_operator_le) h
  case h_10 => exact Operand.length_map_le (fun _ _ => Operand.length_native_le) h
  case h_14 => exact Operand.length_map_le (fun _ _ => Operand.length_nat_le) h
  all_goals simp_all

end Instruction

end ScriptCore
