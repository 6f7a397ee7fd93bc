import ScriptCore.Proofs.Arithmetic.Words

/-!
# Expressions at two widths

Sums, differences, products, bitwise operations, sign changes and counting carry bits
upward only. So the low 32 bits of what an expression of these comes to are those that the
same expression over 32-bit words comes to, whichever width the integers wrap at in
between. At a width of 32 bits they are all there is: what a computation starts from can be
told apart by them only.
-/

namespace ScriptCore

/-- The unary operations on integers; the last two count a variable up and down. -/
inductive UnaryOperator where
  | negate
  | complement
  | increment
  | decrement

namespace UnaryOperator

/-- What the operation returns; a variable that it acts on holds `v`. -/
def apply (w : Width) (op : UnaryOperator) (v : Value) : Except ScriptError Value :=
  match op with
  | .negate => Arithmetic.negate w v
  | .complement => Arithmetic.complement w v
  | .increment => returned (Arithmetic.increment w v)
  | .decrement => returned (Arithmetic.decrement w v)
where
  returned : EStateM.Result ScriptError Value Value → Except ScriptError Value
    | .ok v _ => .ok v
    | .error e _ => .error e

def onWords {n : Nat} (op : UnaryOperator) (x : BitVec n) : BitVec n :=
  match op with
  | .negate => -x
  | .complement => ~~~x
  | .increment => x + 1
  | .decrement => x - 1

end UnaryOperator

/-- An expression of operators that carry bits upward only. -/
inductive Expression (α : Type) where
  | leaf (a : α)
  | unary (op : UnaryOperator) (e : Expression α)
  | binary (op : BinaryOperator) (hop : op.carriesUp = true) (lhs rhs : Expression α)

namespace Expression

variable {α : Type}

/-- Whether the expression computes anything. -/
def isOperation : Expression α → Bool
  | .leaf _ => false
  | _ => true

/-- The value of an expression; every operation wraps at the width. -/
def eval (w : Width) (leaves : α → Value) : Expression α → Except ScriptError Value
  | .leaf a => .ok (leaves a)
  | .unary op e => do
      let v ← e.eval w leaves
      op.apply w v
  | .binary op _ lhs rhs => do
      let x ← lhs.eval w leaves
      let y ← rhs.eval w leaves
      Arithmetic.binary w op x y

/-- Computes one expression after the other, each from constants and, where it has no
constant, from the value before it. -/
def evalAll (w : Width) (es : List (Expression (Option Int64))) (v : Value) :
    Except ScriptError Value :=
  es.foldlM (fun v e => e.eval w fun a => a.elim v .int) v

/-- The value of an expression over words. -/
def onWords {n : Nat} (leaves : α → BitVec n) : Expression α → BitVec n
  | .leaf a => leaves a
  | .unary op e => op.onWords (e.onWords leaves)
  | .binary op _ lhs rhs => op.onWords (lhs.onWords leaves) (rhs.onWords leaves)

end Expression

namespace Width

/-- The low 32 bits of an integer. -/
def low (n : Int64) : BitVec 32 :=
  Width.w32.pattern n

/-- Wrapping keeps the low bits. -/
theorem low_wrap (w : Width) (n : Int64) : low (w.wrap n) = low n := by
  cases w with
  | w32 =>
      rw [wrap_eq_reading]
      exact pattern_reading _ _
  | w64 => rfl

theorem wrap_eq_reading_low (n : Int64) : Width.w32.wrap n = Width.w32.reading (low n) :=
  wrap_eq_reading _ _

/-- Integers wrap to the same one at 32 bits exactly when their low bits agree. -/
theorem wrap_eq_wrap_iff {m n : Int64} :
    Width.w32.wrap m = Width.w32.wrap n ↔ low m = low n := by
  constructor
  · intro h
    rw [← low_wrap .w32 m, h, low_wrap]
  · intro h
    rw [wrap_eq_reading_low, wrap_eq_reading_low, h]

theorem wrap_wrap (w : Width) (n : Int64) : w.wrap (w.wrap n) = w.wrap n := by
  cases w with
  | w32 => exact wrap_eq_wrap_iff.mpr (low_wrap .w32 n)
  | w64 => rfl

end Width

open Width

theorem UnaryOperator.exists_apply (op : UnaryOperator) (w : Width) (a : Int64) :
    ∃ r, op.apply w (.int a) = .ok (.int (w.wrap r)) ∧ low r = op.onWords (low a) := by
  cases op with
  | negate => exact ⟨-a, rfl, Arithmetic.pattern_neg⟩
  | complement => exact ⟨~~~a, rfl, Arithmetic.pattern_not⟩
  | increment => exact ⟨a + 1, rfl, Arithmetic.pattern_add⟩
  | decrement =>
      refine ⟨a + -1, rfl, ?_⟩
      rw [← Int64.sub_eq_add_neg]
      exact Arithmetic.pattern_sub

theorem BinaryOperator.exists_binary {op : BinaryOperator} (hop : op.carriesUp = true)
    (w : Width) (a b : Int64) :
    ∃ r, Arithmetic.binary w op (.int a) (.int b) = .ok (.int (w.wrap r)) ∧
      low r = op.onWords (low a) (low b) := by
  obtain ⟨r, hword, hlow⟩ := Arithmetic.wordOp_of_carriesUp hop .w32 w a b
  refine ⟨r, ?_, hlow⟩
  rw [Arithmetic.binary_of_wordOp hword, wrap_eq_reading]

namespace Expression

variable {α : Type}

/-- Whatever the width, the low bits of an expression are those of the expression over
words, and what it computes is wrapped. -/
theorem exists_eval (w : Width) (leaves : α → Int64) (e : Expression α) :
    ∃ n, e.eval w (fun a => .int (leaves a)) = .ok (.int n) ∧
      low n = e.onWords (fun a => low (leaves a)) ∧ (e.isOperation = true → w.wrap n = n) := by
  induction e with
  | leaf a => exact ⟨leaves a, rfl, rfl, fun h => by contradiction⟩
  | unary op e ih =>
      obtain ⟨n, heval, hlow, -⟩ := ih
      obtain ⟨r, happly, hr⟩ := op.exists_apply w n
      refine ⟨w.wrap r, ?_, ?_, fun _ => w.wrap_wrap r⟩
      · rw [eval, heval]
        exact happly
      · rw [low_wrap, hr, hlow, onWords]
  | binary op hop lhs rhs ihl ihr =>
      obtain ⟨m, hlhs, hm, -⟩ := ihl
      obtain ⟨n, hrhs, hn, -⟩ := ihr
      obtain ⟨r, hbinary, hr⟩ := BinaryOperator.exists_binary hop w m n
      refine ⟨w.wrap r, ?_, ?_, fun _ => w.wrap_wrap r⟩
      · rw [eval, hlhs, hrhs]
        exact hbinary
      · rw [low_wrap, hr, hm, hn, onWords]

/-- At 32 bits an operation sees nothing but the low bits of its leaves. -/
theorem eval_eq_of_low_eq {e : Expression α} (he : e.isOperation = true)
    {leaves leaves' : α → Int64} (h : ∀ a, low (leaves a) = low (leaves' a)) :
    e.eval .w32 (fun a => .int (leaves a)) = e.eval .w32 (fun a => .int (leaves' a)) := by
  obtain ⟨n, heval, hlow, hwrap⟩ := exists_eval .w32 leaves e
  obtain ⟨n', heval', hlow', hwrap'⟩ := exists_eval .w32 leaves' e
  have heq : n = n' := by
    calc
      n = Width.w32.wrap n := (hwrap he).symm
      _ = Width.w32.wrap n' := by
        apply wrap_eq_wrap_iff.mpr
        rw [hlow, hlow', funext h]
      _ = n' := hwrap' he
  rw [heval, heval', heq]

/-- The leaves of an expression that continues from an integer are integers. -/
theorem eval_continued (w : Width) (e : Expression (Option Int64)) (n : Int64) :
    e.eval w (fun a => a.elim (.int n) .int) = e.eval w (fun a => .int (a.getD n)) := by
  congr 1
  funext a
  cases a <;> rfl

theorem exists_evalAll (w : Width) (es : List (Expression (Option Int64))) (n : Int64) :
    ∃ m, evalAll w es (.int n) = .ok (.int m) := by
  induction es generalizing n with
  | nil => exact ⟨n, rfl⟩
  | cons e es ih =>
      obtain ⟨k, heval, -⟩ := exists_eval w (fun a => a.getD n) e
      obtain ⟨m, hm⟩ := ih k
      refine ⟨m, ?_⟩
      rw [evalAll, List.foldlM_cons, eval_continued, heval]
      exact hm

/-- An expression comes to the same low 32 bits at either width. So integers that wrap to the
same one at 32 bits are made equal there by any common sequence of operations. -/
theorem expressions_agree_modulo_low_bits :
    (∀ {α : Type} (e : Expression α) (leaves : α → Int64),
      ∃ m n, e.eval .w32 (fun a => .int (leaves a)) = .ok (.int m) ∧
        e.eval .w64 (fun a => .int (leaves a)) = .ok (.int n) ∧
        Width.w32.wrap m = Width.w32.wrap n) ∧
    (∀ a b : Int64, Width.w32.wrap a = Width.w32.wrap b →
      ∀ es, es ≠ [] → (∀ e ∈ es, e.isOperation = true) →
        ∃ n, evalAll .w32 es (.int a) = .ok (.int n) ∧
          evalAll .w32 es (.int b) = .ok (.int n)) := by
  constructor
  · intro α e leaves
    obtain ⟨m, hm, hlow, -⟩ := exists_eval .w32 leaves e
    obtain ⟨n, hn, hlow', -⟩ := exists_eval .w64 leaves e
    exact ⟨m, n, hm, hn, wrap_eq_wrap_iff.mpr (hlow.trans hlow'.symm)⟩
  · intro a b hwrap es hes hops
    obtain ⟨n, hn⟩ := exists_evalAll .w32 es a
    refine ⟨n, hn, ?_⟩
    rw [← hn]
    cases es with
    | nil => contradiction
    | cons e es =>
        -- The first operation already gives the same integer, and the rest starts from it.
        have hlow : ∀ c : Option Int64, low (c.getD b) = low (c.getD a) := by
          intro c
          cases c with
          | none => exact (wrap_eq_wrap_iff.mp hwrap).symm
          | some c => rfl
        have hfirst := eval_eq_of_low_eq (hops e List.mem_cons_self) hlow
        rw [evalAll, evalAll, List.foldlM_cons, List.foldlM_cons, eval_continued, eval_continued,
          hfirst]

/-- All ones and minus one are the same from the first operation on. -/
theorem all_ones_computes_as_minus_one :
    let es : List (Expression (Option Int64)) :=
      [.binary .mul rfl (.leaf none) (.leaf (some 7)),
        .binary .sub rfl (.leaf (some 5)) (.unary .complement (.leaf none))]
    Width.w32.wrap 4294967295 = Width.w32.wrap (-1) ∧
      ∃ n, evalAll .w32 es (.int 4294967295) = .ok (.int n) ∧
        evalAll .w32 es (.int (-1)) = .ok (.int n) := by
  intro es
  have hwrap : Width.w32.wrap 4294967295 = Width.w32.wrap (-1) := by decide
  refine ⟨hwrap, ?_⟩
  apply expressions_agree_modulo_low_bits.2 4294967295 (-1) hwrap es (List.cons_ne_nil _ _)
  intro e he
  obtain rfl | rfl : e = es[0] ∨ e = es[1] := by simpa [es] using he
  · rfl
  · rfl

end Expression

end ScriptCore
