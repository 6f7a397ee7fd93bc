import ScriptCore.Arithmetic

/-!
# Assigning the result of an operator

A variable that holds a number or a string takes the result of an operator on it, or keeps
what it holds when the operator fails. A string to which `+` is assigned is extended where
it stands, and the operator is not consulted: that is right because the texts which can be
appended are those that the operator would join.
-/

namespace ScriptCore.Arithmetic

/-- How an operation ends on a variable that held `old`, if its result is stored there. -/
def storing (old : Value) : Except ScriptError Value → EStateM.Result ScriptError Value Value
  | .ok v => .ok v v
  | .error e => .error e old

theorem storing_eq_ok_iff {old v new : Value} {r : Except ScriptError Value} :
    storing old r = .ok v new ↔ r = .ok v ∧ new = v := by
  cases r with
  | ok u => grind [storing]
  | error e => simp [storing]

variable {w : Width} {rhs : Value}

/-- A string joins whatever has a text. -/
theorem binary_add_str {s : String} (h : joins rhs.tag = true) :
    binary w .add (.str s) rhs = .ok (.str (s ++ rhs.text)) := by
  have hjoin : BinaryOperator.add = .add ∧ ((Value.str s).tag = .str ∨ rhs.tag = .str) ∧
      joins (Value.str s).tag ∧ joins rhs.tag := ⟨rfl, .inl rfl, rfl, h⟩
  exact if_pos hjoin

/-- An operator gives an integer on two integers, and otherwise a float or a string. -/
theorem cases_of_binary {op : BinaryOperator} {lhs v : Value} (h : binary w op lhs rhs = .ok v) :
    (∃ a b n, lhs = .int a ∧ rhs = .int b ∧ v = .int n) ∨ (∃ x, v = .float x) ∨
      ∃ s, v = .str s := by
  unfold binary at h
  dsimp only at h
  split at h
  · rename_i a b
    cases hint : intOp w op a b with
    | error e => simp [hint, Except.map] at h
    | ok n =>
        rw [hint] at h
        exact .inl ⟨a, b, n, rfl, rfl, (Except.ok.inj h).symm⟩
  · split at h
    · split at h
      · exact .inr (.inl ⟨_, (Except.ok.inj h).symm⟩)
      · contradiction
    · split at h
      · exact .inr (.inr ⟨_, (Except.ok.inj h).symm⟩)
      · contradiction

/-- Every assignment stores what the operator gives, if the variable can be assigned to. -/
theorem assign_eq_storing (w : Width) (op : BinaryOperator) (rhs lhs : Value) :
    assign w op rhs lhs =
      storing lhs (if assignable lhs.tag then binary w op lhs rhs
        else .error (.typeMismatch (.assign op) lhs.tag rhs.tag)) := by
  cases lhs with
  | str s =>
      rw [assign]
      split
      · rename_i happend
        obtain ⟨rfl, hjoins⟩ := happend
        rw [binary_add_str hjoins]
        rfl
      · rfl
  | _ => rfl

/-- Counting up adds one. -/
theorem increment_int (n : Int64) : increment w (.int n) = assign w .add (.int 1) (.int n) := rfl

/-- Counting down subtracts one. -/
theorem decrement_int (n : Int64) : decrement w (.int n) = assign w .sub (.int 1) (.int n) := by
  calc
    decrement w (.int n) = .ok (.int (w.wrap (n + -1))) (.int (w.wrap (n + -1))) := rfl
    _ = .ok (.int (w.wrap (n - 1))) (.int (w.wrap (n - 1))) := by rw [Int64.sub_eq_add_neg]
    _ = assign w .sub (.int 1) (.int n) := rfl

/-- Assigning an operator to a variable that holds an integer, a float or a string is applying
it and storing the result; no other variable can be assigned to, and it keeps its value.
Counting an integer up or down is such an assignment too. -/
theorem assignment_stores_operator_result (w : Width) (op : BinaryOperator) (rhs : Value) :
    (∀ lhs : Value, lhs.tag = .int ∨ lhs.tag = .float ∨ lhs.tag = .str →
      assign w op rhs lhs = storing lhs (binary w op lhs rhs)) ∧
    (∀ lhs : Value, ¬ (lhs.tag = .int ∨ lhs.tag = .float ∨ lhs.tag = .str) →
      assign w op rhs lhs = .error (.typeMismatch (.assign op) lhs.tag rhs.tag) lhs) ∧
    (∀ n, increment w (.int n) = assign w .add (.int 1) (.int n) ∧
      decrement w (.int n) = assign w .sub (.int 1) (.int n)) := by
  have hassignable : ∀ t : Tag, assignable t = true ↔ t = .int ∨ t = .float ∨ t = .str := by
    intro t
    cases t <;> decide
  refine ⟨?_, ?_, fun n => ⟨increment_int n, decrement_int n⟩⟩
  · intro lhs htag
    rw [assign_eq_storing, if_pos ((hassignable _).mpr htag)]
  · intro lhs htag
    rw [assign_eq_storing, if_neg (mt (hassignable _).mp htag)]
    rfl

/-- The text of null is appended to a string. -/
theorem null_is_appended_to_string :
    assign .w64 .add .null (.str "x = ") = .ok (.str "x = null") (.str "x = null") := by
  rw [(assignment_stores_operator_result .w64 .add .null).1 (.str "x = ") (.inr (.inr rfl))]
  rfl

end ScriptCore.Arithmetic
