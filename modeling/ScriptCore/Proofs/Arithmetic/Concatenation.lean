import ScriptCore.Proofs.Arithmetic.Assignment

/-!
# Concatenation

In a chain of `+` each operator looks at its own two operands only: numbers are added, a
string and another scalar are joined, and all else is refused. When a string is among the
first two operands, what has been added up is a string from there on, so the chain joins
texts to its end. Operators give nothing but numbers and strings, so the operands may as well
be assigned one after another to a variable.
-/

namespace ScriptCore

/-- Null, numbers and strings. -/
inductive Value.Scalar : Value → Prop where
  | null : Scalar .null
  | int (n : Int64) : Scalar (.int n)
  | float (x : Float) : Scalar (.float x)
  | str (s : String) : Scalar (.str s)

namespace Arithmetic

/-- Adds the operands to a value from the left. -/
def sum (w : Width) (first : Value) (operands : List Value) : Except ScriptError Value :=
  operands.foldlM (binary w .add) first

/-- Assigns `+` with each operand in turn to the variable. -/
def accumulate (w : Width) : List Value → EStateM ScriptError Value Unit
  | [] => pure ()
  | v :: operands => do
      let _ ← assign w .add v
      accumulate w operands

/-- The texts of the values, one after another. -/
def joined (vs : List Value) : String :=
  String.join (vs.map Value.text)

variable {w : Width} {a b v : Value} {vs : List Value} {s : String}

@[simp] theorem joined_cons : joined (v :: vs) = v.text ++ joined vs := by
  simp [joined]

theorem sum_cons (h : binary w .add a b = .ok v) : sum w a (b :: vs) = sum w v vs := by
  rw [sum, List.foldlM_cons, h]
  rfl

theorem joins_of_scalar (h : v.Scalar) : joins v.tag = true := by
  cases h <;> rfl

/-- A string and a scalar are joined, whichever comes first. -/
theorem binary_add_scalars (ha : a.Scalar) (hb : b.Scalar) (hstr : a.tag = .str ∨ b.tag = .str) :
    binary w .add a b = .ok (.str (a.text ++ b.text)) := by
  cases ha with
  | str s => exact binary_add_str (joins_of_scalar hb)
  | null | int n | float x =>
      obtain ⟨s, rfl⟩ : ∃ s, b = .str s := by
        cases hb <;> simp [Value.tag] at hstr ⊢
      rfl

/-- Adding to a string appends to it, up to the end of the chain. -/
theorem sum_str (h : ∀ v ∈ vs, v.Scalar) : sum w (.str s) vs = .ok (.str (s ++ joined vs)) := by
  -- The accumulator is a string at every step, but not the same one.
  induction vs generalizing s with
  | nil => simp [sum, joined, pure, Except.pure]
  | cons v vs ih =>
      have hv := h v List.mem_cons_self
      have hvs := fun u hu => h u (List.mem_cons_of_mem v hu)
      calc
        sum w (.str s) (v :: vs) = sum w (.str (s ++ v.text)) vs :=
          sum_cons (binary_add_str (joins_of_scalar hv))
        _ = .ok (.str (s ++ v.text ++ joined vs)) := ih hvs
        _ = .ok (.str (s ++ joined (v :: vs))) := by rw [joined_cons, String.append_assoc]

/-- Adding from the left joins all texts if one of the first two operands is a string. -/
theorem sum_scalars (h : ∀ v ∈ a :: b :: vs, v.Scalar) (hstr : a.tag = .str ∨ b.tag = .str) :
    sum w a (b :: vs) = .ok (.str (joined (a :: b :: vs))) := by
  have ha := h a (by simp)
  have hb := h b (by simp)
  have hvs : ∀ v ∈ vs, v.Scalar := fun v hv => h v (by simp [hv])
  calc
    sum w a (b :: vs) = sum w (.str (a.text ++ b.text)) vs :=
      sum_cons (binary_add_scalars ha hb hstr)
    _ = .ok (.str (a.text ++ b.text ++ joined vs)) := sum_str hvs
    _ = .ok (.str (joined (a :: b :: vs))) := by
      rw [joined_cons, joined_cons, String.append_assoc]

/-- The result of an operator can be assigned to again. -/
theorem assignable_of_binary {op : BinaryOperator} (h : binary w op a b = .ok v) :
    assignable v.tag = true := by
  obtain ⟨m, n, k, -, -, rfl⟩ | ⟨x, rfl⟩ | ⟨s, rfl⟩ := cases_of_binary h <;> rfl

/-- A variable to which the operands are assigned ends with their sum. -/
theorem accumulate_of_sum (ha : assignable a.tag = true) (h : sum w a vs = .ok v) :
    accumulate w vs a = .ok () v := by
  induction vs generalizing a with
  | nil =>
      obtain rfl := Except.ok.inj h
      rfl
  | cons b vs ih =>
      cases hadd : binary w .add a b with
      | error e =>
          rw [sum, List.foldlM_cons, hadd] at h
          contradiction
      | ok u =>
          rw [sum_cons hadd] at h
          have hassign : assign w .add b a = .ok u u := by
            rw [assign_eq_storing, if_pos ha, hadd]
            rfl
          rw [accumulate]
          change EStateM.bind (assign w .add b) (fun _ => accumulate w vs) a = .ok () v
          rw [EStateM.bind, hassign]
          exact ih (assignable_of_binary hadd) h

/-- Concatenation joins texts in order. A chain of scalars with a string in the first or the
second place adds up to the texts of all of them, one after another, and so does a variable
that starts with the first of them, if it can be assigned to. Around a string it does not
matter which `+` is computed first. -/
theorem concatenation_joins_texts_in_order (w : Width) :
    (∀ (a b : Value) (rest : List Value), (∀ v ∈ a :: b :: rest, v.Scalar) →
      a.tag = .str ∨ b.tag = .str →
      sum w a (b :: rest) = .ok (.str (joined (a :: b :: rest))) ∧
      (a.tag = .int ∨ a.tag = .float ∨ a.tag = .str →
        accumulate w (b :: rest) a = .ok () (.str (joined (a :: b :: rest))))) ∧
    (∀ (a c : Value) (s : String), a.Scalar → c.Scalar →
      (binary w .add a (.str s) >>= fun v => binary w .add v c) =
        (binary w .add (.str s) c >>= fun v => binary w .add a v) ∧
      (binary w .add a (.str s) >>= fun v => binary w .add v c) =
        .ok (.str (a.text ++ s ++ c.text))) := by
  constructor
  · intro a b rest hscalar hstr
    have hsum : sum w a (b :: rest) = .ok (.str (joined (a :: b :: rest))) :=
      sum_scalars hscalar hstr
    refine ⟨hsum, ?_⟩
    intro htag
    have hassignable : assignable a.tag = true := by
      rcases htag with htag | htag | htag <;> rw [htag] <;> rfl
    exact accumulate_of_sum hassignable hsum
  · intro a c s ha hc
    have hc' := joins_of_scalar hc
    have hleft : (binary w .add a (.str s) >>= fun v => binary w .add v c) =
        .ok (.str (a.text ++ s ++ c.text)) := by
      rw [binary_add_scalars ha (.str s) (.inr rfl)]
      exact binary_add_str (w := w) hc'
    have hright : (binary w .add (.str s) c >>= fun v => binary w .add a v) =
        .ok (.str (a.text ++ s ++ c.text)) := by
      rw [binary_add_str hc', String.append_assoc]
      exact binary_add_scalars ha (.str _) (.inr rfl)
    exact ⟨hleft.trans hright.symm, hleft⟩

/-- Numbers behind a string are appended one after the other, and are not added. -/
theorem numbers_behind_string_are_appended :
    sum .w32 (.int (-1)) [.str " = ", .int 2, .int 3, .null] = .ok (.str "-1 = 23null") ∧
      accumulate .w32 [.str " = ", .int 2, .int 3, .null] (.int (-1)) =
        .ok () (.str "-1 = 23null") ∧
      (binary .w32 .add (.str " = ") (.int 2) >>= fun v => binary .w32 .add (.int (-1)) v) =
        .ok (.str "-1 = 2") := by
  have hscalar : ∀ v ∈ [Value.int (-1), .str " = ", .int 2, .int 3, .null], v.Scalar := by
    simp [Value.Scalar.int, Value.Scalar.str, Value.Scalar.null]
  obtain ⟨hchain, hregroup⟩ := concatenation_joins_texts_in_order .w32
  obtain ⟨hsum, haccumulate⟩ := hchain _ _ _ hscalar (.inr rfl)
  obtain ⟨heither, hleft⟩ := hregroup _ _ " = " (.int (-1)) (.int 2)
  exact ⟨hsum, haccumulate (.inl rfl), heither.symm.trans hleft⟩

end Arithmetic

end ScriptCore
