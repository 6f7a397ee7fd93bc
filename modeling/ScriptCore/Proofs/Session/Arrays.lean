import ScriptCore.Proofs.Session.Variables

/-!
# Arrays are lists

A variable that holds an array is edited at both ends, at a position, in runs and by
subscripts. Each edit is a list operation, or is refused and leaves the array alone. So a run
of edits of any length is a run of list operations, and edits that are the same operation
can stand for each other.
-/

namespace ScriptCore

/-- An edit of an array. -/
inductive ArrayEdit where
  | push (v : Value)
  | popFront
  | popBack
  | insert (v : Value) (at? : Option Nat)
  | remove (i : Nat) (count? : Option Nat)
  | truncate (count : Nat)
  | clear
  | writeIndex (key v : Value)

namespace ArrayEdit

/-- The command that makes the edit on a variable. -/
def command (x : String) : ArrayEdit → ContainerCommand
  | .push v => .push x (.value v)
  | .popFront => .popFront x
  | .popBack => .popBack x
  | .insert v at? => .insert x (.value v) at?
  | .remove i count? => .remove x i count?
  | .truncate count => .truncate x count
  | .clear => .clear x
  | .writeIndex key v => .writeIndex x (.value key) (.value v)

/-! ## List operations -/

/-- Whether an array with these items refuses the edit. -/
def refused (items : List Value) : ArrayEdit → Bool
  | .popFront => items.isEmpty
  | .popBack => items.isEmpty
  | .insert _ at? => items.length < at?.getD items.length
  | .remove i _ => items.length ≤ i
  | .writeIndex (.int n) _ => n.toInt < 0 ∨ items.length < n.toInt
  | .writeIndex _ _ => true
  | _ => false

/-- The list operation that the edit is. -/
def apply (items : List Value) : ArrayEdit → List Value
  | .push v => items ++ [v]
  | .popFront => items.tail
  | .popBack => items.dropLast
  | .insert v at? => items.insertIdx (at?.getD items.length) v
  | .remove i count? => items.take i ++ items.drop (i + count?.getD 1)
  | .truncate count => items.take count
  | .clear => []
  | .writeIndex (.int n) v =>
      if n.toInt = items.length then items ++ [v] else items.set n.toInt.toNat v
  | .writeIndex _ _ => items

/-- The answer to an edit that is not refused: the item taken off an end, nothing, or the new
count. -/
def answer (items : List Value) : ArrayEdit → Reply
  | .popFront => .value (items.head?.getD .null)
  | .popBack => .value (items.getLast?.getD .null)
  | .clear => .done
  | .writeIndex _ _ => .done
  | edit => .count (edit.apply items).length

/-- The error of an edit that is refused. -/
def fault (items : List Value) : ArrayEdit → ScriptError
  | .insert _ at? => .positionOutOfRange (at?.getD items.length) items.length
  | .remove i _ => .positionOutOfRange i items.length
  | .writeIndex (.int n) _ => .indexOutOfRange n.toInt items.length
  | .writeIndex key _ => .typeMismatch .readIndex .array key.tag
  | _ => .emptyContainer

/-- Edits as list operations, where a refused edit leaves the list as it is. -/
def model : EditModel ArrayEdit (List Value) where
  content := .array
  next items edit := if edit.refused items then items else edit.apply items
  reply items edit :=
    if edit.refused items then .error (edit.fault items) else .ok (edit.answer items)

/-! ## Edits of an array -/

section

variable {items : List Value}

theorem insertIdx_eq_take_append_drop {i : Nat} (hi : i ≤ items.length) (v : Value) :
    items.insertIdx i v = items.take i ++ v :: items.drop i := by
  induction items generalizing i with
  | nil =>
      obtain rfl := Nat.le_zero.mp hi
      rfl
  | cons first rest ih =>
      cases i with
      | zero => rfl
      | succ i => simp [ih (Nat.le_of_succ_le_succ hi)]

theorem popFront_array :
    Sequence.popFront (.array items) =
      if refused items .popFront then .error (fault items .popFront) (.array items)
      else .ok (items.head?.getD .null) (.array (apply items .popFront)) := by
  cases items <;> rfl

theorem popBack_array :
    Sequence.popBack (.array items) =
      if refused items .popBack then .error (fault items .popBack) (.array items)
      else .ok (items.getLast?.getD .null) (.array (apply items .popBack)) := by
  cases items with
  | nil => rfl
  | cons v rest =>
      simp only [Sequence.popBack, Sequence.onItems, List.getLast?_cons, refused,
        List.isEmpty_cons, Bool.false_eq_true, if_false, apply, Option.getD_some]

theorem insert_array (v : Value) (at? : Option Nat) :
    Sequence.insert v at? (.array items) =
      if refused items (.insert v at?) then .error (fault items (.insert v at?)) (.array items)
      else .ok (apply items (.insert v at?)).length (.array (apply items (.insert v at?))) := by
  simp only [Sequence.insert, Sequence.onItems, refused, apply, fault, decide_eq_true_eq]
  by_cases hi : at?.getD items.length ≤ items.length
  · rw [if_pos hi, if_neg (Nat.not_lt.mpr hi), insertIdx_eq_take_append_drop hi]
    rfl
  · rw [if_neg hi, if_pos (Nat.lt_of_not_le hi)]

theorem remove_array (i : Nat) (count? : Option Nat) :
    Sequence.remove i count? (.array items) =
      if refused items (.remove i count?) then
        .error (fault items (.remove i count?)) (.array items)
      else
        .ok (apply items (.remove i count?)).length (.array (apply items (.remove i count?))) := by
  simp only [Sequence.remove, Sequence.onItems, refused, apply, fault, decide_eq_true_eq]
  by_cases hi : i < items.length
  · rw [if_pos hi, if_neg (Nat.not_le.mpr hi)]
    rfl
  · rw [if_neg hi, if_pos (Nat.le_of_not_lt hi)]

theorem writeIndexAt_array (h : Host) (key v : Value) :
    Access.writeIndexAt ⟨.array items, h⟩ key v =
      if refused items (.writeIndex key v) then .error (fault items (.writeIndex key v))
      else .ok ⟨.array (apply items (.writeIndex key v)), h⟩ := by
  cases key with
  | int n =>
      simp only [Access.writeIndexAt, refused, apply, fault, decide_eq_true_eq]
      cases hposition : Host.position? n with
      | none =>
          have hn : n.toInt < 0 := by
            rw [Host.position?] at hposition
            split at hposition
            · contradiction
            · omega
          rw [if_pos (.inl hn)]
      | some i =>
          have hn : n.toInt = i := Host.position?_eq_some_iff.mp hposition
          rw [hn, Int.toNat_natCast]
          dsimp only
          -- Inside the array an item is replaced, at its end one is added.
          by_cases hlt : i < items.length
          · rw [if_pos hlt, if_neg (by omega), if_neg (by omega)]
          · by_cases heq : i = items.length
            · rw [if_neg hlt, if_pos heq, if_neg (by omega), if_pos (by omega)]
            · rw [if_neg hlt, if_neg heq, if_pos (by omega)]
  | _ => rfl

theorem writeIndex_array (h : Host) (key v : Value) :
    Access.writeIndex key v ⟨.array items, h⟩ =
      if refused items (.writeIndex key v) then
        .error (fault items (.writeIndex key v)) ⟨.array items, h⟩
      else .ok () ⟨.array (apply items (.writeIndex key v)), h⟩ := by
  rw [Access.writeIndex, Access.write_of_not_isAlias _ id]
  dsimp only [Access.vivify]
  rw [writeIndexAt_array]
  cases refused items (.writeIndex key v) <;> rfl

end

/-! ## Runs of edits -/

section

variable {s : Session} {x : String} {items : List Value}

/-- A command that runs an operation on the variable, where the operation does what the edit
does. -/
theorem perform_onVariable {α : Type} {m : EStateM ScriptError Value α} {a : α}
    (edit : ArrayEdit) (reply : α → Reply) (hx : s.valueOf x = .array items)
    (hm : m (.array items) = if edit.refused items then .error (edit.fault items) (.array items)
      else .ok a (.array (edit.apply items)))
    (hanswer : edit.answer items = reply a) :
    (Session.onVariable x m >>= fun a => pure (reply a) : Session.Act Reply) s =
      answered (raising (model.reply items edit))
        (s.setVariable x (model.content (model.next items edit))) := by
  rw [bind_apply, Session.onVariable, hx, hm]
  simp only [model, hanswer]
  cases edit.refused items <;> rfl

theorem perform_writeIndex (key v : Value) (hx : s.valueOf x = .array items) :
    (command x (.writeIndex key v)).perform s =
      answered (raising (model.reply items (.writeIndex key v)))
        (s.setVariable x (model.content (model.next items (.writeIndex key v)))) := by
  change (Session.onPlace x (Access.writeIndex key v) >>= fun _ => pure Reply.done) s = _
  rw [bind_apply, Session.onPlace, hx, writeIndex_array]
  simp only [model]
  cases refused items (.writeIndex key v) <;> rfl

end

/-- In every session the commands do to a variable what the list operations do. -/
theorem model_describes (x : String) : model.Describes x (command x) where
  content_ne_null := by
    intro items
    simp [model]
  perform := by
    intro s items edit hx
    cases edit with
    | push v => exact perform_onVariable (.push v) .count hx rfl rfl
    | popFront => exact perform_onVariable .popFront .value hx popFront_array rfl
    | popBack => exact perform_onVariable .popBack .value hx popBack_array rfl
    | insert v at? => exact perform_onVariable (.insert v at?) .count hx (insert_array v at?) rfl
    | remove i count? =>
        exact perform_onVariable (.remove i count?) .count hx (remove_array i count?) rfl
    | truncate count => exact perform_onVariable (.truncate count) .count hx rfl rfl
    | clear => exact perform_onVariable .clear (fun _ => .done) hx rfl rfl
    | writeIndex key v => exact perform_writeIndex key v hx

/-! ## Edits that agree -/

/-- Both commands succeed or both fail, and they leave the same session. -/
def LeavesAlike : (r r' : EStateM.Result Stop Session Reply) → Prop
  | .ok _ s, .ok _ t => s = t
  | .error (.raised _) s, .error (.raised _) t => s = t
  | _, _ => False

/-- Where a run of `n` items from position `i` on ends, in words of 64 bits: a sum past the
largest word is the largest word, and an end past the count is the count. -/
def runEnd (count i n : Nat) : Nat :=
  min (min (i + n) (UInt64.size - 1)) count

section

variable {s : Session} {x : String} {items : List Value}

theorem perform_of_not_refused (edit : ArrayEdit) (hx : s.valueOf x = .array items)
    (hrefused : edit.refused items = false) :
    (command x edit).perform s =
      .ok (edit.answer items) (s.setVariable x (.array (edit.apply items))) := by
  rw [(model_describes x).perform s items edit hx]
  simp only [model, hrefused]
  rfl

/-- Edits that are refused together and are the same list operation leave the same session. -/
theorem leavesAlike_of_apply {e f : ArrayEdit} (hx : s.valueOf x = .array items)
    (hrefused : e.refused items = f.refused items)
    (happly : e.refused items = false → e.apply items = f.apply items) :
    LeavesAlike ((command x e).perform s) ((command x f).perform s) := by
  rw [(model_describes x).perform s items e hx, (model_describes x).perform s items f hx]
  simp only [model, ← hrefused]
  cases he : e.refused items with
  | true => rfl
  | false => exact congrArg (s.setVariable x ∘ Value.array) (happly he)

theorem perform_insert_length (hx : s.valueOf x = .array items) (v : Value) {at? : Option Nat}
    (hat : at?.getD items.length = items.length) :
    (command x (.insert v at?)).perform s = (command x (.push v)).perform s := by
  have hrefused : refused items (.insert v at?) = false := by simp [refused, hat]
  have happly : apply items (.insert v at?) = apply items (.push v) := by simp [apply, hat]
  rw [perform_of_not_refused _ hx hrefused, perform_of_not_refused _ hx rfl]
  simp only [answer, happly]

theorem apply_writeIndex_length {n : Int64} (hn : n.toInt = items.length) (v : Value) :
    apply items (.writeIndex (.int n) v) = apply items (.push v) := by
  simp only [apply, if_pos hn]

theorem apply_remove_insert (v : Value) (i : Nat) :
    apply (apply items (.insert v (some i))) (.remove i (some 1)) = items := by
  simp only [apply, Option.getD_some, ← List.eraseIdx_eq_take_drop_succ,
    List.eraseIdx_insertIdx_self]

theorem exists_insert_remove (hx : s.valueOf x = .array items) (v : Value) {i : Nat}
    (hi : i ≤ items.length) :
    ∃ t, (command x (.insert v (some i))).perform s = .ok (.count (items.length + 1)) t ∧
      (command x (.remove i (some 1))).perform t = .ok (.count items.length) s := by
  have hlength : (apply items (.insert v (some i))).length = items.length + 1 := by
    simp only [apply, Option.getD_some, List.length_insertIdx, if_pos hi]
  have hinsert := perform_of_not_refused (.insert v (some i)) hx
    (decide_eq_false (Nat.not_lt.mpr hi))
  let t := s.setVariable x (.array (apply items (.insert v (some i))))
  have ht : t.valueOf x = .array (apply items (.insert v (some i))) :=
    Session.valueOf_setVariable_self
  have hremove := perform_of_not_refused (.remove i (some 1)) ht (decide_eq_false (by omega))
  simp only [answer, hlength] at hinsert
  simp only [answer, apply_remove_insert, t, Session.setVariable_setVariable,
    Session.setVariable_of_valueOf hx (by simp)] at hremove
  exact ⟨t, hinsert, hremove⟩

theorem drop_runEnd {i n : Nat} (hcount : items.length < UInt64.size) :
    items.drop (runEnd items.length i n) = items.drop (i + n) := by
  by_cases h : i + n < items.length
  · have hend : runEnd items.length i n = i + n := by
      simp only [runEnd]
      omega
    rw [hend]
  · rw [List.drop_eq_nil_of_le (Nat.le_of_not_lt h), List.drop_eq_nil_of_le]
    simp only [runEnd]
    omega

end

/-- What holds of the commands on a variable `x` with an array of `items`. -/
structure ActsAsList (s : Session) (x : String) (items : List Value) : Prop where
  /-- A run of edits has the outcomes and leaves the items that the list operations have and
  leave, and changes nothing else. -/
  runs : ∀ edits : List ArrayEdit,
    s.performAll (edits.map (EditModel.step x (command x))) =
      (model.outcomes items edits, s.setVariable x (.array (edits.foldl model.next items)))
  /-- Removing counts in words without losing track: the end of the run lies in the array
  behind its start, and what is kept is what stands before and behind the run. -/
  removes_run : ∀ i n : UInt64, items.length < UInt64.size → i.toNat < items.length →
    ∃ last kept, last = runEnd items.length i.toNat n.toNat ∧
      i.toNat ≤ last ∧ last ≤ items.length ∧ kept = items.take i.toNat ++ items.drop last ∧
      (command x (.remove i.toNat (some n.toNat))).perform s =
        .ok (.count kept.length) (s.setVariable x (.array kept))
  push_eq_insert : ∀ v,
    (command x (.push v)).perform s = (command x (.insert v none)).perform s ∧
      (command x (.push v)).perform s = (command x (.insert v (some items.length))).perform s
  push_writeIndex : ∀ v (n : Int64), n.toInt = items.length →
    LeavesAlike ((command x (.push v)).perform s) ((command x (.writeIndex (.int n) v)).perform s)
  popFront_remove :
    LeavesAlike ((command x .popFront).perform s) ((command x (.remove 0 (some 1))).perform s)
  popBack_truncate : items ≠ [] →
    LeavesAlike ((command x .popBack).perform s)
      ((command x (.truncate (items.length - 1))).perform s)
  insert_remove : ∀ v i, i ≤ items.length →
    ∃ t, (command x (.insert v (some i))).perform s = .ok (.count (items.length + 1)) t ∧
      (command x (.remove i (some 1))).perform t = .ok (.count items.length) s

/-- Commands on a variable that holds an array are list operations on its items, in runs of
any length and in place of each other. -/
theorem array_edits_act_as_list {s : Session} {x : String} {items : List Value}
    (hx : s.valueOf x = .array items) : ActsAsList s x items := by
  constructor
  case runs => exact (model_describes x).performAll hx
  case removes_run =>
    intro i n hcount hi
    refine ⟨_, _, rfl, ?_, Nat.min_le_right _ _, rfl, ?_⟩
    · have hword := i.toNat_lt
      simp only [runEnd]
      omega
    · rw [drop_runEnd hcount]
      exact perform_of_not_refused _ hx (decide_eq_false (Nat.not_le.mpr hi))
  case push_eq_insert =>
    intro v
    exact ⟨(perform_insert_length hx v rfl).symm, (perform_insert_length hx v rfl).symm⟩
  case push_writeIndex =>
    intro v n hn
    refine leavesAlike_of_apply hx ?_ fun _ => (apply_writeIndex_length hn v).symm
    simp [refused, hn]
  case popFront_remove =>
    refine leavesAlike_of_apply hx ?_ fun _ => ?_
    · cases items <;> rfl
    · cases items <;> rfl
  case popBack_truncate =>
    intro hitems
    refine leavesAlike_of_apply hx ?_ fun _ => List.dropLast_eq_take
    simpa [refused] using hitems
  case insert_remove =>
    intro v i hi
    exact exists_insert_remove hx v hi

/-- A run in which three edits are refused, and in which a run of items is cut off at the end of
the array although its length is the largest word. -/
theorem array_edits_of_three_items :
    let s := (Session.start .w64).setVariable "x" (.array [.int 10, .int 20, .int 30])
    s.performAll ([.popFront, .remove 2 none, .insert (.int 7) (some 1),
        .writeIndex (.str "0") .null, .writeIndex (.int 3) (.str "last"),
        .remove 1 (some 18446744073709551615), .popBack, .popBack].map
          (EditModel.step "x" (command "x"))) =
      ([⟨.ok (.value (.int 10)), some (.array [.int 20, .int 30])⟩,
        ⟨.error (.raised (.indexOutOfRange 2 2)), some (.array [.int 20, .int 30])⟩,
        ⟨.ok (.count 3), some (.array [.int 20, .int 7, .int 30])⟩,
        ⟨.error (.raised (.typeMismatch .readIndex .array .str)),
          some (.array [.int 20, .int 7, .int 30])⟩,
        ⟨.ok .done, some (.array [.int 20, .int 7, .int 30, .str "last"])⟩,
        ⟨.ok (.count 1), some (.array [.int 20])⟩,
        ⟨.ok (.value (.int 20)), some (.array [])⟩,
        ⟨.error (.raised .emptyContainer), some (.array [])⟩],
        s.setVariable "x" (.array [])) :=
  (array_edits_act_as_list Session.valueOf_setVariable_self).runs _

end ArrayEdit

end ScriptCore
