import ScriptCore.Proofs.Access.Subscripts
import ScriptCore.Proofs.Session.Variables

/-!
# Tables are finite maps

A variable that holds a table is edited by subscripts, by fields, by exchanging an entry and
by removing one. Under each key the last edit decides, by whichever of these ways it was
made: what it has stored is there, null included, and what it has removed is not. Only
integers and strings are keys, and an integer is never the key that its text is.
-/

namespace ScriptCore

/-- An edit of a table. -/
inductive TableEdit where
  | writeIndex (key v : Value)
  | writeField (name : String) (v : Value)
  | exchange (key v : Value)
  | removeKey (key : Value)

namespace TableEdit

/-- The command that makes the edit on a variable. -/
def command (x : String) : TableEdit → ContainerCommand
  | .writeIndex key v => .writeIndex x (.value key) (.value v)
  | .writeField name v => .writeField x name (.value v)
  | .exchange key v => .exchange x (.value key) (.value v)
  | .removeKey key => .removeKey x (.value key)

/-- The key under which the edit is made. -/
def key : TableEdit → Except ScriptError Key
  | .writeIndex key _ => Key.ofValue key
  | .writeField name _ => .ok (.str name)
  | .exchange key _ => Key.ofValue key
  | .removeKey key => Key.ofValue key

/-- What the edit leaves under its key. -/
def leaves : TableEdit → Option Value
  | .writeIndex _ v => some v
  | .writeField _ v => some v
  | .exchange _ v => some v
  | .removeKey _ => none

/-- The answer to an edit, where `old` was under its key. -/
def answer (old : Option Value) : TableEdit → Reply
  | .writeIndex _ _ => .done
  | .writeField _ _ => .done
  | .exchange _ _ => .value (old.getD .null)
  | .removeKey _ => .value (old.getD .null)

def concerns (k : Key) (edit : TableEdit) : Bool :=
  edit.key.toOption = some k

/-- What edits have left under the key `k`, where there was `old` before them: the last edit
under that key decides. -/
def latest (old : Option Value) (edits : List TableEdit) (k : Key) : Option Value :=
  match (edits.filter (·.concerns k)).getLast? with
  | some edit => edit.leaves
  | none => old

/-- The table after an edit under the key `k`. -/
def apply (table : Table) (k : Key) (edit : TableEdit) : Table :=
  match edit.leaves with
  | some v => table.insert k v
  | none => table.erase k

/-- Edits as changes of one entry; an edit without a key leaves the table as it is. -/
def model : EditModel TableEdit Table where
  content := .hash
  next table edit :=
    match edit.key with
    | .ok k => edit.apply table k
    | .error _ => table
  reply table edit := edit.key.map fun k => edit.answer (table.get? k)

/-! ## Commands -/

section

variable {s : Session} {x : String} {table : Table}

theorem writeIndex_hash (h : Host) (key v : Value) :
    Access.writeIndex key v ⟨.hash table, h⟩ =
      match Key.ofValue key with
      | .ok k => .ok () ⟨.hash (table.insert k v), h⟩
      | .error e => .error e ⟨.hash table, h⟩ := by
  rw [Access.writeIndex, Access.write_of_not_isAlias _ id]
  cases hk : Key.ofValue key <;> simp only [Access.vivify, Access.writeIndexAt, hk, Except.map]

theorem writeField_hash (h : Host) (name : String) (v : Value) :
    Access.writeField name v ⟨.hash table, h⟩ = .ok () ⟨.hash (table.insert (.str name) v), h⟩ := by
  rw [Access.writeField, Access.write_of_not_isAlias _ id]
  rfl

theorem perform_exchange {key : Value} {k : Key} (hx : s.valueOf x = .hash table)
    (hk : Key.ofValue key = .ok k) (v : Value) :
    (ContainerCommand.exchange x (.value key) (.value v)).perform s =
      .ok (.value ((table.get? k).getD .null)) (s.setVariable x (.hash (table.insert k v))) := by
  have hget : (get : Session.Act Session) s = .ok s s := rfl
  simp only [ContainerCommand.perform, bind_apply, Session.eval_apply, Term.eval, Session.attempt,
    Session.await, raising, hk, hget, hx]
  rfl

theorem perform_exchange_error {key : Value} {e : ScriptError} (x : String)
    (hk : Key.ofValue key = .error e) (v : Value) :
    (ContainerCommand.exchange x (.value key) (.value v)).perform s = .error e s := by
  simp only [ContainerCommand.perform, bind_apply, Session.eval_apply, Term.eval, Session.attempt,
    Session.await, raising, hk]

end

/-- In every session the commands do to a variable what the edits do to a table. -/
theorem model_describes (x : String) : model.Describes x (command x) where
  content_ne_null := by
    intro table
    simp [model]
  perform := by
    intro s table edit hx
    have hx : s.valueOf x = .hash table := hx
    cases edit with
    | writeIndex key v =>
        change (Session.onPlace x (Access.writeIndex key v) >>= fun _ => pure Reply.done) s = _
        rw [bind_apply, Session.onPlace, hx, writeIndex_hash]
        simp only [model, TableEdit.key]
        cases Key.ofValue key <;> rfl
    | writeField name v =>
        change (Session.onPlace x (Access.writeField name v) >>= fun _ => pure Reply.done) s = _
        rw [bind_apply, Session.onPlace, hx, writeField_hash]
        rfl
    | exchange key v =>
        simp only [command, model, TableEdit.key]
        cases hk : Key.ofValue key with
        | ok k => exact perform_exchange hx hk v
        | error e =>
            rw [Session.setVariable_of_valueOf hx (by simp)]
            exact perform_exchange_error x hk v
    | removeKey key =>
        change (Session.onVariable x (Access.removeKey key) >>= fun v => pure (Reply.value v)) s = _
        rw [bind_apply, Session.onVariable, hx, Access.removeKey]
        simp only [model, TableEdit.key]
        cases Key.ofValue key <;> rfl

/-! ## Runs of edits -/

section

variable {table : Table} {k : Key}

theorem concerns_iff {edit : TableEdit} : edit.concerns k = true ↔ edit.key = .ok k := by
  rw [concerns, decide_eq_true_eq]
  cases edit.key <;> simp [Except.toOption]

/-- An edit decides what is under its key, and nothing else. -/
theorem get?_next (edit : TableEdit) (k : Key) :
    (model.next table edit).get? k = if edit.concerns k then edit.leaves else table.get? k := by
  simp only [model, concerns_iff, apply]
  cases edit.key with
  | error e => simp
  | ok l =>
      by_cases hl : l = k
      · subst hl
        rw [if_pos rfl]
        cases edit.leaves with
        | none => exact Dictionary.get?_erase_self
        | some v => exact Dictionary.get?_insert_self
      · rw [if_neg fun heq => hl (Except.ok.inj heq)]
        cases edit.leaves with
        | none => exact Dictionary.get?_erase_of_ne hl
        | some v => exact Dictionary.get?_insert_of_ne hl

theorem latest_cons (old : Option Value) (edit : TableEdit) (rest : List TableEdit) (k : Key) :
    latest old (edit :: rest) k =
      latest (if edit.concerns k then edit.leaves else old) rest k := by
  by_cases h : edit.concerns k
  · rw [latest, latest, List.filter_cons_of_pos h, List.getLast?_cons, if_pos h]
    cases (rest.filter (·.concerns k)).getLast? <;> rfl
  · rw [latest, latest, List.filter_cons_of_neg h, if_neg h]

/-- After a run of edits each entry is what the last edit under its key has left. -/
theorem get?_foldl_next (edits : List TableEdit) (k : Key) :
    (edits.foldl model.next table).get? k = latest (table.get? k) edits k := by
  induction edits generalizing table with
  | nil => rfl
  | cons edit rest ih => rw [List.foldl_cons, ih, get?_next, latest_cons]

end

/-- The variable `x` holds a table that is the finite map `now`. -/
structure HoldsMap (s : Session) (x : String) (now : Key → Option Value) : Prop where
  reads : ∀ k, (ContainerCommand.readIndex (.var x) (.value k.toValue)).perform s =
    .ok (.value ((now k).getD .null)) s
  reads_field : ∀ name, (ContainerCommand.readField (.var x) name).perform s =
    .ok (.value ((now (.str name)).getD .null)) s
  /-- A key is there also when null is stored under it. -/
  contains : ∀ k, (ContainerCommand.containsKey (.var x) (.value k.toValue)).perform s =
    .ok (.flag (now k).isSome) s
  /-- All keys that are there are listed, each once, and counted. -/
  lists : ∃ keys : List Key, keys.Nodup ∧ (∀ k, k ∈ keys ↔ (now k).isSome) ∧
    (ContainerCommand.keys (.var x)).perform s = .ok (.value (.array (keys.map Key.toValue))) s ∧
    (ContainerCommand.count (.var x)).perform s = .ok (.count keys.length) s
  /-- An edit under a key succeeds, and removing or exchanging answers with what was there. -/
  answers : ∀ edit k, edit.key = .ok k →
    ∃ t, (command x edit).perform s = .ok (edit.answer (now k)) t
  /-- To remove a key again changes nothing. -/
  removes_once : ∀ (k : Key) t r, (command x (.removeKey k.toValue)).perform s = .ok r t →
    (command x (.removeKey k.toValue)).perform t = .ok (.value .null) t
  /-- What is no integer and no string is no key, to read, to look for and to edit. -/
  refuses : ∀ key v, key.tag ≠ .int → key.tag ≠ .str →
    ∀ c ∈ [.readIndex (.var x) (.value key), .containsKey (.var x) (.value key),
        command x (.writeIndex key v), command x (.exchange key v), command x (.removeKey key)],
      c.perform s = .error (.raised (.invalidKey key.tag)) s

section

variable {s : Session} {x : String} {table : Table}

theorem ofValue_toValue (k : Key) : Key.ofValue k.toValue = .ok k := by
  cases k <;> rfl

theorem ofValue_of_tag {key : Value} (hint : key.tag ≠ .int) (hstr : key.tag ≠ .str) :
    Key.ofValue key = .error (.invalidKey key.tag) := by
  cases key with
  | int n => exact absurd rfl hint
  | str t => exact absurd rfl hstr
  | _ => rfl

theorem await_reply {α : Type} (r : Except Stop α) (reply : α → Reply) :
    (Session.await r >>= fun a => pure (reply a) : Session.Act Reply) s =
      answered (r.map reply) s := by
  cases r <;> rfl

theorem perform_readIndex (key : Value) :
    (ContainerCommand.readIndex (.var x) (.value key)).perform s =
      answered ((Access.readIndex s.host (s.valueOf x) key).map .value) s :=
  await_reply (Access.readIndex s.host (s.valueOf x) key) .value

theorem perform_containsKey (key : Value) :
    (ContainerCommand.containsKey (.var x) (.value key)).perform s =
      answered ((raising (Access.containsKey (s.valueOf x) key)).map .flag) s :=
  await_reply (raising (Access.containsKey (s.valueOf x) key)) .flag

theorem perform_readField (name : String) :
    (ContainerCommand.readField (.var x) name).perform s =
      answered ((Access.readField s.host (s.valueOf x) name).map .value) s :=
  await_reply (Access.readField s.host (s.valueOf x) name) .value

theorem perform_count :
    (ContainerCommand.count (.var x)).perform s =
      answered ((Access.count s.host (s.valueOf x)).map .count) s :=
  await_reply (Access.count s.host (s.valueOf x)) .count

theorem perform_keys (hx : s.valueOf x = .hash table) :
    (ContainerCommand.keys (.var x)).perform s =
      .ok (.value (.array (table.keys.map Key.toValue))) s := by
  have heval : Session.eval (.var x) s = .ok (s.valueOf x) s := rfl
  rw [ContainerCommand.perform, bind_apply, heval, hx]
  rfl

theorem readIndex_hash (h : Host) (key : Value) :
    Access.readIndex h (.hash table) key =
      raising ((Key.ofValue key).map fun k => (table.get? k).getD .null) :=
  Access.readIndex_of_not_isAlias id

/-- An edit under a key succeeds. -/
theorem perform_of_key (edit : TableEdit) {k : Key} (hx : s.valueOf x = .hash table)
    (hk : edit.key = .ok k) :
    (command x edit).perform s =
      .ok (edit.answer (table.get? k)) (s.setVariable x (.hash (edit.apply table k))) := by
  rw [(model_describes x).perform s table edit hx]
  simp only [model, hk]
  rfl

/-- An edit without a key fails and changes nothing. -/
theorem perform_of_no_key (edit : TableEdit) {e : ScriptError} (hx : s.valueOf x = .hash table)
    (hk : edit.key = .error e) : (command x edit).perform s = .error e s := by
  rw [(model_describes x).perform s table edit hx]
  simp only [model, hk]
  rw [Session.setVariable_of_valueOf hx (by simp)]
  rfl

theorem holdsMap_of_valueOf (hx : s.valueOf x = .hash table) : HoldsMap s x table.get? := by
  constructor
  case reads =>
    intro k
    rw [perform_readIndex, hx, readIndex_hash, ofValue_toValue]
    rfl
  case reads_field =>
    intro name
    rw [perform_readField, hx]
    rfl
  case contains =>
    intro k
    rw [perform_containsKey, hx, Access.containsKey, ofValue_toValue]
    rfl
  case lists =>
    refine ⟨table.keys, Dictionary.nodup_keys, fun k => Dictionary.mem_keys_iff, perform_keys hx, ?_⟩
    rw [perform_count, hx, Dictionary.keys, List.length_map]
    rfl
  case answers =>
    intro edit k hk
    exact ⟨_, perform_of_key edit hx hk⟩
  case removes_once =>
    intro k t r hremove
    rw [perform_of_key (.removeKey k.toValue) hx (ofValue_toValue k)] at hremove
    obtain ⟨-, rfl⟩ := EStateM.Result.ok.inj hremove
    rw [perform_of_key (.removeKey k.toValue) Session.valueOf_setVariable_self (ofValue_toValue k),
      Session.setVariable_setVariable]
    simp only [apply, leaves, answer, Dictionary.get?_erase_self, Dictionary.erase_erase,
      Option.getD_none]
  case refuses =>
    intro key v hint hstr c hc
    have hkey := ofValue_of_tag hint hstr
    simp only [List.mem_cons, List.not_mem_nil, or_false] at hc
    rcases hc with rfl | rfl | rfl | rfl | rfl
    · rw [perform_readIndex, hx, readIndex_hash, hkey]
      rfl
    · rw [perform_containsKey, hx, Access.containsKey, hkey]
      rfl
    · exact perform_of_no_key (.writeIndex key v) hx hkey
    · exact perform_of_no_key (.exchange key v) hx hkey
    · exact perform_of_no_key (.removeKey key) hx hkey

end

/-- What edits of a variable `x` that held `table` mean for the session after them. -/
structure ActsAsMap (s : Session) (x : String) (table : Table) (edits : List TableEdit)
    (s' : Session) : Prop extends HoldsMap s' x fun k => latest (table.get? k) edits k where
  /-- Nothing but the variable has changed. -/
  others : ∃ after, s' = s.setVariable x (.hash after)
  /-- No edit is under an integer and under a string, be it the text of the integer. -/
  apart : ∀ (edit : TableEdit) n text,
    edit.concerns (.int n) = true → edit.concerns (.str text) = false

/-- Whatever edits are made of a variable that holds a table, the variable holds a finite map
in which under each key the last edit decides. -/
theorem table_edits_act_as_map {s : Session} {x : String} {table : Table}
    (hx : s.valueOf x = .hash table) (edits : List TableEdit) :
    ActsAsMap s x table edits (s.performAll (edits.map (EditModel.step x (command x)))).2 := by
  rw [(model_describes x).performAll hx edits]
  refine ⟨?_, ⟨_, rfl⟩, ?_⟩
  · -- The table that is left is the map of the last edits, key by key.
    have hafter : (s.setVariable x (.hash (edits.foldl model.next table))).valueOf x = _ :=
      Session.valueOf_setVariable_self
    have hmap := holdsMap_of_valueOf hafter
    rwa [funext (get?_foldl_next edits)] at hmap
  · intro edit n text hint
    rw [← Bool.not_eq_true, concerns_iff, concerns_iff.mp hint]
    simp

/-- Null is stored under an integer, and what was stored under the text of that integer is
removed again. A float is no key. -/
theorem table_edits_keep_stored_null :
    let s := (Session.start .w64).setVariable "x" (.hash .empty)
    let s' := (s.performAll ([.writeIndex (.int 1) .null, .writeField "1" (.int 5),
      .writeIndex (.float (.ofBits 0)) (.int 6), .exchange (.str "1") (.int 7),
      .removeKey (.str "1")].map (EditModel.step "x" (command "x")))).2
    (ContainerCommand.containsKey (.var "x") (.value (.int 1))).perform s' = .ok (.flag true) s' ∧
      (ContainerCommand.containsKey (.var "x") (.value (.str "1"))).perform s' =
        .ok (.flag false) s' := by
  have hx : ((Session.start .w64).setVariable "x" (.hash .empty)).valueOf "x" = .hash .empty :=
    Session.valueOf_setVariable_self
  have hmap := table_edits_act_as_map hx
  exact ⟨(hmap _).contains (.int 1), (hmap _).contains (.str "1")⟩

end TableEdit

end ScriptCore
