import Mathlib.Data.List.Induction
import ScriptCore.Proofs.Access.Writes
import ScriptCore.Proofs.Host.Elements
import ScriptCore.Proofs.Machine.Turns

/-!
# Replaying the writes of elements

What a buffer holds follows from the writes made to its elements: they are replayed on what
it held before. Subscript writes through a handle come to such a write or leave all buffers
alone, and whoever reads an element gets what the last write to it has left there.
-/

namespace ScriptCore

/-- A write of one element: the number of the buffer, the position in it and the integer. -/
structure ElementWrite where
  buffer : Nat
  position : Nat
  value : Int64

namespace Buffer

variable {b : Buffer} {i j : Nat} {n : Int64}

theorem length_set : (b.set i n).length = b.length :=
  List.length_set

theorem get?_set_self (hi : i < b.length) :
    (b.set i n).get? i = some (b.elem.widen (b.elem.narrow n)) :=
  congrArg (Option.map b.elem.widen) (List.getElem?_set_self hi)

theorem get?_set_of_ne (hij : i ≠ j) : (b.set i n).get? j = b.get? j :=
  congrArg (Option.map b.elem.widen) (List.getElem?_set_ne hij)

theorem set_of_length_le (hi : b.length ≤ i) : b.set i n = b := by
  rw [set, List.set_eq_of_length_le hi]

theorem get?_isSome_iff : (b.get? i).isSome ↔ i < b.length := by
  rw [get?, Option.isSome_map, isSome_getElem?]
  rfl

end Buffer

namespace ElementWrite

/-- The integer that the last write to an element has written. -/
def latest? (log : List ElementWrite) (buffer position : Nat) : Option Int64 :=
  (log.filter fun w => w.buffer = buffer ∧ w.position = position).getLast?.map (·.value)

/-- What a buffer holds once the writes to it have been made on it. -/
def replay (log : List ElementWrite) (buffer : Nat) (b : Buffer) : Buffer :=
  log.foldl (fun b w => if w.buffer = buffer then b.set w.position w.value else b) b

variable {log : List ElementWrite} {k i : Nat} {b : Buffer}

theorem replay_append (later : List ElementWrite) :
    replay (log ++ later) k b = replay later k (replay log k b) :=
  List.foldl_append

theorem latest?_append_singleton (w : ElementWrite) :
    latest? (log ++ [w]) k i =
      if w.buffer = k ∧ w.position = i then some w.value else latest? log k i := by
  rw [latest?, List.filter_append]
  by_cases hw : w.buffer = k ∧ w.position = i
  · rw [if_pos hw, List.filter_cons_of_pos (by simpa using hw), List.filter_nil,
      List.getLast?_concat, Option.map_some]
  · rw [if_neg hw, List.filter_cons_of_neg (by simpa using hw), List.filter_nil, List.append_nil]
    rfl

theorem elem_replay : (replay log k b).elem = b.elem := by
  induction log generalizing b with
  | nil => rfl
  | cons w rest ih =>
      rw [replay, List.foldl_cons]
      split
      · exact ih
      · exact ih

theorem length_replay : (replay log k b).length = b.length := by
  induction log generalizing b with
  | nil => rfl
  | cons w rest ih =>
      rw [replay, List.foldl_cons]
      split
      · exact ih.trans Buffer.length_set
      · exact ih

/-- An element holds what the last write to it has left, or what it held before. -/
theorem get?_replay (hi : i < b.length) :
    (replay log k b).get? i = match latest? log k i with
      | some v => some (b.elem.widen (b.elem.narrow v))
      | none => b.get? i := by
  -- The last write decides, so the log is taken apart from its end.
  induction log using List.reverseRecOn with
  | nil => rfl
  | append_singleton log w ih =>
      rw [replay_append, latest?_append_singleton]
      have hlength : i < (replay log k b).length := length_replay.symm ▸ hi
      by_cases hbuffer : w.buffer = k
      · have hlast : replay [w] k (replay log k b) = (replay log k b).set w.position w.value :=
          if_pos hbuffer
        rw [hlast]
        by_cases hposition : w.position = i
        · rw [if_pos ⟨hbuffer, hposition⟩, hposition, Buffer.get?_set_self hlength, elem_replay]
        · rw [if_neg fun hw => hposition hw.2, Buffer.get?_set_of_ne hposition]
          exact ih
      · have hlast : replay [w] k (replay log k b) = replay log k b := if_neg hbuffer
        rw [hlast, if_neg fun hw => hbuffer hw.1]
        exact ih

/-- `x` is what writes leave in an element: the one integer of the element type that is
congruent to the last integer written, or what the element held at first. -/
def Leaves (log : List ElementWrite) (r : BufferRef) (i : Nat) (initial : Buffer) (x : Int64) :
    Prop :=
  match latest? log r.index i with
  | some v => ∀ y, r.elem.Reduces v y ↔ y = x
  | none => initial.get? i = some x

end ElementWrite

namespace Host

/-- Every buffer is still there, and holds what the writes leave. -/
def Replays (h : Host) (log : List ElementWrite) (h' : Host) : Prop :=
  ∀ k s, h.buffers[k]? = some s →
    ∃ s', h'.buffers[k]? = some s' ∧ s'.content = ElementWrite.replay log k s.content

variable {h h' h'' : Host} {log : List ElementWrite} {r : BufferRef} {b : Buffer}

theorem replays_of_buffers_eq (hbuffers : h'.buffers = h.buffers) : h.Replays [] h' := by
  intro k s hs
  exact ⟨s, hbuffers ▸ hs, rfl⟩

theorem Replays.of_buffers_eq (hreplays : h.Replays log h')
    (hbuffers : h''.buffers = h'.buffers) : h.Replays log h'' := by
  intro k s hs
  rw [hbuffers]
  exact hreplays k s hs

theorem Replays.append {later : List ElementWrite} (hfirst : h.Replays log h')
    (hsecond : h'.Replays later h'') : h.Replays (log ++ later) h'' := by
  intro k s hs
  obtain ⟨s', hs', hcontent'⟩ := hfirst k s hs
  obtain ⟨s'', hs'', hcontent''⟩ := hsecond k s' hs'
  refine ⟨s'', hs'', ?_⟩
  rw [hcontent'', hcontent', ElementWrite.replay_append]

/-- A live buffer that was there before holds what the writes have left in it. -/
theorem Replays.exists_leaves {initial : Storage Buffer} {i : Nat} (hreplays : h.Replays log h')
    (hinitial : h.buffers[r.index]? = some initial) (hb : h'.buffer? r = some b)
    (hi : i < initial.content.length) :
    ∃ x, ElementWrite.Leaves log r i initial.content x ∧ b.get? i = some x := by
  obtain ⟨live, hlive, -, rfl, helem⟩ := buffer?_eq_some_iff.mp hb
  obtain ⟨stored, hstored, hcontent⟩ := hreplays r.index initial hinitial
  obtain rfl : live = stored := Option.some.inj (hlive.symm.trans hstored)
  rw [hcontent, ElementWrite.elem_replay] at helem
  rw [hcontent, ElementWrite.get?_replay hi]
  unfold ElementWrite.Leaves
  cases ElementWrite.latest? log r.index i with
  | some v =>
      refine ⟨_, ?_, rfl⟩
      have hreduces := initial.content.elem.reduces_widen_narrow v
      rw [helem] at hreduces ⊢
      intro y
      constructor
      · intro hy
        exact hy.unique hreduces
      · rintro rfl
        exact hreduces
  | none =>
      obtain ⟨x, hx⟩ := Option.isSome_iff_exists.mp (Buffer.get?_isSome_iff.mpr hi)
      exact ⟨x, hx, hx⟩

/-- A change of the number of owners is no write. -/
theorem replays_modifyBuffer {f : Storage Buffer → Storage Buffer}
    (hf : ∀ s, (f s).content = s.content) : h.Replays [] (h.modifyBuffer r f) := by
  intro k s hs
  rw [modifyBuffer, List.getElem?_modify, hs]
  by_cases hk : r.index = k
  · exact ⟨f s, by simp [hk], hf s⟩
  · exact ⟨s, by simp [hk], rfl⟩

theorem replays_retainBuffer (h : Host) (r : BufferRef) : h.Replays [] (h.retainBuffer r) :=
  replays_modifyBuffer fun _ => rfl

theorem replays_releaseBuffer (h : Host) (r : BufferRef) : h.Replays [] (h.releaseBuffer r) :=
  replays_modifyBuffer fun _ => rfl

theorem replays_addBuffer : h.Replays [] (h.addBuffer b).2 := by
  intro k s hs
  obtain ⟨hlt, -⟩ := List.getElem?_eq_some_iff.mp hs
  refine ⟨s, ?_, rfl⟩
  rw [addBuffer, List.getElem?_append_left hlt]
  exact hs

theorem replays_setBuffer {i : Nat} {v : Int64} (hb : h.buffer? r = some b) :
    h.Replays [⟨r.index, i, v⟩] (h.setBuffer r (b.set i v)) := by
  intro k s hs
  rw [setBuffer, modifyBuffer, List.getElem?_modify, hs]
  by_cases hk : r.index = k
  · obtain ⟨live, hlive, -, rfl, -⟩ := buffer?_eq_some_iff.mp hb
    obtain rfl : live = s := by simpa [hk, hs] using hlive.symm
    exact ⟨_, by simp [hk]; rfl, (if_pos hk).symm⟩
  · exact ⟨s, by simp [hk], (if_neg hk).symm⟩

/-- Nothing is stored past the end of a buffer. -/
theorem setBuffer_of_length_le {i : Nat} {v : Int64} (hb : h.buffer? r = some b)
    (hi : b.length ≤ i) : h.setBuffer r (b.set i v) = h := by
  obtain ⟨live, hlive, -, rfl, -⟩ := buffer?_eq_some_iff.mp hb
  rw [Buffer.set_of_length_le hi, setBuffer, modifyBuffer]
  have hbuffers : h.buffers.modify r.index (fun s => { s with content := live.content }) =
      h.buffers := by
    apply List.ext_getElem?
    intro k
    rw [List.getElem?_modify]
    by_cases hk : r.index = k
    · subst hk
      simp [hlive]
    · simp [hk]
  rw [hbuffers]

theorem buffers_settle (v : Value) (passed : List SlotRef) :
    (h.settle v passed).buffers = h.buffers := by
  fun_induction h.settle v passed with
  | case1 => rfl
  | case2 r => rfl
  | case3 r next rest ih => exact ih

theorem buffers_of_writeMember {t : RecordRef} {name : String} {v : Value}
    (hw : h.writeMember t name v = .ok h') : h'.buffers = h.buffers := by
  rcases writeMember_eq_ok_iff.mp hw with ⟨s, -, -, rfl⟩ | ⟨-, rfl⟩
  · rfl
  · rfl

end Host

namespace Access

/-! ## Subscript writes -/

/-- How a write ends. It is made on what the target leads to, and then the buffers are those
of the edited place; or that cannot be edited, and the host is as it was. -/
inductive Ends (edit : Place → Except ScriptError Place) (p : Place) :
    EStateM.Result Stop Place Unit → Prop
  | made {v : Value} {q q' : Place} (resolved : p.host.resolve p.target = .ok v)
      (edited : edit ⟨vivify v, p.host⟩ = .ok q) (buffers : q'.host.buffers = q.host.buffers) :
      Ends edit p (.ok () q')
  | failed {stop : Stop} {q' : Place} (host : q'.host = p.host)
      (refused : ∀ v, p.host.resolve p.target = .ok v →
        ∃ e, edit ⟨vivify v, p.host⟩ = .error e ∧ stop = .raised e) :
      Ends edit p (.error stop q')

theorem Ends.of_edit_error {edit : Place → Except ScriptError Place} {p q' : Place} {v : Value}
    {e : ScriptError} (hresolve : p.host.resolve p.target = .ok v)
    (hedit : edit ⟨vivify v, p.host⟩ = .error e) (hhost : q'.host = p.host) :
    Ends edit p (.error e q') := by
  refine .failed hhost ?_
  intro u hu
  obtain rfl : v = u := Except.ok.inj (hresolve.symm.trans hu)
  exact ⟨e, hedit, rfl⟩

theorem write_ends (edit : Place → Except ScriptError Place) (p : Place) :
    Ends edit p (write edit p) := by
  by_cases hp : p.target.IsAlias
  · obtain ⟨target, host⟩ := p
    obtain ⟨r, rfl⟩ : ∃ r, target = .native (.slot r) := exists_slot_of_isAlias hp
    dsimp only [write]
    cases hfollow : host.follow (.native (.slot r)) with
    | error e =>
        refine .failed rfl ?_
        intro v hv
        rw [Host.resolve, hfollow] at hv
        contradiction
    | ok reached =>
        obtain ⟨passed, v⟩ := reached
        have hresolve : host.resolve (.native (.slot r)) = .ok v := by
          rw [Host.resolve, hfollow]
          rfl
        dsimp only
        split
        · rename_i e hedit
          exact .of_edit_error hresolve hedit rfl
        · rename_i q hedit
          exact .made hresolve hedit (Host.buffers_settle q.target passed)
  · have hresolve := Host.resolve_of_not_isAlias (h := p.host) hp
    rw [write_of_not_isAlias edit hp]
    split
    · rename_i e hedit
      exact .of_edit_error hresolve hedit rfl
    · rename_i q hedit
      exact .made hresolve hedit rfl

/-- A write that edits a place without its buffers is no write of an element. -/
theorem replays_write {edit : Place → Except ScriptError Place} {p : Place}
    (hedit : ∀ v q, edit ⟨v, p.host⟩ = .ok q → q.host.buffers = p.host.buffers) :
    p.host.Replays [] (stateAfter (write edit p)).host := by
  apply Host.replays_of_buffers_eq
  have hends := write_ends edit p
  generalize write edit p = ending at hends ⊢
  cases hends with
  | made resolved edited buffers => exact buffers.trans (hedit _ _ edited)
  | failed host refused => exact congrArg Host.buffers host

theorem replays_writeField (name : String) (value : Value) (p : Place) :
    p.host.Replays [] (stateAfter (writeField name value p)).host := by
  apply replays_write
  intro v q hw
  cases v with
  | hash table =>
      obtain rfl := Except.ok.inj hw
      rfl
  | native handle =>
      cases handle with
      | record r =>
          obtain ⟨h', hmember, rfl⟩ := exists_of_map_eq_ok hw
          exact Host.buffers_of_writeMember hmember
      | _ => contradiction
  | _ => contradiction

/-- The writes of elements that a subscript write comes to: one, if the target leads to a
live buffer, the key is one of its positions and the value is an integer. -/
def elementWrites (p : Place) (key value : Value) : List ElementWrite :=
  match p.host.resolve p.target, key, value with
  | .ok (.native (.slice r)), .int n, .int v =>
      match p.host.buffer? r with
      | some b => if 0 ≤ n.toInt ∧ n.toInt < b.length then [⟨r.index, n.toInt.toNat, v⟩] else []
      | none => []
  | _, _, _ => []

variable {p q : Place} {key value v : Value}

/-- A subscript write through a handle to a buffer succeeds exactly for an integer at a
position of the buffer, while that is live. -/
theorem writeIndexAt_slice_eq_ok_iff {h : Host} {r : BufferRef} {n : Int64} :
    writeIndexAt ⟨.native (.slice r), h⟩ (.int n) value = .ok q ↔
      ∃ x b, value = .int x ∧ h.buffer? r = some b ∧ (0 ≤ n.toInt ∧ n.toInt < b.length) ∧
        q = ⟨.native (.slice r), h.setBuffer r (b.set n.toInt.toNat x)⟩ := by
  constructor
  · intro hw
    cases value with
    | int x =>
        obtain ⟨h', helement, rfl⟩ := exists_of_map_eq_ok hw
        obtain ⟨b, i, hb, hi, hlt, rfl⟩ := Host.writeElement_eq_ok_iff.mp helement
        refine ⟨x, b, rfl, hb, by omega, ?_⟩
        rw [hi, Int.toNat_natCast]
    | _ => contradiction
  · rintro ⟨x, b, rfl, hb, ⟨hnonneg, hlt⟩, rfl⟩
    have helement : h.writeElement r n x = .ok (h.setBuffer r (b.set n.toInt.toNat x)) :=
      Host.writeElement_eq_ok_iff.mpr ⟨b, n.toInt.toNat, hb, by omega, by omega, rfl⟩
    dsimp only [writeIndexAt]
    rw [helement]
    rfl

theorem buffers_of_writeIndexAt (hslice : ∀ r, p.target ≠ .native (.slice r))
    (hw : writeIndexAt p key value = .ok q) : q.host.buffers = p.host.buffers := by
  obtain ⟨target, host⟩ := p
  cases written_of_writeIndexAt hw with
  | item position inside => rfl
  | appended position => rfl
  | entry isKey => rfl
  | @element r n v host' stored => exact absurd rfl (hslice r)
  | member stored => exact Host.buffers_of_writeMember stored

theorem elementWrites_of_ne_slice (hresolve : p.host.resolve p.target = .ok v)
    (hslice : ∀ r, v ≠ .native (.slice r)) : elementWrites p key value = [] := by
  unfold elementWrites
  split
  · rename_i r n x hr
    exact absurd (Except.ok.inj (hresolve.symm.trans hr)) (hslice r)
  · rfl

theorem elementWrites_of_slice {r : BufferRef} {b : Buffer} {n x : Int64}
    (hresolve : p.host.resolve p.target = .ok (.native (.slice r)))
    (hb : p.host.buffer? r = some b) (hn : 0 ≤ n.toInt ∧ n.toInt < b.length) :
    elementWrites p (.int n) (.int x) = [⟨r.index, n.toInt.toNat, x⟩] := by
  simp only [elementWrites, hresolve, hb, if_pos hn]

/-- A write that does not succeed is no write of an element. -/
theorem elementWrites_of_refused
    (hrefused : ∀ v, p.host.resolve p.target = .ok v →
      ∃ e, writeIndexAt ⟨vivify v, p.host⟩ key value = .error e) :
    elementWrites p key value = [] := by
  unfold elementWrites
  split
  · rename_i r n x hresolve
    split
    · rename_i b hb
      apply if_neg
      intro hn
      obtain ⟨e, he⟩ := hrefused _ hresolve
      have hok := writeIndexAt_slice_eq_ok_iff.mpr ⟨x, b, rfl, hb, hn, rfl⟩
      exact absurd (he.symm.trans hok) nofun
    · rfl
  · rfl

theorem replays_writeIndexAt (hresolve : p.host.resolve p.target = .ok v)
    (hw : writeIndexAt ⟨vivify v, p.host⟩ key value = .ok q) :
    p.host.Replays (elementWrites p key value) q.host := by
  by_cases hslice : ∃ r, v = .native (.slice r)
  · obtain ⟨r, rfl⟩ := hslice
    cases key with
    | int n =>
        obtain ⟨x, b, rfl, hb, hn, rfl⟩ := writeIndexAt_slice_eq_ok_iff.mp hw
        rw [elementWrites_of_slice hresolve hb hn]
        exact Host.replays_setBuffer hb
    | _ => contradiction
  · have hne : ∀ r, v ≠ .native (.slice r) := fun r hr => hslice ⟨r, hr⟩
    have hvivified : ∀ r, vivify v ≠ .native (.slice r) := by
      intro r
      cases v with
      | null => exact nofun
      | _ => exact hne r
    rw [elementWrites_of_ne_slice hresolve hne]
    apply Host.replays_of_buffers_eq
    exact buffers_of_writeIndexAt (p := ⟨vivify v, p.host⟩) hvivified hw

/-- After a subscript write the buffers hold what the write it comes to has left. -/
theorem replays_writeIndex (key value : Value) (p : Place) :
    p.host.Replays (elementWrites p key value) (stateAfter (writeIndex key value p)).host := by
  have hends := write_ends (fun p => writeIndexAt p key value) p
  rw [writeIndex]
  generalize write _ p = ending at hends ⊢
  cases hends with
  | made resolved edited buffers =>
      exact (replays_writeIndexAt resolved edited).of_buffers_eq buffers
  | failed host refused =>
      rw [elementWrites_of_refused fun v hv => (refused v hv).imp fun _ => And.left]
      exact Host.replays_of_buffers_eq (congrArg Host.buffers host)

/-! ## Through handles -/

theorem readIndex_of_slice {h : Host} {target : Value} {r : BufferRef}
    (hresolve : h.resolve target = .ok (.native (.slice r))) (n : Int64) :
    readIndex h target (.int n) = raising (h.readElement r n) := by
  rw [readIndex, hresolve]
  rfl

/-- An integer is written to a position of a live buffer through any value that leads to the
buffer. -/
theorem exists_writeIndex_eq_ok {r : BufferRef} {b : Buffer} {n x : Int64}
    (hresolve : p.host.resolve p.target = .ok (.native (.slice r)))
    (hb : p.host.buffer? r = some b) (hn : 0 ≤ n.toInt ∧ n.toInt < b.length) :
    ∃ q, writeIndex (.int n) (.int x) p = .ok () q := by
  have hmade := writeIndexAt_slice_eq_ok_iff.mpr ⟨x, b, rfl, hb, hn, rfl⟩
  have hends := write_ends (fun p => writeIndexAt p (.int n) (.int x)) p
  cases hwrite : writeIndex (.int n) (.int x) p with
  | ok _ q => exact ⟨q, rfl⟩
  | error e q =>
      rw [writeIndex] at hwrite
      rw [hwrite] at hends
      cases hends with
      | failed host refused =>
          obtain ⟨e, he, -⟩ := refused _ hresolve
          exact absurd (he.symm.trans hmade) nofun

/-- Every other write through such a value fails and changes nothing. -/
theorem exists_writeIndex_eq_error {r : BufferRef} {b : Buffer} {n : Int64}
    (hresolve : p.host.resolve p.target = .ok (.native (.slice r)))
    (hb : p.host.buffer? r = some b)
    (hbad : n.toInt < 0 ∨ b.length ≤ n.toInt ∨ ∀ x, value ≠ .int x) :
    ∃ e, writeIndex (.int n) value p = .error (.raised e) p := by
  have hends := write_ends (fun p => writeIndexAt p (.int n) value) p
  cases hwrite : writeIndex (.int n) value p with
  | ok _ q =>
      rw [writeIndex] at hwrite
      rw [hwrite] at hends
      cases hends with
      | made resolved edited _ =>
          obtain rfl := Except.ok.inj (hresolve.symm.trans resolved)
          obtain ⟨x, b', rfl, hb', hn, -⟩ := writeIndexAt_slice_eq_ok_iff.mp edited
          obtain rfl := Option.some.inj (hb.symm.trans hb')
          rcases hbad with hnegative | hlarge | hvalue
          · omega
          · omega
          · exact absurd rfl (hvalue x)
  | error stop q =>
      rcases write_error hwrite with rfl | ⟨hnull, -, -⟩
      · rw [writeIndex] at hwrite
        rw [hwrite] at hends
        cases hends with
        | failed host refused =>
            obtain ⟨e, -, rfl⟩ := refused _ hresolve
            exact ⟨e, rfl⟩
      · rw [hnull, Host.resolve_of_not_isAlias id] at hresolve
        exact absurd (Except.ok.inj hresolve) nofun

end Access

/-- Scripts that read an element get `x`, through any value that leads to the buffer and any
field that stands for it. -/
structure Host.Reads (h : Host) (r : BufferRef) (i : Nat) (x : Int64) : Prop where
  by_handle : ∀ (target : Value) (n : Int64), h.resolve target = .ok (.native (.slice r)) →
    n.toInt = i → Access.readIndex h target (.int n) = .ok (.int x)
  by_field : ∀ (record : RecordRef) (field : String) (n : Int64),
    (h.record record).get? field = some (.slice r) → n.toInt = i →
      ∃ target, Access.readField h (.native (.record record)) field = .ok target ∧
        Access.readIndex h target (.int n) = .ok (.int x)

theorem Host.reads_of_get? {h : Host} {r : BufferRef} {b : Buffer} {i : Nat} {x : Int64}
    (hb : h.buffer? r = some b) (hx : b.get? i = some x) : h.Reads r i x := by
  have hhandle : ∀ (target : Value) (n : Int64), h.resolve target = .ok (.native (.slice r)) →
      n.toInt = i → Access.readIndex h target (.int n) = .ok (.int x) := by
    intro target n hresolve hn
    rw [Access.readIndex_of_slice hresolve, raising_eq_ok_iff]
    exact readElement_eq_ok_iff.mpr ⟨b, i, x, hb, hn, hx, rfl⟩
  refine ⟨hhandle, ?_⟩
  intro record field n hfield hn
  refine ⟨.native (.slice r), ?_, hhandle _ n (resolve_of_not_isAlias id) hn⟩
  rw [Access.readField, resolve_of_not_isAlias id]
  simp only [Access.readFieldAt, readMember, hfield, raising]

end ScriptCore
