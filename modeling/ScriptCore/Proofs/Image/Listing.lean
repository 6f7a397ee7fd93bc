import ScriptCore.Image.Listing
import ScriptCore.Proofs.Image.Format
import ScriptCore.Proofs.Text.Numerals

/-!
# Listings are faithful

A listing is read line by line, and each line field by field: numbers end where their digits
end, and hashes have a fixed count of digits. So the listing of an image that was loaded tells
the number of globals and the whole unit table. An image that was not loaded is told by the
first line, and of its header the listing gives what can be read. Loading takes storage for
all that is announced before it reads on, so there is a listing only where there is room.
-/

namespace ScriptCore

/-! ## Texts of lines -/

/-- The text is made of these lines, each ended by a newline. -/
def IsLines (text : String) (lines : List String) : Prop :=
  text = String.join (lines.map (· ++ "\n")) ∧ ∀ line ∈ lines, '\n' ∉ line.toList

/-- What stands before the first `c` can be told from the whole. -/
theorem append_cons_inj_of_notMem_left {c : Char} {a b s t : List Char} (ha : c ∉ a) (hb : c ∉ b)
    (h : a ++ c :: s = b ++ c :: t) : a = b ∧ s = t := by
  induction a generalizing b with
  | nil =>
      cases b with
      | nil => exact ⟨rfl, (List.cons.inj h).2⟩
      | cons y b =>
          obtain ⟨rfl, -⟩ := List.cons.inj h
          exact absurd List.mem_cons_self hb
  | cons x a ih =>
      cases b with
      | nil =>
          obtain ⟨rfl, -⟩ := List.cons.inj h
          exact absurd List.mem_cons_self ha
      | cons y b =>
          obtain ⟨rfl, htail⟩ := List.cons.inj h
          obtain ⟨rfl, hst⟩ := ih (List.not_mem_of_not_mem_cons ha)
            (List.not_mem_of_not_mem_cons hb) htail
          exact ⟨rfl, hst⟩

/-- A text has only one list of lines. -/
theorem IsLines.unique {text : String} {lines others : List String} (hlines : IsLines text lines)
    (hothers : IsLines text others) : lines = others := by
  obtain ⟨rfl, hlines⟩ := hlines
  obtain ⟨htext, hothers⟩ := hothers
  replace htext := congrArg String.toList htext
  simp only [String.toList_join, List.flatMap_map, String.toList_append] at htext
  induction lines generalizing others with
  | nil =>
      cases others with
      | nil => rfl
      | cons m others => simp at htext
  | cons l lines ih =>
      cases others with
      | nil => simp at htext
      | cons m others =>
          simp only [List.flatMap_cons, List.append_assoc] at htext
          obtain ⟨hfirst, hrest⟩ := append_cons_inj_of_notMem_left (hlines l List.mem_cons_self)
            (hothers m List.mem_cons_self) htext
          have hlines' := fun k hk => hlines k (List.mem_cons_of_mem l hk)
          have hothers' := fun k hk => hothers k (List.mem_cons_of_mem m hk)
          rw [String.toList_inj.mp hfirst, ih hlines' hothers' hrest]

theorem IsLines.nil : IsLines "" [] := by
  simp [IsLines]

theorem IsLines.cons {text line : String} {lines : List String} (hline : '\n' ∉ line.toList)
    (h : IsLines text lines) : IsLines (line ++ "\n" ++ text) (line :: lines) := by
  obtain ⟨rfl, hlines⟩ := h
  refine ⟨by rw [List.map_cons, String.join_cons], ?_⟩
  intro l hl
  rcases List.mem_cons.mp hl with rfl | hl
  · exact hline
  · exact hlines l hl

theorem notMem_append {c : Char} {s t : String} :
    c ∉ (s ++ t).toList ↔ c ∉ s.toList ∧ c ∉ t.toList := by
  rw [String.toList_append, List.mem_append, not_or]

/-! ## Numbers and hashes in a line -/

theorem Numeral.ofNat_eq_toString (n : Nat) : ofNat n = toString n := rfl

theorem notMem_toString {c : Char} (h : c.isDigit = false) (n : Nat) : c ∉ (toString n).toList := by
  intro hmem
  rw [Nat.toString_eq_repr, Nat.toList_repr] at hmem
  rw [Nat.isDigit_of_mem_toDigits (by decide) (by decide) hmem] at h
  contradiction

theorem Hex.newline_notMem_digits (count n : Nat) : '\n' ∉ digits count n := by
  have hdigit : ∀ d < 16, d.digitChar ≠ '\n' := by
    decide
  induction count generalizing n with
  | zero => exact List.not_mem_nil
  | succ count ih =>
      rw [digits, List.mem_append, List.mem_singleton]
      rintro (hmem | hlast)
      · exact ih (n / 16) hmem
      · exact hdigit (n % 16) (Nat.mod_lt n (by decide)) hlast.symm

theorem Hex.newline_notMem_padded (count n : Nat) : '\n' ∉ (padded count n).toList := by
  rw [padded, String.toList_ofList]
  exact newline_notMem_digits count n

/-- Every cause is told in one line. -/
theorem LoadError.newline_notMem_message (e : LoadError) : '\n' ∉ e.message.toList := by
  have hnumber : ∀ n, '\n' ∉ (Numeral.ofNat n).toList := notMem_toString rfl
  -- Four causes carry numbers or a hash, and the others are fixed texts.
  fun_cases message e with
  | case2 version =>
      rw [notMem_append]
      exact ⟨by decide, hnumber _⟩
  | case5 flags =>
      rw [notMem_append]
      exact ⟨by decide, Hex.newline_notMem_padded _ _⟩
  | case6 unit offset =>
      simp only [notMem_append]
      exact ⟨⟨⟨⟨by decide, hnumber _⟩, by decide⟩, hnumber _⟩, by decide⟩
  | case7 hash =>
      rw [notMem_append]
      exact ⟨by decide, Hex.newline_notMem_padded _ _⟩
  | _ => decide

theorem UnitHash.text_eq_leftpad (h : UnitHash) :
    h.text = String.ofList ((Nat.toDigits 16 h.val.toNat).leftpad 16 '0') := by
  rw [text, Hex.padded, Hex.digits_eq_leftpad h.toNat_val_lt]

@[simp] theorem UnitHash.length_text (h : UnitHash) : h.text.toList.length = 16 := by
  rw [text, Hex.padded, String.toList_ofList, Hex.length_digits]

/-- Numbers that end at the same bracket are the same. -/
theorem toString_append_bracket_inj {m n : Nat} {s t : List Char}
    (h : (toString m).toList ++ ']' :: s = (toString n).toList ++ ']' :: t) : m = n ∧ s = t := by
  obtain ⟨hdigits, hrest⟩ := append_cons_inj_of_notMem_left (notMem_toString rfl m)
    (notMem_toString rfl n) h
  exact ⟨Numeral.ofNat_injective (String.toList_inj.mp hdigits), hrest⟩

namespace Listing

/-! ## The lines of a listing -/

/-- The line of a unit: its index, the sixteen digits of its hash, where its code starts and
its parameter count. -/
def row (i : Nat) (u : UnitEntry) : String :=
  toString i ++ " [" ++ String.ofList ((Nat.toDigits 16 u.hash.val.toNat).leftpad 16 '0')
    ++ "] offset[" ++ toString u.offset ++ "] arguments[" ++ toString u.params.toNat ++ "]"

/-- The lines for an image that was loaded. -/
def lines (globals : Nat) (units : List UnitEntry) : List String :=
  (toString globals ++ " globals") :: (toString units.length ++ " units") :: units.mapIdx row

variable {i globals : Nat} {u v : UnitEntry} {units : List UnitEntry}

theorem unitLine_eq_row (i : Nat) (u : UnitEntry) : unitLine i u = row i u ++ "\n" := by
  rw [unitLine, row, UnitHash.text_eq_leftpad]
  simp only [String.append_assoc, Numeral.ofNat_eq_toString]
  rfl

theorem newline_notMem_row (i : Nat) (u : UnitEntry) : '\n' ∉ (row i u).toList := by
  have hnumber : ∀ n : Nat, '\n' ∉ (toString n).toList := notMem_toString rfl
  have hhash : '\n' ∉ u.hash.text.toList := Hex.newline_notMem_padded _ _
  rw [row, ← UnitHash.text_eq_leftpad]
  simp only [notMem_append]
  exact ⟨⟨⟨⟨⟨⟨⟨hnumber i, by decide⟩, hhash⟩, by decide⟩, hnumber _⟩, by decide⟩, hnumber _⟩,
    by decide⟩

/-- A unit can be told from its line. -/
theorem row_injective (h : row i u = row i v) : u = v := by
  replace h := congrArg String.toList h
  simp only [row, ← UnitHash.text_eq_leftpad, String.toList_append, List.append_assoc] at h
  replace h := List.append_cancel_left (List.append_cancel_left h)
  obtain ⟨hhash, h⟩ := List.append_inj h (by rw [UnitHash.length_text, UnitHash.length_text])
  replace h := List.append_cancel_left h
  obtain ⟨hoffset, h⟩ := toString_append_bracket_inj h
  obtain ⟨hparams, -⟩ := toString_append_bracket_inj (List.append_cancel_left h)
  rw [UnitEntry.mk.injEq]
  exact ⟨UnitHash.text_injective (String.toList_inj.mp hhash), hoffset, UInt8.toNat_inj.mp hparams⟩

/-- The lines of units numbered from `i` on. -/
theorem isLines_unitLines (i : Nat) (units : List UnitEntry) :
    IsLines (unitLines i units) (units.mapIdx fun k u => row (i + k) u) := by
  induction units generalizing i with
  | nil => exact .nil
  | cons u units ih =>
      have hnext : ∀ k, i + 1 + k = i + (k + 1) := by
        omega
      have hrest := ih (i + 1)
      simp only [hnext] at hrest
      rw [unitLines, unitLine_eq_row, List.mapIdx_cons]
      exact .cons (newline_notMem_row i u) hrest

theorem isLines_lines (globals : Nat) (units : List UnitEntry) :
    IsLines (counts globals units.length ++ unitLines 0 units) (lines globals units) := by
  have hcount : ∀ (n : Nat) (what : String), '\n' ∉ what.toList →
      '\n' ∉ (toString n ++ what).toList := by
    intro n what hwhat
    rw [notMem_append]
    exact ⟨notMem_toString rfl n, hwhat⟩
  have hunits := isLines_unitLines 0 units
  simp only [Nat.zero_add] at hunits
  have htext : counts globals units.length ++ unitLines 0 units =
      toString globals ++ " globals" ++ "\n" ++
        (toString units.length ++ " units" ++ "\n" ++ unitLines 0 units) := by
    simp only [counts, Numeral.ofNat_eq_toString, String.append_assoc]
    rfl
  rw [htext]
  exact .cons (hcount _ _ (by decide)) (.cons (hcount _ _ (by decide)) hunits)

/-- The lines tell the number of globals and the units. -/
theorem lines_injective {globals' : Nat} {units' : List UnitEntry}
    (h : lines globals units = lines globals' units') : globals = globals' ∧ units = units' := by
  rw [lines, lines, List.cons.injEq, List.cons.injEq] at h
  obtain ⟨hglobals, -, hrows⟩ := h
  constructor
  · exact Numeral.ofNat_injective ((String.append_left_inj _).mp hglobals)
  · apply List.ext_getElem?
    intro i
    have hrow := congrArg (·[i]?) hrows
    simp only [List.getElem?_mapIdx] at hrow
    exact Option.map_injective (fun _ _ => row_injective) hrow

/-! ## Listings of byte strings -/

variable {memory : Memory} {id : ContextId} {borrowed : Bool} {config : Config}
  {bytes : List UInt8}

theorem ofImage_of_load {c : Context} (h : Context.load id borrowed config bytes memory = .ok c) :
    ofImage config bytes memory =
      some (counts c.globals.length c.units.length ++ unitLines 0 c.units) := by
  obtain ⟨image, hread, hroom, rfl⟩ := Context.load_eq_ok_iff.mp h
  simp only [ofImage, Context.load, hread, hroom, if_true]
  rfl

/-- Whether loading stops does not depend on whose context it is. -/
theorem load_error_congr {stop : Stop}
    (h : Context.load id borrowed config bytes memory = .error stop) (id' : ContextId)
    (borrowed' : Bool) : Context.load id' borrowed' config bytes memory = .error stop := by
  rw [Context.load] at h ⊢
  cases hload : Image.load memory config.limits bytes with
  | error stop' =>
      rw [hload] at h
      exact h
  | ok image =>
      simp only [hload] at h ⊢
      split at h
      · contradiction
      · rename_i hfull
        rw [if_neg hfull]
        exact h

theorem ofImage_of_load_error {e : ScriptError}
    (h : Context.load id borrowed config bytes memory = .error (.raised e)) :
    ofImage config bytes memory = some ("error: " ++ e.message ++ "\n"
      ++ counts ((Image.announcedGlobals? bytes).getD 0) 0) := by
  simp only [ofImage, load_error_congr h ⟨0⟩ true]

theorem exists_cause_of_load_error {e : ScriptError}
    (h : Context.load id borrowed config bytes memory = .error (.raised e)) :
    ∃ cause, e = .loadFailed cause := by
  rw [Context.load] at h
  split at h
  · rename_i hload
    obtain rfl := Except.error.inj h
    rcases Image.load_eq_error_iff.mp hload with ⟨-, hstop⟩ | ⟨-, cause, -, hstop⟩
    · contradiction
    · exact ⟨cause, Stop.raised.inj hstop⟩
  · split at h
    · contradiction
    · exact absurd (Except.error.inj h) (by simp)

theorem newline_notMem_message_of_load {e : ScriptError}
    (h : Context.load id borrowed config bytes memory = .error (.raised e)) :
    '\n' ∉ e.message.toList := by
  obtain ⟨cause, rfl⟩ := exists_cause_of_load_error h
  change '\n' ∉ ("context creation failed: " ++ cause.message).toList
  rw [notMem_append]
  exact ⟨by decide, cause.newline_notMem_message⟩

/-! ## Room for listings -/

/-- Within the limits, the byte string announces `n` units behind its header. -/
def AnnouncesUnits (limits : Limits) (bytes : List UInt8) (n : Nat) : Prop :=
  ∃ globals units rest,
    bytes = Image.signature ++ [Image.version, 0] ++ globals ++ units ++ rest ∧
      Varint.IsField globals ∧ Varint.IsField units ∧ Varint.value globals ≤ limits.globals ∧
      Varint.value units ≤ limits.units ∧ Varint.value units = n

theorem announcedUnits_of_announcesUnits {limits : Limits} {n : Nat}
    (h : AnnouncesUnits limits bytes n) : Image.announcedUnits limits bytes = n := by
  obtain ⟨globals, units, rest, hbytes, hglobals, hunits, hmost, hmany, rfl⟩ := h
  have hcounts := (Image.readCounts_follows limits 0 bytes _ _).mpr
    ⟨_, rest, hbytes, ⟨globals, units, rfl, hglobals, hunits, hmost, hmany, rfl⟩, rfl⟩
  rw [Image.announcedUnits, Cursor.ofBytes, hcounts]

theorem announcedUnits_eq_zero_or (limits : Limits) (bytes : List UInt8) :
    Image.announcedUnits limits bytes = 0 ∨
      AnnouncesUnits limits bytes (Image.announcedUnits limits bytes) := by
  rw [Image.announcedUnits, Cursor.ofBytes]
  split
  · rename_i globals count c hcounts
    obtain ⟨_, rest, hbytes, ⟨g, n, rfl, hg, hn, hmost, hmany, hvalues⟩, -⟩ :=
      (Image.readCounts_follows limits 0 bytes _ _).mp hcounts
    exact .inr ⟨g, n, rest, hbytes, hg, hn, hmost, hmany, (Prod.mk.inj hvalues).2.symm⟩
  · exact .inl rfl

/-- There is room for what loading takes at once: the table that is announced, and then the
globals of an image without fault. -/
structure Fits (memory : Memory) (limits : Limits) (bytes : List UInt8) : Prop where
  table : ∀ n, AnnouncesUnits limits bytes n → memory.holds n Image.entrySize = true
  globals : ∀ image, Image.read limits bytes = .ok image →
    memory.holds image.globals Context.valueSize = true

theorem holds_announcedUnits_iff {limits : Limits} :
    memory.holds (Image.announcedUnits limits bytes) Image.entrySize = true ↔
      ∀ n, AnnouncesUnits limits bytes n → memory.holds n Image.entrySize = true := by
  constructor
  · intro hroom n hn
    rw [← announcedUnits_of_announcesUnits hn]
    exact hroom
  · intro hroom
    rcases announcedUnits_eq_zero_or limits bytes with hzero | hn
    · rw [hzero, Memory.holds, Nat.zero_mul]
      exact decide_eq_true (Nat.zero_le _)
    · exact hroom _ hn

/-- Where all that the limits allow has room, so has what any byte string announces. -/
theorem fits_of_limits {limits : Limits}
    (hunits : memory.holds limits.units Image.entrySize = true)
    (hglobals : memory.holds limits.globals Context.valueSize = true) (bytes : List UInt8) :
    Fits memory limits bytes := by
  have hless : ∀ {most n size : Nat}, memory.holds most size = true → n ≤ most →
      memory.holds n size = true := by
    intro most n size hmost hn
    exact decide_eq_true ((Nat.mul_le_mul_right size hn).trans (of_decide_eq_true hmost))
  constructor
  · rintro n ⟨_, _, _, -, -, -, -, hmany, rfl⟩
    exact hless hunits hmany
  · intro image hread
    obtain ⟨f, -, hvalid, rfl⟩ := Image.read_eq_ok_iff.mp hread
    exact hless hglobals hvalid.globals_le

theorem hasResult_load_iff (id : ContextId) (borrowed : Bool) :
    hasResult (Context.load id borrowed config bytes memory) = true ↔
      Fits memory config.limits bytes := by
  have hfits : Fits memory config.limits bytes ↔
      memory.holds (Image.announcedUnits config.limits bytes) Image.entrySize = true ∧
        ∀ image, Image.read config.limits bytes = .ok image →
          memory.holds image.globals Context.valueSize = true := by
    rw [holds_announcedUnits_iff]
    exact ⟨fun h => ⟨h.table, h.globals⟩, fun h => ⟨h.1, h.2⟩⟩
  rw [hfits, Context.load, Image.load]
  cases memory.holds (Image.announcedUnits config.limits bytes) Image.entrySize with
  | false => simp [hasResult]
  | true =>
      cases Image.read config.limits bytes with
      | error cause => simp [hasResult]
      | ok image => cases hglobals : memory.holds image.globals Context.valueSize <;>
          simp [hasResult, hglobals]

/-- There is a text exactly when there is room. -/
theorem exists_ofImage_iff :
    (∃ text, ofImage config bytes memory = some text) ↔ Fits memory config.limits bytes := by
  rw [← hasResult_load_iff ⟨0⟩ true, ofImage]
  cases Context.load ⟨0⟩ true config bytes memory with
  | ok c => simp [hasResult]
  | error stop => cases stop <;> simp [hasResult]

/-! ## Texts of listings -/

/-- The byte string starts with a header that announces `n` globals. -/
def HasHeader (bytes : List UInt8) (n : Nat) : Prop :=
  ∃ field rest, bytes = Image.signature ++ [Image.version, 0] ++ field ++ rest ∧
    Varint.IsField field ∧ Varint.value field = n

theorem announcedGlobals?_eq_some_iff {n : Nat} :
    Image.announcedGlobals? bytes = some n ↔ HasHeader bytes n := by
  have hheader := Image.readHeader_follows 0 bytes
  rw [Image.announcedGlobals?, Cursor.ofBytes]
  constructor
  · intro h
    split at h
    · rename_i m c hok
      obtain rfl := Option.some.inj h
      obtain ⟨_, rest, hbytes, ⟨field, rfl, hfield, hvalue⟩, -⟩ := (hheader m c).mp hok
      exact ⟨field, rest, hbytes, hfield, hvalue⟩
    · contradiction
  · rintro ⟨field, rest, hbytes, hfield, hvalue⟩
    have hok := (hheader n _).mpr ⟨_, rest, hbytes, ⟨field, rfl, hfield, hvalue⟩, rfl⟩
    rw [hok]

/-- The number of globals that a header announces, zero if there is none. -/
def Announces (bytes : List UInt8) (n : Nat) : Prop :=
  HasHeader bytes n ∨ n = 0 ∧ ∀ m, ¬ HasHeader bytes m

theorem announces_getD (bytes : List UInt8) :
    Announces bytes ((Image.announcedGlobals? bytes).getD 0) := by
  cases h : Image.announcedGlobals? bytes with
  | some n => exact .inl (announcedGlobals?_eq_some_iff.mp h)
  | none =>
      refine .inr ⟨rfl, ?_⟩
      intro m hm
      rw [announcedGlobals?_eq_some_iff.mpr hm] at h
      contradiction

/-- A text that starts with a number is no error. -/
theorem not_startsWith_error (n : Nat) (rest : String) :
    ¬ (toString n ++ rest).startsWith "error: " = true := by
  rw [String.startsWith_string_iff, String.toList_append]
  rintro ⟨tail, htail⟩
  obtain ⟨c, cs, hdigits⟩ : ∃ c cs, (toString n).toList = c :: cs :=
    List.exists_cons_of_ne_nil (Numeral.spells_ofNat n).1
  rw [hdigits] at htail
  obtain rfl : 'e' = c := (List.cons.inj htail).1
  have hmem : 'e' ∈ (toString n).toList := by
    rw [hdigits]
    exact List.mem_cons_self
  exact notMem_toString rfl n hmem

theorem startsWith_error_iff {text : String} (h : ofImage config bytes memory = some text) :
    text.startsWith "error: " = true ↔
      ∃ e, Context.load id borrowed config bytes memory = .error (.raised e) := by
  cases hload : Context.load id borrowed config bytes memory with
  | error stop =>
      cases stop with
      | raised e =>
          obtain rfl := Option.some.inj ((ofImage_of_load_error hload).symm.trans h)
          refine ⟨fun _ => ⟨e, rfl⟩, fun _ => ?_⟩
          rw [String.startsWith_string_iff]
          simp only [String.toList_append, List.append_assoc]
          exact List.prefix_append _ _
      | _ =>
          simp only [ofImage, load_error_congr hload ⟨0⟩ true, reduceCtorEq] at h
  | ok c =>
      obtain rfl := Option.some.inj ((ofImage_of_load hload).symm.trans h)
      have hstart : ¬ (counts c.globals.length c.units.length ++
          unitLines 0 c.units).startsWith "error: " = true := by
        rw [counts, Numeral.ofNat_eq_toString]
        simp only [String.append_assoc]
        exact not_startsWith_error _ _
      simp [hstart]

/-- The listing of an image that was not loaded. -/
theorem isLines_of_load_error {e : ScriptError}
    (h : Context.load id borrowed config bytes memory = .error (.raised e)) :
    ∃ text n, ofImage config bytes memory = some text ∧ Announces bytes n ∧
      IsLines text ["error: " ++ e.message, toString n ++ " globals", "0 units"] := by
  refine ⟨_, _, ofImage_of_load_error h, announces_getD bytes, ?_⟩
  have hmessage : '\n' ∉ ("error: " ++ e.message).toList := by
    rw [notMem_append]
    exact ⟨by decide, newline_notMem_message_of_load h⟩
  have hcounts := isLines_lines ((Image.announcedGlobals? bytes).getD 0) []
  rw [unitLines, String.append_empty] at hcounts
  exact .cons hmessage hcounts

/-- Listings are the same exactly when they list the same. -/
theorem ofImage_eq_iff {memory' : Memory} {id' : ContextId} {borrowed' : Bool} {config' : Config}
    {bytes' : List UInt8} {c c' : Context}
    (h : Context.load id borrowed config bytes memory = .ok c)
    (h' : Context.load id' borrowed' config' bytes' memory' = .ok c') :
    ofImage config bytes memory = ofImage config' bytes' memory' ↔
      c.globals.length = c'.globals.length ∧ c.units = c'.units := by
  rw [ofImage_of_load h, ofImage_of_load h', Option.some.injEq]
  constructor
  · intro htext
    have hlines := isLines_lines c.globals.length c.units
    rw [htext] at hlines
    exact lines_injective (hlines.unique (isLines_lines c'.globals.length c'.units))
  · rintro ⟨hglobals, hunits⟩
    rw [hglobals, hunits]

/-- What the listing of a byte string tells, where `memory` can be had at once. -/
structure Faithful (memory : Memory) (id : ContextId) (borrowed : Bool) (config : Config)
    (bytes : List UInt8) : Prop where
  /-- There is a text exactly when there is room for what loading takes at once, -/
  exists_iff : (∃ text, ofImage config bytes memory = some text) ↔ Fits memory config.limits bytes
  /-- as there always is when the limits allow no more than has room. -/
  exists_of_limits : memory.holds config.limits.units Image.entrySize = true →
    memory.holds config.limits.globals Context.valueSize = true →
      ∃ text, ofImage config bytes memory = some text
  /-- The text starts as an error exactly when the image cannot be loaded. -/
  error_iff : ∀ text, ofImage config bytes memory = some text →
    (text.startsWith "error: " = true ↔
      ∃ e, Context.load id borrowed config bytes memory = .error (.raised e))
  /-- The lines of an image that can be loaded give the number of globals, the number of units
  and each unit in order. -/
  loaded : ∀ c, Context.load id borrowed config bytes memory = .ok c →
    ∃ text, ofImage config bytes memory = some text ∧
      IsLines text (lines c.globals.length c.units)
  /-- Two such images have the same listing exactly when they have as many globals and the same
  units. -/
  same_iff : ∀ c, Context.load id borrowed config bytes memory = .ok c →
    ∀ memory' id' borrowed' config' bytes' c',
      Context.load id' borrowed' config' bytes' memory' = .ok c' →
        (ofImage config bytes memory = ofImage config' bytes' memory' ↔
          c.globals.length = c'.globals.length ∧ c.units = c'.units)
  /-- The lines of what cannot be loaded are the error, the number of globals that the header
  announces, and no units. -/
  failed : ∀ e, Context.load id borrowed config bytes memory = .error (.raised e) →
    ∃ text n, ofImage config bytes memory = some text ∧ Announces bytes n ∧
      IsLines text ["error: " ++ e.message, toString n ++ " globals", "0 units"]
  width : ∀ width, ofImage { config with width } bytes memory = ofImage config bytes memory

end Listing

end ScriptCore
