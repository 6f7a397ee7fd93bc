/-! # Dictionaries

A finite map as its entries in increasing order of their keys. The order is part of the
type, so two dictionaries with the same entries are equal, in whatever order they were
filled.
-/

namespace ScriptCore

variable {κ α : Type}

/-- `k` comes behind `low`, where there is one. -/
def Behind [Ord κ] : Option κ → κ → Prop
  | none, _ => True
  | some l, k => compare l k = .lt

theorem Behind.trans [Ord κ] [Std.TransOrd κ] {low : Option κ} {k l : κ} (hk : Behind low k)
    (hl : compare k l = .lt) : Behind low l := by
  cases low with
  | none => trivial
  | some m => exact Std.TransCmp.lt_trans hk hl

/-- Entries with increasing keys, all behind `low`. The constructors carry the order, and
not a field beside a list, so that a value can hold a table of values. -/
inductive Ascending (κ α : Type) [Ord κ] : Option κ → Type where
  | nil {low : Option κ} : Ascending κ α low
  | cons {low : Option κ} (k : κ) (a : α) (behind : Behind low k)
      (rest : Ascending κ α (some k)) : Ascending κ α low

/-- The keys of a list of entries increase. -/
def Increasing [Ord κ] (entries : List (κ × α)) : Prop :=
  entries.Pairwise fun x y => compare x.1 y.1 = .lt

namespace Ascending

variable [Ord κ] {low : Option κ}

def toList {low : Option κ} : Ascending κ α low → List (κ × α)
  | .nil => []
  | .cons k a _ rest => (k, a) :: rest.toList

def ofList {low : Option κ} : (entries : List (κ × α)) → (∀ entry ∈ entries, Behind low entry.1) →
    Increasing entries → Ascending κ α low
  | [], _, _ => .nil
  | (k, a) :: rest, hlow, h =>
      .cons k a (hlow (k, a) List.mem_cons_self)
        (ofList rest (List.pairwise_cons.mp h).1 (List.pairwise_cons.mp h).2)

theorem toList_ofList {entries : List (κ × α)} (hlow : ∀ entry ∈ entries, Behind low entry.1)
    (h : Increasing entries) : (ofList entries hlow h).toList = entries := by
  induction entries generalizing low with
  | nil => rfl
  | cons entry rest ih => exact congrArg (entry :: ·) (ih _ _)

theorem toList_injective {d e : Ascending κ α low} (h : d.toList = e.toList) : d = e := by
  induction d with
  | nil =>
      cases e with
      | nil => rfl
      | cons l b behind rest => contradiction
  | cons k a behind rest ih =>
      cases e with
      | nil => contradiction
      | cons l b behind' rest' =>
          obtain ⟨hentry, hrest⟩ := List.cons.inj h
          obtain ⟨rfl, rfl⟩ := Prod.mk.inj hentry
          rw [ih hrest]

variable [Std.TransOrd κ]

theorem behind_toList (d : Ascending κ α low) : ∀ entry ∈ d.toList, Behind low entry.1 := by
  induction d with
  | nil => nofun
  | cons k a behind rest ih =>
      intro entry hentry
      rcases List.mem_cons.mp hentry with rfl | hmem
      · exact behind
      · exact behind.trans (ih entry hmem)

theorem increasing_toList (d : Ascending κ α low) : Increasing d.toList := by
  induction d with
  | nil => exact List.Pairwise.nil
  | cons k a behind rest ih => exact List.pairwise_cons.mpr ⟨rest.behind_toList, ih⟩

end Ascending

structure Dictionary (κ α : Type) [Ord κ] where
  ascending : Ascending κ α none

namespace Dictionary

variable [Ord κ] {d e : Dictionary κ α} {entry : κ × α} {k : κ} {a : α}

def empty : Dictionary κ α := ⟨.nil⟩

def entries (d : Dictionary κ α) : List (κ × α) := d.ascending.toList

def ofEntries (entries : List (κ × α)) (h : Increasing entries) : Dictionary κ α :=
  ⟨.ofList entries (fun _ _ => trivial) h⟩

@[simp] theorem entries_ofEntries {entries : List (κ × α)} (h : Increasing entries) :
    (ofEntries entries h).entries = entries :=
  Ascending.toList_ofList _ h

theorem entries_injective (h : d.entries = e.entries) : d = e :=
  congrArg Dictionary.mk (Ascending.toList_injective h)

theorem increasing_entries [Std.TransOrd κ] (d : Dictionary κ α) : Increasing d.entries :=
  d.ascending.increasing_toList

def size (d : Dictionary κ α) : Nat := d.entries.length

def isEmpty (d : Dictionary κ α) : Bool := d.entries.isEmpty

def keys (d : Dictionary κ α) : List κ := d.entries.map Prod.fst

/-- The value stored under `k`; behind the first larger key there is none. -/
def find (k : κ) : List (κ × α) → Option α
  | [] => none
  | (l, a) :: rest =>
      match compare k l with
      | .lt => none
      | .eq => some a
      | .gt => find k rest

/-- Places `a` under `k` before the first larger key, or over the old value of `k`. -/
def place (k : κ) (a : α) : List (κ × α) → List (κ × α)
  | [] => [(k, a)]
  | (l, b) :: rest =>
      match compare k l with
      | .lt => (k, a) :: (l, b) :: rest
      | .eq => (k, a) :: rest
      | .gt => (l, b) :: place k a rest

/-- Every entry is the one that was placed, or was there before. -/
theorem mem_place {entries : List (κ × α)} (h : entry ∈ place k a entries) :
    entry = (k, a) ∨ entry ∈ entries := by
  induction entries with
  | nil => exact .inl (List.mem_singleton.mp h)
  | cons first rest ih =>
      rw [place] at h
      split at h
      · exact List.mem_cons.mp h
      · rcases List.mem_cons.mp h with heq | hmem
        · exact .inl heq
        · exact .inr (List.mem_cons_of_mem first hmem)
      · rcases List.mem_cons.mp h with heq | hmem
        · exact .inr (List.mem_cons.mpr (.inl heq))
        · rcases ih hmem with heq | hrest
          · exact .inl heq
          · exact .inr (List.mem_cons_of_mem first hrest)

theorem increasing_place [Std.TransOrd κ] [Std.LawfulEqOrd κ] {entries : List (κ × α)}
    (h : Increasing entries) : Increasing (place k a entries) := by
  fun_induction place k a entries with
  | case1 => exact List.pairwise_singleton _ _
  | case2 l b rest hlt =>
      obtain ⟨hfirst, hrest⟩ := List.pairwise_cons.mp h
      refine List.pairwise_cons.mpr ⟨?_, h⟩
      intro entry hentry
      rcases List.mem_cons.mp hentry with rfl | hmem
      · exact hlt
      · exact Std.TransCmp.lt_trans hlt (hfirst entry hmem)
  | case3 l b rest heq =>
      obtain rfl := Std.LawfulEqCmp.eq_of_compare heq
      exact List.pairwise_cons.mpr (List.pairwise_cons.mp h)
  | case4 l b rest hgt ih =>
      obtain ⟨hfirst, hrest⟩ := List.pairwise_cons.mp h
      refine List.pairwise_cons.mpr ⟨?_, ih hrest⟩
      intro entry hentry
      rcases mem_place hentry with rfl | hmem
      · exact Std.OrientedCmp.gt_iff_lt.mp hgt
      · exact hfirst entry hmem

def get? (d : Dictionary κ α) (k : κ) : Option α :=
  find k d.entries

def contains (d : Dictionary κ α) (k : κ) : Bool :=
  (d.get? k).isSome

variable [Std.TransOrd κ]

def erase (d : Dictionary κ α) (k : κ) : Dictionary κ α :=
  ofEntries (d.entries.filter fun e => compare k e.1 != .eq)
    (List.Pairwise.filter _ d.increasing_entries)

variable [Std.LawfulEqOrd κ]

def insert (d : Dictionary κ α) (k : κ) (a : α) : Dictionary κ α :=
  ofEntries (place k a d.entries) (increasing_place d.increasing_entries)

end Dictionary

end ScriptCore
