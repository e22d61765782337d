/-!
# Faults

Models and schedules may be read from outside without being checked, so a
model can announce more nodes than its rank list covers, or a horizon whose
table could never be stored. A computation that meets such a contradiction
stops with a `Fault`. On a model that was built from a checked problem most
of them cannot occur.

`Checked α` is a computation that ends in an `α` or in a fault. Numbers are
unbounded in this library; where a quantity has to fit a machine word,
`fitting` says so, and where a list has to be stored, `storing`. An entry of a
list is asked for by `lookUp`, one of an array by `entry`, and `amend` changes
one that has to be there.
-/

namespace ChainPropagation

/-- Why a computation cannot go on. -/
inductive Fault where
  /-- a node set cannot hold an id this large -/
  | idTooLarge (id : Nat)
  /-- a number leaves the range of a machine word -/
  | tooLarge
  /-- the far end of a chain without nodes was asked for -/
  | emptyChain
  /-- a list is shorter than the index looked up in it -/
  | outOfBounds (index length : Nat)
  /-- a node was told to execute a second time -/
  | executedTwice (node : Nat)
  /-- time was to go on past the horizon -/
  | pastHorizon
  /-- a run was to end while messages are still on their way -/
  | undelivered
  deriving DecidableEq

/-- A computation that may meet a fault. -/
abbrev Checked := Except Fault

/-- The number of values of a machine word. -/
def wordLimit : Nat := 1 <<< 64

/-- `n` itself, provided that it fits a machine word. -/
def fitting (n : Nat) : Checked Nat :=
  if n < wordLimit then .ok n else .error .tooLarge

/-- What is left of a number after a part of it is taken away. -/
def without (n part : Nat) : Checked Nat := if part ≤ n then .ok (n - part) else .error .tooLarge

/-- A list of this many words or more cannot be stored: the bytes in it could
not be counted with a sign in 64 bits. -/
def storageLimit : Nat := 1 <<< 60

/-- Makes sure that a list of so many words can be stored. -/
def storing (words : Nat) : Checked Unit :=
  if words < storageLimit then .ok () else .error .tooLarge

/-- The entry at `index` of a list that may be too short. -/
def lookUp {α : Type} (entries : List α) (index : Nat) : Checked α :=
  match entries[index]? with
  | some a => .ok a
  | none => .error (.outOfBounds index entries.length)

/-- The entry of an array at an index, which has to be in it. -/
def entry {α : Type} (entries : Array α) (index : Nat) : Checked α :=
  match entries[index]? with
  | some a => .ok a
  | none => .error (.outOfBounds index entries.size)

/-- An array with one entry changed, which has to be there. -/
def amend {α : Type} (entries : Array α) (index : Nat) (change : α → Checked α) :
    Checked (Array α) := do
  return entries.setIfInBounds index (← change (← entry entries index))

/-- The entries of a list that are to be kept, asked about one after another. -/
def Checked.filter {α : Type} (keep : α → Checked Bool) : List α → Checked (List α)
  | [] => .ok []
  | a :: rest => do
    let kept ← keep a
    let others ← filter keep rest
    return if kept then a :: others else others

/-! ## What comes out without a fault -/

theorem fitting_of_lt {n : Nat} (h : n < wordLimit) : fitting n = .ok n := by
  simp [fitting, h]

theorem eq_of_fitting {n a : Nat} (h : fitting n = .ok a) : a = n := by
  unfold fitting at h
  split at h <;> cases h
  rfl

theorem storing_of_lt {words : Nat} (h : words < storageLimit) : storing words = .ok () := by
  simp [storing, h]

theorem without_of_le {n part : Nat} (h : part ≤ n) : without n part = .ok (n - part) :=
  if_pos h

theorem lookUp_of_lt {α : Type} {entries : List α} {index : Nat}
    (h : index < entries.length) : lookUp entries index = .ok entries[index] := by
  simp [lookUp, h]

theorem entry_eq {α : Type} {entries : Array α} {index : Nat} (d : α)
    (h : index < entries.size) : entry entries index = .ok (entries.getD index d) := by
  rw [entry, Array.getElem?_eq_getElem h, Array.getD_eq_getD_getElem?,
    Array.getElem?_eq_getElem h]
  rfl

/-- An entry that was found is in the array. -/
theorem lt_of_entry {α : Type} {entries : Array α} {index : Nat} {a : α}
    (h : entry entries index = .ok a) : index < entries.size ∧ ∀ d, entries.getD index d = a := by
  unfold entry at h
  split at h
  · rename_i hsome
    cases h
    refine ⟨(Array.getElem?_eq_some_iff.1 hsome).1, fun d => ?_⟩
    rw [Array.getD_eq_getD_getElem?, hsome]
    rfl
  · cases h

/-- A computation that ended well goes on with what came out. -/
@[simp] theorem ok_bind {ε α β : Type} (a : α) (f : α → Except ε β) :
    (Except.ok a >>= f) = f a := rfl

@[simp] theorem pure_eq_ok {ε α : Type} (a : α) : (pure a : Except ε α) = .ok a := rfl

/-- What a checked computation that ended well went through. -/
theorem bind_eq_ok {α β : Type} {x : Checked α} {f : α → Checked β} {b : β} :
    (x >>= f) = .ok b ↔ ∃ a, x = .ok a ∧ f a = .ok b := by
  cases x with
  | error e => simp [bind, Except.bind]
  | ok a => simp [bind, Except.bind]

/-- To change an entry that is there is to put another one in its place. -/
theorem amend_of_entry {α : Type} {entries : Array α} {index : Nat} {change : α → Checked α}
    {a b : α} (h : entry entries index = .ok a) (hchange : change a = .ok b) :
    amend entries index change = .ok (entries.setIfInBounds index b) := by
  rw [amend, h, ok_bind, hchange, ok_bind, pure_eq_ok]

theorem setIfInBounds_eq_modify {α : Type} {entries : Array α} {index : Nat} (next : α → α) (d : α)
    (h : index < entries.size) :
    entries.setIfInBounds index (next (entries.getD index d)) = entries.modify index next := by
  have hget : entries.getD index d = entries[index] := by
    rw [Array.getD_eq_getD_getElem?, Array.getElem?_eq_getElem h]
    rfl
  apply Array.ext (by simp)
  intro at_ _ hin
  rw [Array.size_modify] at hin
  rw [Array.getElem_setIfInBounds hin, Array.getElem_modify, hget]
  split
  · rename_i hat
    subst hat
    rfl
  · rfl

theorem amend_eq {α : Type} {entries : Array α} {index : Nat} {change : α → Checked α}
    {next : α → α} (h : index < entries.size) (hchange : ∀ a, change a = .ok (next a)) :
    amend entries index change = .ok (entries.modify index next) := by
  rw [amend_of_entry (entry_eq entries[index] h) (hchange _), setIfInBounds_eq_modify next _ h]

theorem eq_modify_of_amend {α : Type} {entries result : Array α} {index : Nat}
    {change : α → Checked α} {next : α → α} (hchange : ∀ a b, change a = .ok b → b = next a)
    (h : amend entries index change = .ok result) : result = entries.modify index next := by
  obtain ⟨a, hentry, h⟩ := bind_eq_ok.1 h
  obtain ⟨b, hb, h⟩ := bind_eq_ok.1 h
  cases h
  obtain ⟨hlt, hget⟩ := lt_of_entry hentry
  have hsame := setIfInBounds_eq_modify next a hlt
  rwa [hget, ← hchange a b hb] at hsame

/-- Questions that all end well are answered one by one. -/
theorem mapM_eq_ok {α β : Type} {f : α → Checked β} {answer : α → β} {entries : List α}
    (h : ∀ a ∈ entries, f a = .ok (answer a)) : entries.mapM f = .ok (entries.map answer) := by
  induction entries with
  | nil => rfl
  | cons a rest ih =>
    rw [List.mapM_cons, h a (List.mem_cons_self ..),
      ih fun b hb => h b (List.mem_cons_of_mem _ hb)]
    rfl

/-- All of them have to end well. -/
theorem exists_of_mapM {α β : Type} {f : α → Checked β} {entries : List α} {answers : List β}
    (h : entries.mapM f = .ok answers) : ∀ a ∈ entries, ∃ b, f a = .ok b := by
  induction entries generalizing answers with
  | nil => nofun
  | cons a rest ih =>
    rw [List.mapM_cons] at h
    obtain ⟨b, hb, h⟩ := bind_eq_ok.1 h
    obtain ⟨others, hothers, _⟩ := bind_eq_ok.1 h
    intro a' ha'
    rcases List.mem_cons.1 ha' with rfl | hrest
    · exact ⟨b, hb⟩
    · exact ih hothers a' hrest

theorem length_of_mapM {α β : Type} {f : α → Checked β} {xs : List α} {ys : List β}
    (h : xs.mapM f = .ok ys) : ys.length = xs.length := by
  induction xs generalizing ys with
  | nil =>
    cases h
    rfl
  | cons x xs ih =>
    rw [List.mapM_cons] at h
    obtain ⟨y, _, h⟩ := bind_eq_ok.1 h
    obtain ⟨zs, hz, h⟩ := bind_eq_ok.1 h
    cases h
    simp [ih hz]

/-- What no step of a fold changes is the same in the end. -/
theorem eq_of_foldlM {α β γ : Type} {f : β → α → Checked β} (view : β → γ)
    (hstep : ∀ {b a c}, f b a = .ok c → view c = view b) {entries : List α} {first last : β}
    (h : entries.foldlM f first = .ok last) : view last = view first := by
  induction entries generalizing first with
  | nil =>
    cases h
    rfl
  | cons a rest ih =>
    rw [List.foldlM_cons] at h
    obtain ⟨b, hb, h⟩ := bind_eq_ok.1 h
    exact (ih h).trans (hstep hb)

theorem Checked.filter_eq_ok {α : Type} {keep : α → Checked Bool} {kept : α → Bool}
    {entries : List α} (h : ∀ a ∈ entries, keep a = .ok (kept a)) :
    Checked.filter keep entries = .ok (entries.filter kept) := by
  induction entries with
  | nil => rfl
  | cons a rest ih =>
    rw [filter, h a (List.mem_cons_self ..), ih fun b hb => h b (List.mem_cons_of_mem _ hb),
      List.filter_cons]
    rfl

/-- A search whose questions all end well finds what it would find anyway. -/
theorem findM?_eq_ok {α : Type} {asked : α → Checked Bool} {has : α → Bool} {entries : List α}
    (h : ∀ a ∈ entries, asked a = .ok (has a)) :
    entries.findM? asked = .ok (entries.find? has) := by
  induction entries with
  | nil => rfl
  | cons a rest ih =>
    rw [List.findM?, h a (List.mem_cons_self ..), ih fun b hb => h b (List.mem_cons_of_mem _ hb),
      List.find?_cons]
    cases has a <;> rfl

theorem Checked.filter_sublist {α : Type} {keep : α → Checked Bool} {entries kept : List α}
    (h : Checked.filter keep entries = .ok kept) : kept.Sublist entries := by
  induction entries generalizing kept with
  | nil =>
    cases h
    exact .refl _
  | cons a rest ih =>
    obtain ⟨k, _, h⟩ := bind_eq_ok.1 h
    obtain ⟨others, hr, h⟩ := bind_eq_ok.1 h
    cases h
    cases k
    · exact (ih hr).cons a
    · exact (ih hr).cons_cons a

end ChainPropagation
