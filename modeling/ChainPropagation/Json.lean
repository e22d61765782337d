/-!
# JSON values

Problems, models, schedules and outcomes are exchanged as JSON. A value keeps
apart what a reader of records has to tell apart: whole numbers (`int`) that a
machine word or a negative 64-bit number can hold, and all other numbers
(`real`).

The second half reads values as parts of records. A record is written either
as an object, whose members are found by name, or as an array that lists the
members in order. Every reader answers `none` for a value of another shape.
-/

namespace ChainPropagation

/-- A JSON value. -/
inductive Json where
  | null
  | bool (b : Bool)
  /-- a number written without fraction and exponent, at most 64 bits wide -/
  | int (n : Int)
  /-- any other number -/
  | real (x : Float)
  | str (s : String)
  | arr (items : List Json)
  | obj (members : List (String × Json))

namespace Json

/-- A natural number as a JSON value. -/
def nat (n : Nat) : Json := .int n

/-- A list as a JSON array. -/
def list {α : Type} (form : α → Json) (entries : List α) : Json := .arr (entries.map form)

/-- `null` for nothing. -/
def option {α : Type} (form : α → Json) : Option α → Json
  | none => .null
  | some a => form a

/-! ## Reading scalars and lists -/

def bool? : Json → Option Bool
  | .bool b => some b
  | _ => none

def str? : Json → Option String
  | .str s => some s
  | _ => none

/-- A whole number from `low` to `high`. -/
def intWithin? (low high : Int) : Json → Option Int
  | .int n => if low ≤ n ∧ n ≤ high then some n else none
  | _ => none

/-- A number that fits an unsigned machine word. -/
def nat? (j : Json) : Option Nat := (j.intWithin? 0 0xffffffffffffffff).map Int.toNat

/-- A whole number of 32 bits with sign. -/
def int32? (j : Json) : Option Int := j.intWithin? (-0x80000000) 0x7fffffff

/-- Every entry of an array, each read by `entry`. -/
def list? {α : Type} (entry : Json → Option α) : Json → Option (List α)
  | .arr items => items.mapM entry
  | _ => none

/-- `null`, or what `value` reads. -/
def option? {α : Type} (value : Json → Option α) : Json → Option (Option α)
  | .null => some none
  | j => (value j).map some

/-! ## Reading records -/

/-- The member called `name`; the last one, if several are. -/
def member? (members : List (String × Json)) (name : String) : Option Json :=
  (members.reverse.find? (·.1 == name)).map (·.2)

/-- The members of a record whose fields are `names`, in this order: an object
as it is, an array of exactly as many entries with its names supplied. -/
def record? (names : List String) : Json → Option (List (String × Json))
  | .obj members => some members
  | .arr items => if items.length = names.length then some (names.zip items) else none
  | _ => none

/-- As `record?`, but an array may leave out entries at its end. -/
def partialRecord? (names : List String) : Json → Option (List (String × Json))
  | .obj members => some members
  | .arr items => if items.length ≤ names.length then some (names.zip items) else none
  | _ => none

/-- The value of a field that has to be there. -/
def field? {α : Type} (members : List (String × Json)) (name : String)
    (value : Json → Option α) : Option α :=
  (member? members name).bind value

/-- The value of a field that may be missing or `null`. -/
def optionalField? {α : Type} (members : List (String × Json)) (name : String)
    (value : Json → Option α) : Option (Option α) :=
  match member? members name with
  | none => some none
  | some j => j.option? value

/-- The value of a field that stands for `default` where it is missing. -/
def defaultField? {α : Type} (members : List (String × Json)) (name : String)
    (default : α) (value : Json → Option α) : Option α :=
  match member? members name with
  | none => some default
  | some j => value j

/-- The word of an enumeration: a string, or an object whose only member has
the word for its name and `null` for its value. -/
def word? : Json → Option String
  | .str s => some s
  | .obj [(name, .null)] => some name
  | _ => none

/-- As `word?`, but the value beside the word may also be an empty object. -/
def looseWord? : Json → Option String
  | .obj [(name, .obj [])] => some name
  | j => j.word?

end Json

end ChainPropagation
