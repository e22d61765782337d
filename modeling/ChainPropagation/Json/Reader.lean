import ChainPropagation.Json.Number

/-!
# Reading JSON text

Text is read in two folds. The first, over the characters, cuts it into
tokens: brackets, marks, texts and words. The second, over the tokens, keeps
the stack of brackets that are still open, each with what it holds so far.
Both are plain folds, so reading ends by itself on any text. Brackets may be
nested up to `depthLimit` deep.

Main definition: `Json.ofText?`.
-/

namespace ChainPropagation.Json

/-- A piece of JSON text. -/
inductive Token where
  | openArray
  | closeArray
  | openObject
  | closeObject
  | comma
  | colon
  /-- a text between quotes, its escapes resolved -/
  | text (s : String)
  /-- a number or one of the three constants -/
  | constant (j : Json)

/-! ## From characters to tokens -/

/-- Where in a token the text stands; characters are kept last one first. -/
inductive Place where
  | between
  | inWord (read : List Char)
  /-- inside quotes; `half` is the first half of a surrogate pair just read -/
  | inText (read : List Char) (half : Option Nat)
  | afterBackslash (read : List Char) (half : Option Nat)
  /-- inside the hexadecimal number of an escape -/
  | inEscape (read : List Char) (half : Option Nat) (digits : List Char)

/-- The token of a single character, if it is one. -/
def mark? : Char → Option Token
  | '[' => some .openArray
  | ']' => some .closeArray
  | '{' => some .openObject
  | '}' => some .closeObject
  | ',' => some .comma
  | ':' => some .colon
  | _ => none

/-- Blank, tab and the two line ends. -/
def isBlank (c : Char) : Bool := c == ' ' || c == '\t' || c == '\n' || c == '\r'

/-- The constant or number that a word writes. -/
def word (read : List Char) : Option Token :=
  match String.ofList read.reverse with
  | "null" => some (.constant .null)
  | "true" => some (.constant (.bool true))
  | "false" => some (.constant (.bool false))
  | _ => (number? read.reverse).map .constant

/-- The character that an escape of one letter stands for. -/
def escape? : Char → Option Char
  | '"' => some '"'
  | '\\' => some '\\'
  | '/' => some '/'
  | 'b' => some '\x08'
  | 'f' => some '\x0c'
  | 'n' => some '\n'
  | 'r' => some '\r'
  | 't' => some '\t'
  | _ => none

/-- The value of a hexadecimal digit. -/
def hexDigit? (c : Char) : Option Nat :=
  if c.isDigit then some (c.toNat - '0'.toNat)
  else if 'a' ≤ c ∧ c ≤ 'f' then some (c.toNat - 'a'.toNat + 10)
  else if 'A' ≤ c ∧ c ≤ 'F' then some (c.toNat - 'A'.toNat + 10)
  else none

/-- The place after an escaped unit of 16 bits: the first half of a pair waits
for the second one, and a second half needs a first. -/
def afterUnit (read : List Char) (half : Option Nat) (unit : Nat) : Option Place :=
  match half with
  | none =>
    if unit < 0xd800 ∨ 0xe000 ≤ unit then some (.inText (Char.ofNat unit :: read) none)
    else if unit < 0xdc00 then some (.inText read (some unit))
    else none
  | some first =>
    if 0xdc00 ≤ unit ∧ unit < 0xe000 then
      let code := 0x10000 + (first - 0xd800) * 0x400 + (unit - 0xdc00)
      some (.inText (Char.ofNat code :: read) none)
    else none

/-- The tokens so far, last one first, and the place in the text. -/
structure Cut where
  tokens : List Token
  place : Place

/-- Reads one character. -/
def Cut.step (cut : Cut) (c : Char) : Option Cut :=
  match cut.place with
  | .between =>
    match mark? c with
    | some token => some { cut with tokens := token :: cut.tokens }
    | none =>
      if isBlank c then some cut
      else if c == '"' then some { cut with place := .inText [] none }
      else some { cut with place := .inWord [c] }
  | .inWord read =>
    match mark? c with
    | some token => do
      return { tokens := token :: (← word read) :: cut.tokens, place := .between }
    | none =>
      if isBlank c then do
        return { tokens := (← word read) :: cut.tokens, place := .between }
      else if c == '"' then none
      else some { cut with place := .inWord (c :: read) }
  | .inText read half =>
    if c == '\\' then some { cut with place := .afterBackslash read half }
    else if half.isSome then none
    else if c == '"' then
      some { tokens := .text (String.ofList read.reverse) :: cut.tokens, place := .between }
    else if c.toNat < 0x20 then none
    else some { cut with place := .inText (c :: read) none }
  | .afterBackslash read half =>
    if c == 'u' then some { cut with place := .inEscape read half [] }
    else if half.isSome then none
    else do return { cut with place := .inText ((← escape? c) :: read) none }
  | .inEscape read half digits =>
    let digits := c :: digits
    if digits.length < 4 then some { cut with place := .inEscape read half digits }
    else do
      let values ← digits.reverse.mapM hexDigit?
      let unit := values.foldl (fun n d => 16 * n + d) 0
      return { cut with place := (← afterUnit read half unit) }

/-- The tokens of a text, in order. -/
def tokens? (text : String) : Option (List Token) := do
  let cut ← text.toList.foldlM Cut.step { tokens := [], place := .between }
  match cut.place with
  | .between => return cut.tokens.reverse
  | .inWord read => return ((← word read) :: cut.tokens).reverse
  | _ => none

/-! ## From tokens to values -/

/-- A bracket that is still open; what it holds is kept last one first. -/
inductive Bracket where
  | array (items : List Json)
  /-- an object, with the name that waits for its value -/
  | object (members : List (String × Json)) (name : String)

/-- What may come next. -/
inductive Expected where
  | value
  | valueOrEnd
  | name
  | nameOrEnd
  | colon
  | commaOrEnd
  deriving DecidableEq

/-- The open brackets, innermost first, and the value that was read outside all
of them. -/
structure Parse where
  brackets : List Bracket
  expected : Expected
  result : Option Json

/-- Puts a finished value where it belongs. -/
def Parse.put (p : Parse) (brackets : List Bracket) (j : Json) : Parse :=
  match brackets with
  | [] => { p with brackets := [], expected := .commaOrEnd, result := some j }
  | .array items :: outer =>
    { p with brackets := .array (j :: items) :: outer, expected := .commaOrEnd }
  | .object members name :: outer =>
    { p with brackets := .object ((name, j) :: members) "" :: outer, expected := .commaOrEnd }

/-- Whether a value may begin here. -/
def Parse.wantsValue (p : Parse) : Bool :=
  p.expected == .value || p.expected == .valueOrEnd

/-- Brackets may not be nested deeper than this. -/
def depthLimit : Nat := 127

/-- Whether a value in brackets may begin here. -/
def Parse.wantsBracket (p : Parse) : Bool :=
  p.wantsValue && p.brackets.length < depthLimit

/-- Reads one token. -/
def Parse.step (p : Parse) (token : Token) : Option Parse :=
  match token, p.brackets with
  | .constant j, brackets => if p.wantsValue then some (p.put brackets j) else none
  | .text s, brackets =>
    if p.wantsValue then some (p.put brackets (.str s))
    else if p.expected == .name || p.expected == .nameOrEnd then
      match brackets with
      | .object members _ :: outer =>
        some { p with brackets := .object members s :: outer, expected := .colon }
      | _ => none
    else none
  | .openArray, brackets =>
    if p.wantsBracket then
      some { p with brackets := .array [] :: brackets, expected := .valueOrEnd }
    else none
  | .openObject, brackets =>
    if p.wantsBracket then
      some { p with brackets := .object [] "" :: brackets, expected := .nameOrEnd }
    else none
  | .closeArray, .array items :: outer =>
    if p.expected == .valueOrEnd || p.expected == .commaOrEnd then
      some (p.put outer (.arr items.reverse))
    else none
  | .closeObject, .object members _ :: outer =>
    if p.expected == .nameOrEnd || p.expected == .commaOrEnd then
      some (p.put outer (.obj members.reverse))
    else none
  | .comma, .array _ :: _ =>
    if p.expected == .commaOrEnd then some { p with expected := .value } else none
  | .comma, .object _ _ :: _ =>
    if p.expected == .commaOrEnd then some { p with expected := .name } else none
  | .colon, .object _ _ :: _ =>
    if p.expected == .colon then some { p with expected := .value } else none
  | _, _ => none

/-- The value that a text writes. -/
def ofText? (text : String) : Option Json := do
  let tokens ← tokens? text
  let parse ← tokens.foldlM Parse.step { brackets := [], expected := .value, result := none }
  if parse.brackets.isEmpty then parse.result else none

end ChainPropagation.Json
