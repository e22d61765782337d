import ChainPropagation.Json

/-!
# Writing JSON text

Values are written without blanks. In texts only the quote, the backslash and
control characters are escaped. Members keep their order. A double is written
with all the digits of its value, so that it reads back as itself.

Main definition: `Json.text`.
-/

namespace ChainPropagation.Json

/-- The hexadecimal digit of a number below 16. -/
def hexDigit (n : Nat) : Char :=
  if n < 10 then Char.ofNat ('0'.toNat + n) else Char.ofNat ('a'.toNat + (n - 10))

/-- The lowest `width` hexadecimal digits of `n`, highest first. -/
def hexText (n : Nat) : (width : Nat) → String
  | 0 => ""
  | width + 1 => (hexText (n / 16) width).push (hexDigit (n % 16))

/-- How a character is written between quotes. -/
def escapedChar (c : Char) : String :=
  if c == '"' then "\\\""
  else if c == '\\' then "\\\\"
  else if c.toNat < 0x20 then "\\u" ++ hexText c.toNat 4
  else c.toString

/-- A text between quotes. -/
def quoted (s : String) : String :=
  (s.toList.foldl (fun acc c => acc ++ escapedChar c) "\"").push '"'

/-- A double that is `digits · 2 ^ exponent` as a decimal number. Halving is
multiplying by five and moving the point. -/
def binaryText (digits : Nat) (exponent : Int) : String :=
  if exponent < 0 then
    toString (digits * Nat.pow 5 (-exponent).toNat) ++ "e" ++ toString exponent
  else toString (digits <<< exponent.toNat) ++ "e0"

/-- The text of a double; `null` if it is not a number or not finite. -/
def realText (x : Float) : String :=
  let bits := x.toBits.toNat
  let field : Nat := (bits >>> 52) % 2048
  let fraction : Nat := bits % (1 <<< 52)
  if field = 2047 then "null"
  else
    (if 1 <<< 63 ≤ bits then "-" else "") ++
      (if field = 0 then binaryText fraction (-1074)
       else binaryText (1 <<< 52 + fraction) ((field : Int) - 1075))

mutual

/-- Appends the text of a value to `acc`. -/
def appendTo (acc : String) : Json → String
  | .null => acc ++ "null"
  | .bool true => acc ++ "true"
  | .bool false => acc ++ "false"
  | .int n => acc ++ toString n
  | .real x => acc ++ realText x
  | .str s => acc ++ quoted s
  | .arr items => (appendItems (acc.push '[') items).push ']'
  | .obj members => (appendMembers (acc.push '{') members).push '}'

/-- Appends entries, a comma between any two. -/
def appendItems (acc : String) : List Json → String
  | [] => acc
  | [j] => appendTo acc j
  | j :: k :: rest => appendItems ((appendTo acc j).push ',') (k :: rest)

/-- Appends members, a comma between any two. -/
def appendMembers (acc : String) : List (String × Json) → String
  | [] => acc
  | [(name, j)] => appendTo (acc ++ quoted name ++ ":") j
  | (name, j) :: m :: rest =>
    appendMembers ((appendTo (acc ++ quoted name ++ ":") j).push ',') (m :: rest)

end

/-- The text of a value. -/
def text (j : Json) : String := appendTo "" j

end ChainPropagation.Json
