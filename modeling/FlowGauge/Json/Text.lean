import FlowGauge.Decimal
import FlowGauge.Json

/-!
# JSON text

`Json.read?` reads a document from its text and `Json.text` writes one. Reading keeps whole numbers
and doubles apart: a number without a fraction or an exponent is whole when it fits 64 bits, and
every other number is the nearest double. Of two fields with the same name the last one counts.
Nesting is limited.

Doubles are written as quoted texts with six places, because neither infinities nor values that are
not numbers have a JSON number.
-/

namespace FlowGauge.Json

/-! ### Reading -/

/-- Whether a character may stand between the parts of a document. -/
def isBlank (c : Char) : Bool :=
  c == ' ' || c == '\n' || c == '\t' || c == '\r'

/-- The value of a hexadecimal digit. -/
def hexDigit? (c : Char) : Option Nat :=
  if c.isDigit then some (c.toNat - 48)
  else if 'a' ≤ c && c ≤ 'f' then some (c.toNat - 87)
  else if 'A' ≤ c && c ≤ 'F' then some (c.toNat - 55)
  else none

/-- The value of four hexadecimal digits. -/
def unit? (a b c d : Char) : Option Nat := do
  return (((← hexDigit? a) * 16 + (← hexDigit? b)) * 16 + (← hexDigit? c)) * 16 + (← hexDigit? d)

/-- The character of an escape with one letter. -/
def unescape? : Char → Option Char
  | '"' => some '"'
  | '\\' => some '\\'
  | '/' => some '/'
  | 'b' => some (Char.ofNat 8)
  | 'f' => some (Char.ofNat 12)
  | 'n' => some '\n'
  | 'r' => some '\r'
  | 't' => some '\t'
  | _ => none

/-- Read a text up to its closing quote. The characters read so far are in reverse; `high` is the
first half of a pair of 16-bit units, whose second half must follow at once. -/
def quoted? (read : List Char) (high : Option Nat) : List Char → Option (String × List Char)
  | [] => none
  | '"' :: rest => if high.isSome then none else some (String.ofList read.reverse, rest)
  | '\\' :: 'u' :: a :: b :: c :: d :: rest => do
    let unit ← unit? a b c d
    match high with
    | some h =>
      if 0xDC00 ≤ unit ∧ unit < 0xE000 then
        quoted? (Char.ofNat (0x10000 + (h - 0xD800) * 1024 + (unit - 0xDC00)) :: read) none rest
      else none
    | none =>
      if 0xD800 ≤ unit ∧ unit < 0xDC00 then quoted? read (some unit) rest
      else if 0xDC00 ≤ unit ∧ unit < 0xE000 then none
      else quoted? (Char.ofNat unit :: read) none rest
  | '\\' :: c :: rest => do
    let c ← unescape? c
    if high.isSome then none else quoted? (c :: read) none rest
  | c :: rest => if high.isSome || c.toNat < 32 then none else quoted? (c :: read) none rest

/-- The number with the given decimal digits. -/
def ofDigits (digits : List Char) : Nat :=
  digits.foldl (fun n c ↦ n * 10 + (c.toNat - 48)) 0

/-- The double nearest to `m * 10 ^ e`; `none` when it is too large. -/
def double? (negative : Bool) (m : Nat) (e : Int) : Option Float :=
  let magnitude : Int := (toString m).length + e
  let x : Float :=
    if m = 0 || magnitude < -400 then 0.0
    else if 400 < magnitude then 1.0 / 0.0
    else if 0 ≤ e then Float.ofScientific (m * Nat.pow 10 e.toNat) false 0
    else Float.ofScientific m true (-e).toNat
  if x.isInf then none else some (if negative then -x else x)

/-- The digits at the start of a text, and what follows. -/
def digits (cs : List Char) : List Char × List Char :=
  (cs.takeWhile Char.isDigit, cs.dropWhile Char.isDigit)

/-- Read the fraction of a number, if there is one. -/
def fraction? : List Char → Option (Option (List Char) × List Char)
  | '.' :: rest =>
    match digits rest with
    | ([], _) => none
    | (ds, rest) => some (some ds, rest)
  | cs => some (none, cs)

/-- Read the exponent of a number, if there is one. -/
def exponent? : List Char → Option (Option Int × List Char)
  | [] => some (none, [])
  | c :: rest =>
    if c == 'e' || c == 'E' then
      let (down, rest) := match rest with
        | '-' :: rest => (true, rest)
        | '+' :: rest => (false, rest)
        | rest => (false, rest)
      match digits rest with
      | ([], _) => none
      | (ds, rest) =>
        let n : Int := ofDigits ds
        some (some (if down then -n else n), rest)
    else some (none, c :: rest)

/-- Read a number. -/
def number? (cs : List Char) : Option (Json × List Char) := do
  let (negative, cs) := match cs with
    | '-' :: rest => (true, rest)
    | cs => (false, cs)
  let (whole, cs) := digits cs
  if whole.isEmpty || (whole.head? == some '0' && 1 < whole.length) then none
  let (fraction, cs) ← fraction? cs
  let (exponent, cs) ← exponent? cs
  let places := fraction.getD []
  let m := ofDigits (whole ++ places)
  if fraction.isNone && exponent.isNone then
    if negative && 0 < m && m ≤ Word.bound 63 then return (.int (-(m : Int)), cs)
    if !negative && m < Word.bound 64 then return (.int m, cs)
  return (.float (← double? negative m (exponent.getD 0 - places.length)), cs)

/-- Set a field, in its old place if there is one of that name. -/
def setField (fields : List (String × Json)) (name : String) (v : Json) : List (String × Json) :=
  if fields.any (·.1 == name) then fields.map fun f ↦ if f.1 == name then (name, v) else f
  else fields ++ [(name, v)]

/-- The greatest depth of nested lists and objects, plus one. -/
def depthLimit : Nat :=
  128

mutual

/-- Read a document. Every step costs fuel, and two steps read at least one character. -/
def value? (fuel depth : Nat) (cs : List Char) : Option (Json × List Char) :=
  match fuel with
  | 0 => none
  | fuel + 1 =>
    match cs.dropWhile isBlank with
    | 'n' :: 'u' :: 'l' :: 'l' :: rest => some (.null, rest)
    | 't' :: 'r' :: 'u' :: 'e' :: rest => some (.bool true, rest)
    | 'f' :: 'a' :: 'l' :: 's' :: 'e' :: rest => some (.bool false, rest)
    | '"' :: rest => (quoted? [] none rest).map fun (s, rest) ↦ (.str s, rest)
    | '[' :: rest =>
      if depth ≤ 1 then none
      else match rest.dropWhile isBlank with
        | ']' :: rest => some (.arr [], rest)
        | rest => items? fuel (depth - 1) [] rest
    | '\x7b' :: rest =>
      if depth ≤ 1 then none
      else match rest.dropWhile isBlank with
        | '\x7d' :: rest => some (.obj [], rest)
        | rest => fields? fuel (depth - 1) [] rest
    | cs => number? cs

/-- Read the items of a list; those read so far are in reverse. -/
def items? (fuel depth : Nat) (read : List Json) (cs : List Char) : Option (Json × List Char) :=
  match fuel with
  | 0 => none
  | fuel + 1 => do
    let (v, rest) ← value? fuel depth cs
    match rest.dropWhile isBlank with
    | ',' :: rest => items? fuel depth (v :: read) rest
    | ']' :: rest => some (.arr (v :: read).reverse, rest)
    | _ => none

/-- Read the fields of an object. -/
def fields? (fuel depth : Nat) (read : List (String × Json)) (cs : List Char) :
    Option (Json × List Char) :=
  match fuel with
  | 0 => none
  | fuel + 1 =>
    match cs.dropWhile isBlank with
    | '"' :: rest => do
      let (name, rest) ← quoted? [] none rest
      match rest.dropWhile isBlank with
      | ':' :: rest => do
        let (v, rest) ← value? fuel depth rest
        let read := setField read name v
        match rest.dropWhile isBlank with
        | ',' :: rest => fields? fuel depth read rest
        | '\x7d' :: rest => some (.obj read, rest)
        | _ => none
      | _ => none
    | _ => none

end

/-- Read a document from its text. -/
def read? (s : String) : Option Json := do
  let cs := s.toList
  let (v, rest) ← value? (2 * cs.length + 2) depthLimit cs
  if rest.all isBlank then some v else none

/-! ### Writing -/

/-- The written form of a character in a text. -/
def escaped (c : Char) : String :=
  if c == '"' then "\\\""
  else if c == '\\' then "\\\\"
  else if c.toNat < 32 then
    let digits := Nat.toDigits 16 c.toNat
    "\\u" ++ String.ofList (List.replicate (4 - digits.length) '0' ++ digits)
  else c.toString

/-- Write a text in quotes behind `out`. -/
def appendQuoted (out s : String) : String :=
  s.toList.foldl (fun out c ↦ out ++ escaped c) (out ++ "\"") ++ "\""

mutual

/-- Write a document behind `out`. -/
def append (out : String) : Json → String
  | .null => out ++ "null"
  | .bool b => out ++ (if b then "true" else "false")
  | .int n => out ++ toString n
  | .float x => appendQuoted out (Decimal.fixed 6 x)
  | .str s => appendQuoted out s
  | .arr items => appendItems (out ++ "[") items ++ "]"
  | .obj fields => appendFields (out ++ "\x7b") fields ++ "\x7d"

/-- Write the items of a list behind `out`. -/
def appendItems (out : String) : List Json → String
  | [] => out
  | [j] => append out j
  | j :: rest => appendItems (append out j ++ ",") rest

/-- Write the fields of an object behind `out`. -/
def appendFields (out : String) : List (String × Json) → String
  | [] => out
  | [(name, j)] => append (appendQuoted out name ++ ":") j
  | (name, j) :: rest => appendFields (append (appendQuoted out name ++ ":") j ++ ",") rest

end

/-- The text of a document. -/
def text (j : Json) : String :=
  append "" j

end FlowGauge.Json
