import SpdkConnector.Codec.Text

/-!
# JSON, as Python's `json` reads and writes it

`loads` follows the C scanner of `json.loads`: white space, strict strings with surrogate pairs, integers of
at most 4300 digits, floats, `NaN` and `Infinity`, the last of two equal keys. `limit` is the number of
nested containers the interpreter's recursion limit leaves. `dumps` writes a flat object with
`separators=(",", ":")` and ASCII escapes.

| here | there |
|---|---|
| `scanOnce`, `parseMembers`, `parseElements` | `scan_once`, `_parse_object`, `_parse_array` |
| `scanString`, `scanNumber` | `scanstring`, `_match_number` |
| `JsonError.decode` | `JSONDecodeError` |
| `JsonError.digits` | the plain `ValueError` of an integer that is too long |
| `JsonError.recursion` | `RecursionError` |
-/
namespace Codec

/-- A float, before it is rounded: `mantissa * 10 ^ exponent`. -/
inductive PyFloat where
  | finite (mantissa exponent : Int)
  | nan
  | inf (negative : Bool)
  deriving DecidableEq, Repr

inductive Json where
  | null
  | bool (b : Bool)
  | int (n : Int)
  | float (x : PyFloat)
  | str (s : Str)
  | list (xs : List Json)
  | dict (entries : List (Str × Json))

inductive JsonError where
  | decode
  | digits
  | recursion
  /-- Not an outcome: see `loads_fuel`. -/
  | outOfFuel
  deriving DecidableEq, Repr

def quote : Nat := 34
def backslash : Nat := 92

def isSpace (c : Nat) : Bool := c == 32 || c == 9 || c == 10 || c == 13

def skipSpace (s : Str) : Str := s.dropWhile isSpace

def isDigit (c : Nat) : Bool := 48 ≤ c && c ≤ 57

/-- The number a run of digits denotes. -/
def decimal (ds : Str) : Nat := ds.foldl (fun x c => x * 10 + (c - 48)) 0

/-! ## Strings -/

def hexValue (c : Nat) : Option Nat :=
  if 48 ≤ c ∧ c ≤ 57 then some (c - 48)
  else if 97 ≤ c ∧ c ≤ 102 then some (c - 87)
  else if 65 ≤ c ∧ c ≤ 70 then some (c - 55)
  else none

def scanHex4 : Str → Option (Nat × Str)
  | a :: b :: c :: d :: rest =>
    match hexValue a, hexValue b, hexValue c, hexValue d with
    | some a, some b, some c, some d => some (((a * 16 + b) * 16 + c) * 16 + d, rest)
    | _, _, _, _ => none
  | _ => none

/-- The character after a backslash, `u` apart. -/
def unescape (c : Nat) : Option Nat :=
  if c = quote ∨ c = backslash ∨ c = 47 then some c
  else if c = 98 then some 8
  else if c = 102 then some 12
  else if c = 110 then some 10
  else if c = 114 then some 13
  else if c = 116 then some 9
  else none

def highSurrogate (u : Nat) : Bool := 0xd800 ≤ u && u ≤ 0xdbff
def lowSurrogate (u : Nat) : Bool := 0xdc00 ≤ u && u ≤ 0xdfff

/-- After `\u`: four digits, and the low half of a pair if it follows. -/
def scanUnicode (s : Str) : Option (Nat × Str) :=
  match scanHex4 s with
  | none => none
  | some (u, rest) =>
    if highSurrogate u ∧ rest.take 2 = [backslash, 117] then
      match scanHex4 (rest.drop 2) with
      | none => none
      | some (v, rest') =>
        if lowSurrogate v then some (0x10000 + (u - 0xd800) * 0x400 + (v - 0xdc00), rest')
        else some (u, rest)
    else some (u, rest)

/-- One character of a string. -/
def scanChar : Str → Option (Nat × Str)
  | [] => none
  | c :: rest =>
    if c = backslash then
      match rest with
      | [] => none
      | e :: rest => if e = 117 then scanUnicode rest else (unescape e).map (·, rest)
    else if c < 32 then none
    else some (c, rest)

/-- The rest of a string after its opening quote, at most `n` characters of the text. -/
def scanString : Nat → Str → Option (Str × Str)
  | 0, _ => none
  | n + 1, s =>
    if s.head? = some quote then some ([], s.tail)
    else (scanChar s).bind fun p => (scanString n p.2).map fun q => (p.1 :: q.1, q.2)

/-! ## Numbers and literals -/

/-- The digits of the integer part; a leading zero stands alone. -/
def scanInteger (s : Str) : Str × Str :=
  if s.head? = some 48 then ([48], s.tail) else (s.takeWhile isDigit, s.dropWhile isDigit)

/-- `.` and digits. -/
def scanFraction (s : Str) : Str × Str :=
  if s.head? = some 46 ∧ s.tail.takeWhile isDigit ≠ [] then
    (s.tail.takeWhile isDigit, s.tail.dropWhile isDigit)
  else ([], s)

def scanSign (s : Str) : Bool × Str :=
  if s.head? = some 45 then (true, s.tail)
  else if s.head? = some 43 then (false, s.tail)
  else (false, s)

/-- `e`, a sign, digits. -/
def scanExponent (s : Str) : Option Int × Str :=
  if s.head? = some 101 ∨ s.head? = some 69 then
    let (negative, body) := scanSign s.tail
    let ds := body.takeWhile isDigit
    if ds = [] then (none, s)
    else (some (if negative then -(decimal ds : Int) else decimal ds), body.dropWhile isDigit)
  else (none, s)

/-- `sys.int_info.default_max_str_digits`. -/
def maxStrDigits : Nat := 4300

/-- A number behind its sign. -/
def scanUnsigned (sign : Nat → Int) (s : Str) : Except JsonError (Json × Str) :=
  let (ds, rest) := scanInteger s
  if ds = [] then .error .decode
  else
    let (fs, rest) := scanFraction rest
    let (exponent, rest) := scanExponent rest
    if fs = [] ∧ exponent = none then
      if maxStrDigits < ds.length then .error .digits else .ok (.int (sign (decimal ds)), rest)
    else .ok (.float (.finite (sign (decimal (ds ++ fs))) (exponent.getD 0 - fs.length)), rest)

def scanNumber (s : Str) : Except JsonError (Json × Str) :=
  if s.head? = some 45 then scanUnsigned (fun n => -(n : Int)) s.tail else scanUnsigned (fun n => n) s

def afterPrefix : Str → Str → Option Str
  | [], s => some s
  | _ :: _, [] => none
  | c :: p, d :: s => if c = d then afterPrefix p s else none

def literals : List (Str × Json) :=
  [(text "null", .null), (text "true", .bool true), (text "false", .bool false),
    (text "NaN", .float .nan), (text "Infinity", .float (.inf false)), (text "-Infinity", .float (.inf true))]

def scanLiteral (s : Str) : Option (Json × Str) :=
  literals.findSome? fun p => (afterPrefix p.1 s).map (p.2, ·)

/-! ## Values -/

/-- `d[key] = value`. -/
def dictSet (d : List (Str × Json)) (key : Str) (value : Json) : List (Str × Json) :=
  if d.any (·.1 == key) then d.map fun p => if p.1 == key then (key, value) else p else d ++ [(key, value)]

mutual

def scanOnce : Nat → Nat → Str → Except JsonError (Json × Str)
  | 0, _, _ => .error .outOfFuel
  | n + 1, limit, s =>
    match s with
    | [] => .error .decode
    | c :: rest =>
      if c = quote then
        match scanString rest.length rest with
        | none => .error .decode
        | some (t, rest) => .ok (.str t, rest)
      else if c = 123 then
        match limit with
        | 0 => .error .recursion
        | limit + 1 =>
          let body := skipSpace rest
          if body.head? = some 125 then .ok (.dict [], body.tail) else parseMembers n limit [] body
      else if c = 91 then
        match limit with
        | 0 => .error .recursion
        | limit + 1 =>
          let body := skipSpace rest
          if body.head? = some 93 then .ok (.list [], body.tail) else parseElements n limit [] body
      else
        match scanLiteral s with
        | some r => .ok r
        | none => scanNumber s

/-- The members of an object from a key on. -/
def parseMembers : Nat → Nat → List (Str × Json) → Str → Except JsonError (Json × Str)
  | 0, _, _, _ => .error .outOfFuel
  | n + 1, limit, d, s =>
    if s.head? = some quote then
      match scanString s.tail.length s.tail with
      | none => .error .decode
      | some (key, rest) =>
        if (skipSpace rest).head? = some 58 then
          match scanOnce n limit (skipSpace (skipSpace rest).tail) with
          | .error e => .error e
          | .ok (value, rest) =>
            let rest := skipSpace rest
            if rest.head? = some 125 then .ok (.dict (dictSet d key value), rest.tail)
            else if rest.head? = some 44 then parseMembers n limit (dictSet d key value) (skipSpace rest.tail)
            else .error .decode
        else .error .decode
    else .error .decode

/-- The elements of an array from a value on. -/
def parseElements : Nat → Nat → List Json → Str → Except JsonError (Json × Str)
  | 0, _, _, _ => .error .outOfFuel
  | n + 1, limit, xs, s =>
    match scanOnce n limit s with
    | .error e => .error e
    | .ok (value, rest) =>
      let rest := skipSpace rest
      if rest.head? = some 93 then .ok (.list (xs ++ [value]), rest.tail)
      else if rest.head? = some 44 then parseElements n limit (xs ++ [value]) (skipSpace rest.tail)
      else .error .decode

end

/-- `json.loads(s)`. -/
def loads (limit : Nat) (s : Str) : Except JsonError Json :=
  if s.head? = some 0xfeff then .error .decode
  else
    match scanOnce (2 * s.length + 1) limit (skipSpace s) with
    | .error e => .error e
    | .ok (value, rest) => if skipSpace rest = [] then .ok value else .error .decode

/-! ## Writing -/

/-- A lower-case hexadecimal digit. -/
def hexDigit (v : Nat) : Nat := if v < 10 then 48 + v else 87 + v

def unicodeEscape (u : Nat) : Str :=
  [backslash, 117, hexDigit (u / 4096 % 16), hexDigit (u / 256 % 16), hexDigit (u / 16 % 16), hexDigit (u % 16)]

def escapeChar (c : Nat) : Str :=
  if c = quote ∨ c = backslash then [backslash, c]
  else if c = 10 then [backslash, 110]
  else if c = 13 then [backslash, 114]
  else if c = 9 then [backslash, 116]
  else if c = 12 then [backslash, 102]
  else if c = 8 then [backslash, 98]
  else if 32 ≤ c ∧ c ≤ 126 then [c]
  else if c < 0x10000 then unicodeEscape c
  else unicodeEscape (0xd800 + (c - 0x10000) / 0x400) ++ unicodeEscape (0xdc00 + (c - 0x10000) % 0x400)

def dumpStr (s : Str) : Str := quote :: (s.flatMap escapeChar ++ [quote])

def dumpNat (n : Nat) : Str := (Nat.toDigits 10 n).map Char.toNat

/-- `int.__repr__`, `none` for more digits than Python prints. -/
def dumpInt (n : Int) : Option Str :=
  if maxStrDigits < (dumpNat n.natAbs).length then none
  else some (if n < 0 then 45 :: dumpNat n.natAbs else dumpNat n.natAbs)

/-- A value that is not a container or a float. -/
def dumpScalar : Json → Option Str
  | .null => some (text "null")
  | .bool true => some (text "true")
  | .bool false => some (text "false")
  | .int n => dumpInt n
  | .str s => some (dumpStr s)
  | .float _ | .list _ | .dict _ => none

def dumpMembers : List (Str × Json) → Option Str
  | [] => some []
  | [(key, value)] => (dumpScalar value).map fun v => dumpStr key ++ 58 :: v
  | (key, value) :: rest =>
    (dumpScalar value).bind fun v => (dumpMembers rest).map fun r => dumpStr key ++ 58 :: (v ++ 44 :: r)

/-- `json.dumps` of an object of scalars whose keys stand in order. -/
def dumps (entries : List (Str × Json)) : Option Str :=
  (dumpMembers entries).map fun s => 123 :: (s ++ [125])

end Codec
