import JusticeViolation.Json.Value

/-!
# Tokens of a JSON text

A JSON text is scanned character by character. What has been read of an unfinished token is a
`Scanner`; a step takes one more character and hands out the tokens that it completes. A number is
only known to have ended at the character behind it, which is then scanned afresh.

The scanner is strict: no leading zeros, no bare control characters in strings, no blanks other
than the four of the format.

Characters of a string are collected as code units, because an escape may denote half of a
surrogate pair. Halves are put together when the string ends (`decodeUnits`).
-/

namespace JusticeViolation.Json

/-- A token of a JSON text. -/
inductive Token
  | openList
  | closeList
  | openRecord
  | closeRecord
  | comma
  | colon
  | null
  | bool (value : Bool)
  | num (digits : String)
  | str (text : Option String)
deriving DecidableEq, Repr

/-! ## Code units -/

/-- The first half of a surrogate pair. -/
def isHighHalf (u : Nat) : Bool := 0xD800 ≤ u && u < 0xDC00

/-- The second half of a surrogate pair. -/
def isLowHalf (u : Nat) : Bool := 0xDC00 ≤ u && u < 0xE000

/-- The character denoted by two halves. -/
def joinHalves (high low : Nat) : Char :=
  Char.ofNat (0x10000 + (high - 0xD800) * 0x400 + (low - 0xDC00))

/-- The characters denoted by code units; none if a half stands alone. -/
def decodeUnits : List Nat → Option (List Char)
  | [] => some []
  | [u] => if isHighHalf u || isLowHalf u then none else some [Char.ofNat u]
  | u :: v :: rest =>
    if isHighHalf u && isLowHalf v then (decodeUnits rest).map (joinHalves u v :: ·)
    else if isHighHalf u || isLowHalf u then none
    else (decodeUnits (v :: rest)).map (Char.ofNat u :: ·)

/-- The string token of code units in reverse order. -/
def stringToken (units : List Nat) : Token := .str ((decodeUnits units.reverse).map String.ofList)

/-! ## Numbers -/

/-- How far a number has been read. -/
inductive NumberPart
  | sign
  | zero
  | whole
  | point
  | fraction
  | mark
  | markSign
  | exponent
deriving DecidableEq, Repr

namespace NumberPart

/-- Whether a number may end here. -/
def complete : NumberPart → Bool
  | zero | whole | fraction | exponent => true
  | sign | point | mark | markSign => false

/-- The part reached with one more character. -/
def next? (part : NumberPart) (c : Char) : Option NumberPart :=
  match part with
  | sign => if c == '0' then some zero else if c.isDigit then some whole else none
  | zero => if c == '.' then some point else if c == 'e' || c == 'E' then some mark else none
  | whole =>
    if c.isDigit then some whole
    else if c == '.' then some point else if c == 'e' || c == 'E' then some mark else none
  | point => if c.isDigit then some fraction else none
  | fraction =>
    if c.isDigit then some fraction else if c == 'e' || c == 'E' then some mark else none
  | mark =>
    if c == '+' || c == '-' then some markSign else if c.isDigit then some exponent else none
  | markSign | exponent => if c.isDigit then some exponent else none

end NumberPart

/-! ## The scanner -/

/-- What has been read of an unfinished token; characters and units in reverse order. -/
inductive Scanner
  | idle
  /-- A word of which some letters are still to come. -/
  | word (missing : List Char) (token : Token)
  | number (part : NumberPart) (digits : List Char)
  | string (units : List Nat)
  /-- Behind a backslash. -/
  | escape (units : List Nat)
  /-- Within the four digits of a numeric escape. -/
  | hex (units : List Nat) (missing : Nat) (value : Nat)
deriving Repr

namespace Scanner

/-- A character between tokens. -/
def start (c : Char) : Option (List Token × Scanner) :=
  match c with
  | ' ' | '\n' | '\t' | '\r' => some ([], idle)
  | '[' => some ([.openList], idle)
  | ']' => some ([.closeList], idle)
  | '{' => some ([.openRecord], idle)
  | '}' => some ([.closeRecord], idle)
  | ',' => some ([.comma], idle)
  | ':' => some ([.colon], idle)
  | '"' => some ([], string [])
  | 'n' => some ([], word ['u', 'l', 'l'] .null)
  | 't' => some ([], word ['r', 'u', 'e'] (.bool true))
  | 'f' => some ([], word ['a', 'l', 's', 'e'] (.bool false))
  | '-' => some ([], number .sign ['-'])
  | c => (NumberPart.sign.next? c).map fun part ↦ ([], number part [c])

/-- The code unit of a one-letter escape. -/
def shortEscape? (c : Char) : Option Nat :=
  match c with
  | '"' => some 0x22
  | '\\' => some 0x5C
  | '/' => some 0x2F
  | 'b' => some 0x08
  | 'f' => some 0x0C
  | 'n' => some 0x0A
  | 'r' => some 0x0D
  | 't' => some 0x09
  | _ => none

/-- The value of a hexadecimal digit. -/
def hexDigit? (c : Char) : Option Nat :=
  if c.isDigit then some (c.toNat - '0'.toNat)
  else if 'a' ≤ c && c ≤ 'f' then some (c.toNat - 'a'.toNat + 10)
  else if 'A' ≤ c && c ≤ 'F' then some (c.toNat - 'A'.toNat + 10)
  else none

/-- One more character: the tokens that it completes, and what is then unfinished. -/
def step (s : Scanner) (c : Char) : Option (List Token × Scanner) :=
  match s with
  | idle => start c
  | word [] token => (start c).map fun (ts, s) ↦ (token :: ts, s)
  | word (d :: ds) token =>
    if c != d then none
    else match ds with
      | [] => some ([token], idle)
      | ds => some ([], word ds token)
  | number part digits =>
    match part.next? c with
    | some part => some ([], number part (c :: digits))
    | none =>
      if part.complete then
        (start c).map fun (ts, s) ↦ (.num (String.ofList digits.reverse) :: ts, s)
      else none
  | string units =>
    if c == '"' then some ([stringToken units], idle)
    else if c == '\\' then some ([], escape units)
    else if c.toNat < 0x20 then none
    else some ([], string (c.toNat :: units))
  | escape units =>
    if c == 'u' then some ([], hex units 4 0)
    else (shortEscape? c).map fun u ↦ ([], string (u :: units))
  | hex units missing value =>
    (hexDigit? c).map fun d ↦
      let value := 16 * value + d
      if missing ≤ 1 then ([], string (value :: units)) else ([], hex units (missing - 1) value)

/-- The tokens completed by the end of the text. -/
def finish? : Scanner → Option (List Token)
  | idle => some []
  | word [] token => some [token]
  | number part digits =>
    if part.complete then some [.num (String.ofList digits.reverse)] else none
  | _ => none

/-- Scan the rest of a text, given the tokens found so far in reverse order. -/
def run (found : List Token) (s : Scanner) : List Char → Option (List Token)
  | [] => s.finish?.map fun ts ↦ found.reverse ++ ts
  | c :: cs =>
    match s.step c with
    | none => none
    | some (ts, s) => run (ts.reverse ++ found) s cs

end Scanner

/-- The tokens of a text. -/
def scan? (s : String) : Option (List Token) := Scanner.run [] .idle s.toList

end JusticeViolation.Json
