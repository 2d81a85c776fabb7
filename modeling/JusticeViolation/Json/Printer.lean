import JusticeViolation.Json.Token

/-!
# Writing JSON values

The compact form of a value is the text of its tokens, one behind the other. The indented form
puts every item and member on a line of its own, two blanks further in than its container; an
empty container stays on one line. In both, only the quotation mark, the backslash and control
characters are escaped.
-/

namespace JusticeViolation.Json

/-! ## Strings -/

/-- A hexadecimal digit, in lower case. -/
def hexDigit (n : Nat) : Char := "0123456789abcdef".toList.getD n '0'

/-- How a character is written within a string. -/
def escapeChar (c : Char) : List Char :=
  match c with
  | '"' => ['\\', '"']
  | '\\' => ['\\', '\\']
  | '\n' => ['\\', 'n']
  | '\r' => ['\\', 'r']
  | '\t' => ['\\', 't']
  | c =>
    if c.toNat == 0x08 then ['\\', 'b']
    else if c.toNat == 0x0C then ['\\', 'f']
    else if c.toNat < 0x20 then
      ['\\', 'u', '0', '0', hexDigit (c.toNat / 16), hexDigit (c.toNat % 16)]
    else [c]

/-- A string in quotation marks. A string that denotes no text is written as the escape of a
lone surrogate, which denotes none either. -/
def quote : Option String → List Char
  | some s => '"' :: s.toList.flatMap escapeChar ++ ['"']
  | none => ['"', '\\', 'u', 'd', '8', '0', '0', '"']

/-! ## The compact form -/

/-- The text of a token. -/
def Token.chars : Token → List Char
  | openList => ['[']
  | closeList => [']']
  | openRecord => ['{']
  | closeRecord => ['}']
  | comma => [',']
  | colon => [':']
  | null => ['n', 'u', 'l', 'l']
  | bool true => ['t', 'r', 'u', 'e']
  | bool false => ['f', 'a', 'l', 's', 'e']
  | num digits => digits.toList
  | str s => quote s

mutual

/-- The tokens of a value. -/
def tokens : Json → List Token
  | null => [.null]
  | bool b => [.bool b]
  | num digits => [.num digits]
  | str s => [.str s]
  | list items => .openList :: itemTokens items ++ [.closeList]
  | record members => .openRecord :: memberTokens members ++ [.closeRecord]

/-- The tokens of list items, with commas between them. -/
def itemTokens : List Json → List Token
  | [] => []
  | [v] => tokens v
  | v :: w :: vs => tokens v ++ .comma :: itemTokens (w :: vs)

/-- The tokens of record members, with commas between them. -/
def memberTokens : List (Option String × Json) → List Token
  | [] => []
  | [(k, v)] => .str k :: .colon :: tokens v
  | (k, v) :: m :: ms => .str k :: .colon :: tokens v ++ .comma :: memberTokens (m :: ms)

end

/-- The text of a value, without blanks. -/
def compact (v : Json) : String := String.ofList (v.tokens.flatMap Token.chars)

/-! ## The indented form -/

/-- A new line at the given depth. -/
def newline (depth : Nat) : String := "\n" ++ String.ofList (List.replicate (2 * depth) ' ')

mutual

/-- The text of a value at the given depth. -/
def layout (depth : Nat) : Json → String
  | list [] => "[]"
  | list (v :: vs) =>
    "[" ++ newline (depth + 1) ++ layoutItems (depth + 1) (v :: vs) ++ newline depth ++ "]"
  | record [] => "\x7b\x7d"
  | record (m :: ms) =>
    "\x7b" ++ newline (depth + 1) ++ layoutMembers (depth + 1) (m :: ms) ++ newline depth ++ "\x7d"
  | null => "null"
  | bool b => toString b
  | num digits => digits
  | str s => String.ofList (quote s)

/-- The items of a list, each on a line of its own. -/
def layoutItems (depth : Nat) : List Json → String
  | [] => ""
  | [v] => layout depth v
  | v :: w :: vs => layout depth v ++ "," ++ newline depth ++ layoutItems depth (w :: vs)

/-- The members of a record, each on a line of its own. -/
def layoutMembers (depth : Nat) : List (Option String × Json) → String
  | [] => ""
  | [(k, v)] => String.ofList (quote k) ++ ": " ++ layout depth v
  | (k, v) :: m :: ms =>
    String.ofList (quote k) ++ ": " ++ layout depth v ++ "," ++ newline depth ++
      layoutMembers depth (m :: ms)

end

/-- The indented text of a value. -/
def pretty (v : Json) : String := layout 0 v

end JusticeViolation.Json
