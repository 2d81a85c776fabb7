/-!
# JSON values

The values that a JSON text denotes, kept close enough to the text for strict decoding: numbers
stay digit sequences, members of a record stay in order and may repeat, and a string may turn out
to denote no text at all. The last happens when an escape names half of a surrogate pair: such a
string is well formed, and harmless as long as nobody asks for its characters, so it is `none`
rather than an error of the reader.
-/

namespace JusticeViolation

/-- A JSON value. -/
inductive Json
  | null
  | bool (value : Bool)
  /-- A number by its digits as written. -/
  | num (digits : String)
  /-- A string; `none` if its escapes denote no text. -/
  | str (text : Option String)
  | list (items : List Json)
  | record (members : List (Option String × Json))
deriving Repr

namespace Json

/-- A text. -/
def text (s : String) : Json := str (some s)

/-- A natural number. -/
def nat (n : Nat) : Json := num (toString n)

/-- A record with the given keys. -/
def object (members : List (String × Json)) : Json :=
  record (members.map fun m ↦ (some m.1, m.2))

/-- The value of a member by its key: the last one if the key repeats. -/
def member? (key : String) : Json → Option Json
  | record members => (members.reverse.find? fun m ↦ m.1 == some key).map (·.2)
  | _ => none

/-- The text of a string. -/
def text? : Json → Option String
  | str s => s
  | _ => none

/-- The truth value of a Boolean. -/
def bool? : Json → Option Bool
  | bool b => some b
  | _ => none

/-- The items of a list. -/
def items? : Json → Option (List Json)
  | list items => some items
  | _ => none

/-- A number written with digits alone. -/
def nat? : Json → Option Nat
  | num digits =>
    if digits.toList.all Char.isDigit then
      some (digits.toList.foldl (fun n c ↦ 10 * n + (c.toNat - '0'.toNat)) 0)
    else none
  | _ => none

end Json

end JusticeViolation
