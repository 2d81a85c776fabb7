import JusticeViolation.Formula
import JusticeViolation.Json.Decode

/-!
# Formulas as JSON

A formula is a record with one member, from the name of its head to the arguments; the constants
are plain strings. Decoding also accepts a constant as a record to null, and the two leaves with
their names in a list.

Every step into a formula opens at least one container, so decoding is by recursion on the room.
-/

namespace JusticeViolation.Formula

mutual

/-- The JSON form of a formula. -/
def toJson : Formula → Json
  | top => .text "true"
  | bottom => .text "false"
  | eq name value =>
    .object [("eq", .object [("var", .text name), ("value", .text value)])]
  | same name other =>
    .object [("same", .object [("var", .text name), ("other", .text other)])]
  | not body => .object [("not", toJson body)]
  | and parts => .object [("and", .list (listToJson parts))]
  | or parts => .object [("or", .list (listToJson parts))]
  | implies premise conclusion =>
    .object [("implies", .list [toJson premise, toJson conclusion])]
  | iff left right => .object [("iff", .list [toJson left, toJson right])]

/-- The JSON forms of several formulas. -/
def listToJson : List Formula → List Json
  | [] => []
  | f :: fs => toJson f :: listToJson fs

end

/-- Decode a leaf with two names. -/
def leafOfJson? (room : Nat) (first second : String) (make : String → String → Formula)
    (v : Json) : Option Formula := do
  let _ ← Json.enter room
  match ← v.fields? [first, second] with
  | [a, b] => return make (← Json.required Json.text? a) (← Json.required Json.text? b)
  | _ => none

/-- Decode a constant. -/
def constantOfName? : String → Option Formula
  | "true" => some top
  | "false" => some bottom
  | _ => none

/-- Decode a formula within the given room. -/
def ofJson? : Nat → Json → Option Formula
  | _, .str s => s.bind constantOfName?
  | room + 1, .record [(some head, v)] =>
    match head, v with
    | "eq", v => leafOfJson? room "var" "value" eq v
    | "same", v => leafOfJson? room "var" "other" same v
    | "not", v => (ofJson? room v).map not
    | "and", .list items =>
      match room with
      | 0 => none
      | room + 1 => (items.mapM (ofJson? room)).map and
    | "or", .list items =>
      match room with
      | 0 => none
      | room + 1 => (items.mapM (ofJson? room)).map or
    | "implies", .list [p, q] =>
      match room with
      | 0 => none
      | room + 1 => do return implies (← ofJson? room p) (← ofJson? room q)
    | "iff", .list [p, q] =>
      match room with
      | 0 => none
      | room + 1 => do return iff (← ofJson? room p) (← ofJson? room q)
    | head, .null => constantOfName? head
    | _, _ => none
  | _, _ => none

end JusticeViolation.Formula
