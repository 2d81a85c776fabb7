import JusticeViolation.Json.Value

/-!
# Decoding JSON values

The rules shared by everything that is decoded from JSON. A structure is written as a record of
its fields or as the list of their values; in both forms a field may be left out if it has a
default. Fields of a record that are not asked for are ignored, and so is whatever they hold, but
a field that is asked for must not repeat.

At most `Json.maxOpen` containers may be open around a value that is decoded. A decoder is
therefore given the number of containers that may still be opened, its *room*, and `enter` uses
up one of them.
-/

namespace JusticeViolation.Json

/-- The number of containers that may be open at once. -/
def maxOpen : Nat := 127

/-- Open a container. -/
def enter : Nat → Option Nat
  | 0 => none
  | room + 1 => some room

/-- The value of one field of a record: left out, or given once. -/
def fieldOf? (members : List (Option String × Json)) (name : String) : Option (Option Json) :=
  match members.filter fun m ↦ m.1 == some name with
  | [] => some none
  | [m] => some (some m.2)
  | _ => none

/-- The values of the fields of a structure, `none` for those left out. -/
def fields? (names : List String) : Json → Option (List (Option Json))
  | record members =>
    if members.any fun m ↦ m.1.isNone then none else names.mapM (fieldOf? members)
  | list items =>
    if names.length < items.length then none
    else some (items.map some ++ List.replicate (names.length - items.length) none)
  | _ => none

/-- Decode a field that must be given. -/
def required {α : Type} (decode : Json → Option α) (field : Option Json) : Option α :=
  field.bind decode

/-- Decode a field that has a default. -/
def optional {α : Type} (default : α) (decode : Json → Option α) : Option Json → Option α
  | none => some default
  | some v => decode v

/-- Decode a value that may also be null. -/
def nullable {α : Type} (decode : Json → Option α) : Json → Option (Option α)
  | null => some none
  | v => (decode v).map some

/-- Decode the items of a list. -/
def listOf {α : Type} (room : Nat) (decode : Nat → Json → Option α) (v : Json) :
    Option (List α) := do
  let room ← enter room
  let items ← v.items?
  items.mapM (decode room)

/-- Decode the name of a constructor without arguments: a string, or a record from it to null. -/
def name? (room : Nat) : Json → Option String
  | str s => s
  | record [(some key, null)] => (enter room).map fun _ ↦ key
  | _ => none

end JusticeViolation.Json
