import JusticeViolation.Formula.Encoding
import JusticeViolation.Json.Reader
import JusticeViolation.Memo.Document

/-!
# Memo documents as JSON

The fields of a document, in order, are `variables`, `initial`, `env_trans`, `sys_trans`,
`env_justices`, `sys_justices`, `z` (the ranks) and `x` (the layers of progress). The assumptions
and guarantees, the text of a justice, and the values and size of a variable may be left out.
Writing a document fills in the defaults and leaves out values and sizes that are not given.
-/

namespace JusticeViolation

/-! ## Parts of a document -/

/-- The role of a given name. -/
def Role.ofName? : String → Option Role
  | "env" => some .env
  | "sys" => some .sys
  | "aux" => some .aux
  | _ => none

/-- Decode a role. -/
def Role.ofJson? (room : Nat) (v : Json) : Option Role := (v.name? room).bind Role.ofName?

/-- The JSON form of a justice. -/
def Justice.toJson (j : Justice) : Json := .object [("id", .text j.id), ("text", .text j.text)]

/-- Decode a justice. -/
def Justice.ofJson? (room : Nat) (v : Json) : Option Justice := do
  let _ ← Json.enter room
  match ← v.fields? ["id", "text"] with
  | [id, text] => return ⟨← Json.required Json.text? id, ← Json.optional "" Json.text? text⟩
  | _ => none

namespace Memo

/-- The largest size that a declaration can give. -/
def Declaration.maxSize : Nat := 0xffffffff

/-- Decode the size of a domain. -/
def Declaration.sizeOfJson? (v : Json) : Option Nat := do
  let n ← v.nat?
  if n ≤ maxSize then some n else none

/-- The JSON form of a declaration. -/
def Declaration.toJson (d : Declaration) : Json :=
  .object <|
    [("name", .text d.name), ("role", .text d.role.name)] ++
    (d.values.map fun vs ↦ ("values", .list (vs.map Json.text))).toList ++
    (d.size.map fun n ↦ ("size", .nat n)).toList

/-- Decode a declaration. -/
def Declaration.ofJson? (room : Nat) (v : Json) : Option Declaration := do
  let room ← Json.enter room
  match ← v.fields? ["name", "role", "values", "size"] with
  | [name, role, values, size] =>
    return {
      name := ← Json.required Json.text? name
      role := ← Json.required (Role.ofJson? room) role
      values := ← Json.optional none (Json.nullable (Json.listOf room fun _ ↦ Json.text?)) values
      size := ← Json.optional none (Json.nullable sizeOfJson?) size }
  | _ => none

/-! ## Documents -/

namespace Document

/-- The fields of a document. -/
def fieldNames : List String :=
  ["variables", "initial", "env_trans", "sys_trans", "env_justices", "sys_justices", "z", "x"]

/-- The JSON form of a document. -/
def toJson (d : Document) : Json :=
  .object [
    ("variables", .list (d.declarations.map Declaration.toJson)),
    ("initial", d.initial.toJson),
    ("env_trans", d.envTrans.toJson),
    ("sys_trans", d.sysTrans.toJson),
    ("env_justices", .list (d.assumptions.map Justice.toJson)),
    ("sys_justices", .list (d.guarantees.map Justice.toJson)),
    ("z", .list (d.ranks.map Formula.toJson)),
    ("x", .list (d.progress.map fun rows ↦
      .list (rows.map fun layers ↦ .list (layers.map Formula.toJson))))]

/-- Decode a document. -/
def ofJson? (v : Json) : Option Document := do
  let room ← Json.enter Json.maxOpen
  match ← v.fields? fieldNames with
  | [declarations, initial, envTrans, sysTrans, assumptions, guarantees, ranks, progress] =>
    return {
      declarations := ← Json.required (Json.listOf room Declaration.ofJson?) declarations
      initial := ← Json.required (Formula.ofJson? room) initial
      envTrans := ← Json.required (Formula.ofJson? room) envTrans
      sysTrans := ← Json.required (Formula.ofJson? room) sysTrans
      assumptions := ← Json.optional [] (Json.listOf room Justice.ofJson?) assumptions
      guarantees := ← Json.optional [] (Json.listOf room Justice.ofJson?) guarantees
      ranks := ← Json.required (Json.listOf room Formula.ofJson?) ranks
      progress := ← Json.required
        (Json.listOf room fun room ↦ Json.listOf room fun room ↦
          Json.listOf room Formula.ofJson?) progress }
  | _ => none

/-- Read a document from its text. -/
def parse (s : String) : Except MemoFault Document :=
  match (Json.parse? s).bind ofJson? with
  | some d => .ok d
  | none => .error .undecodable

end Document

end Memo

end JusticeViolation
