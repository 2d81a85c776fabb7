import JusticeViolation.Json.Token

/-!
# Reading JSON values

Tokens are put together by a machine with an explicit stack: the containers that are open, each
with what it holds already. Every token moves the machine by one step, so a text is read in one
pass, by recursion on its tokens, however deeply it nests.
-/

namespace JusticeViolation.Json

/-- An open container, with its contents in reverse order. -/
inductive Frame
  | list (items : List Json)
  /-- A record waiting for the value of `key`. -/
  | record (members : List (Option String × Json)) (key : Option String)

/-- What may come next, and the containers that are open around it. -/
inductive Reader
  /-- A value. -/
  | value (stack : List Frame)
  /-- The first item of a list, or its end. -/
  | firstItem (stack : List Frame)
  /-- The first key of a record, or its end. -/
  | firstKey (stack : List Frame)
  /-- Another key of a record. -/
  | nextKey (members : List (Option String × Json)) (stack : List Frame)
  /-- The colon behind a key. -/
  | colon (members : List (Option String × Json)) (key : Option String) (stack : List Frame)
  /-- A comma, or the end of a list. -/
  | afterItem (items : List Json) (stack : List Frame)
  /-- A comma, or the end of a record. -/
  | afterMember (members : List (Option String × Json)) (stack : List Frame)
  /-- Nothing: the text has been read. -/
  | finished (v : Json)

namespace Reader

/-- A value is complete: it goes into the innermost open container. -/
def deliver (v : Json) : List Frame → Reader
  | [] => finished v
  | .list items :: stack => afterItem (v :: items) stack
  | .record members key :: stack => afterMember ((key, v) :: members) stack

/-- A token that begins a value. -/
def begin? (stack : List Frame) : Token → Option Reader
  | .null => some (deliver .null stack)
  | .bool b => some (deliver (.bool b) stack)
  | .num digits => some (deliver (.num digits) stack)
  | .str s => some (deliver (.str s) stack)
  | .openList => some (firstItem stack)
  | .openRecord => some (firstKey stack)
  | .closeList | .closeRecord | .comma | .colon => none

/-- One more token. -/
def step? : Reader → Token → Option Reader
  | value stack, t => begin? stack t
  | firstItem stack, .closeList => some (deliver (.list []) stack)
  | firstItem stack, t => begin? (.list [] :: stack) t
  | firstKey stack, .closeRecord => some (deliver (.record []) stack)
  | firstKey stack, .str k => some (colon [] k stack)
  | nextKey members stack, .str k => some (colon members k stack)
  | colon members k stack, .colon => some (value (.record members k :: stack))
  | afterItem items stack, .comma => some (value (.list items :: stack))
  | afterItem items stack, .closeList => some (deliver (.list items.reverse) stack)
  | afterMember members stack, .comma => some (nextKey members stack)
  | afterMember members stack, .closeRecord => some (deliver (.record members.reverse) stack)
  | _, _ => none

/-- Read the rest of the tokens. -/
def run (r : Reader) : List Token → Option Reader
  | [] => some r
  | t :: ts => (r.step? t).bind fun r ↦ run r ts

end Reader

/-- The value that a token sequence denotes. -/
def ofTokens? (ts : List Token) : Option Json :=
  match Reader.run (.value []) ts with
  | some (.finished v) => some v
  | _ => none

/-- The value that a text denotes. -/
def parse? (s : String) : Option Json := (scan? s).bind ofTokens?

end JusticeViolation.Json
