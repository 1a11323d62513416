import Micro65.Json.Token
/-!
# Reading JSON documents

The tokens of a document are put together into a tree, one after the other. The objects and arrays
around the present place are kept in a list of their own, so a document may be nested to any depth.
-/

namespace Micro65

namespace Json

/-- An object or array that is not closed yet. What it holds so far is in reverse. -/
inductive Frame where
  | array (items : List Json)
  /-- An object whose member with this key is being read. -/
  | object (members : List (Text × Json)) (key : Text)

/-- What must come next. -/
inductive Expected where
  /-- A value, or in a new array its end. -/
  | value (orClose : Bool)
  /-- A key of an object with these members, or in a new object its end. -/
  | key (members : List (Text × Json)) (orClose : Bool)
  /-- The colon behind a key. -/
  | colon (members : List (Text × Json)) (key : Text)
  /-- What follows a value: a comma or an end. -/
  | continuation (value : Json)

/-- What has been read of a document. -/
structure Reader where
  expected : Expected := .value false
  /-- The objects and arrays around the present place, the innermost first. -/
  frames : List Frame := []

namespace Reader

/-- Reads the token behind a value. -/
def proceed (value : Json) : List Frame → Token → Option Reader
  | .array items :: frames, .comma => some ⟨.value false, .array (value :: items) :: frames⟩
  | .array items :: frames, .closeArray =>
    some ⟨.continuation (.array (value :: items).reverse), frames⟩
  | .object members key :: frames, .comma => some ⟨.key ((key, value) :: members) false, frames⟩
  | .object members key :: frames, .closeObject =>
    some ⟨.continuation (.object ((key, value) :: members).reverse), frames⟩
  | _, _ => none

/-- Reads a token. -/
def feed : Reader → Token → Option Reader
  | ⟨.continuation value, frames⟩, token => proceed value frames token
  | ⟨.value _, frames⟩, .scalar value => some ⟨.continuation value, frames⟩
  | ⟨.value _, frames⟩, .string written => some ⟨.continuation (.string written), frames⟩
  | ⟨.value _, frames⟩, .openArray => some ⟨.value true, .array [] :: frames⟩
  | ⟨.value _, frames⟩, .openObject => some ⟨.key [] true, frames⟩
  | ⟨.value true, .array [] :: frames⟩, .closeArray => some ⟨.continuation (.array []), frames⟩
  | ⟨.key members _, frames⟩, .string written => some ⟨.colon members written, frames⟩
  | ⟨.key [] true, frames⟩, .closeObject => some ⟨.continuation (.object []), frames⟩
  | ⟨.colon members key, frames⟩, .colon => some ⟨.value false, .object members key :: frames⟩
  | _, _ => none

/-- The document, if it is complete. -/
def finish : Reader → Option Json
  | ⟨.continuation value, []⟩ => some value
  | _ => none

end Reader

/-- Reads a document. Nothing but blanks may stand around it. -/
def parse? (document : Text) : Option Json := do
  (← (← tokens? document).foldlM Reader.feed {}).finish

end Json

end Micro65
