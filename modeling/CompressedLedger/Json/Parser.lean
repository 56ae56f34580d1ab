import CompressedLedger.Json.Token

/-!
# Reading JSON

The tokens are read one by one with a stack of the arrays and objects that are still open, so a
text may nest to any depth.  Every open array keeps the items before the one being read, last
first; every open object also keeps the key of that one.  A comma must be followed by another item,
and nothing may follow the whole value.
-/

namespace CompressedLedger.Json

/-- An array or object that is still open. -/
inductive Frame where
  | array (done : List Value)
  | object (done : List (Option String × Value)) (key : Option String)

mutual

/-- Reads where a value is due. -/
def readValue : List Token → List Frame → Option Value
  | .scalar v :: ts, frames => readAfter v ts frames
  | .openArray :: .closeArray :: ts, frames => readAfter (.array []) ts frames
  | .openArray :: ts, frames => readValue ts (.array [] :: frames)
  | .openObject :: .closeObject :: ts, frames => readAfter (.object []) ts frames
  | .openObject :: .scalar (.string key) :: .colon :: ts, frames =>
    readValue ts (.object [] key :: frames)
  | _, _ => none

/-- Reads on after a value. -/
def readAfter (v : Value) : List Token → List Frame → Option Value
  | [], [] => some v
  | .comma :: ts, .array done :: frames => readValue ts (.array (v :: done) :: frames)
  | .closeArray :: ts, .array done :: frames => readAfter (.array (v :: done).reverse) ts frames
  | .comma :: .scalar (.string next) :: .colon :: ts, .object done key :: frames =>
    readValue ts (.object ((key, v) :: done) next :: frames)
  | .closeObject :: ts, .object done key :: frames =>
    readAfter (.object ((key, v) :: done).reverse) ts frames
  | _, _ => none

end

/-- The value a text denotes, if the text is a JSON value and nothing else. -/
def parse (s : String) : Option Value := do
  let ts ← tokens s.toList
  readValue ts []

end CompressedLedger.Json
