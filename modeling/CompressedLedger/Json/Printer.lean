import CompressedLedger.Json.Quoted

/-!
# Writing JSON

Texts are put together without blanks.  The members of an object come in the order they are given
in.
-/

namespace CompressedLedger.Json

/-- The text of an array, given the texts of its items. -/
def arrayText (items : List String) : String :=
  "[" ++ ",".intercalate items ++ "]"

/-- The text of an object, given its keys and the texts of its values. -/
def objectText (members : List (String × String)) : String :=
  "\x7b" ++ ",".intercalate (members.map fun (key, value) => quote key ++ ":" ++ value) ++ "\x7d"

/-- The text of a natural number. -/
def naturalText (n : Nat) : String := Digits.decimal n

/-- The text of a flag. -/
def boolText (b : Bool) : String := if b then "true" else "false"

/-- The text of an optional value, with `null` for none. -/
def nullableText {α : Type} (text : α → String) : Option α → String
  | some a => text a
  | none => "null"

/-- A member that is left out if there is no value. -/
def optionalMember {α : Type} (key : String) (text : α → String) :
    Option α → List (String × String)
  | some a => [(key, text a)]
  | none => []

end CompressedLedger.Json
