import CompressedLedger.Json.Parser
import CompressedLedger.Json.Printer

/-!
# Typed records in JSON

A record is read from an object, whose known keys may stand in any order but only once, or from an
array of its fields in their fixed order.  Unknown keys of an object are skipped, whatever their
values are, but every key must be a proper text; an array may stop early but has no items beyond
the fields.  A field that is not there is a *gap* in an object and a *cut* in an array, and each
kind of field treats them in its own way:

* a required field must be there;
* an optional field may be null or a gap;
* a lenient optional field may also be cut off;
* a defaulted field may be a gap or cut off, but not null.

Arrays and objects that are read, rather than skipped, nest at most 127 levels deep: `read` is
given the levels that are left.
-/

namespace CompressedLedger.Json

/-- The deepest nesting of arrays and objects that are read. -/
def maxLevels : Nat := 127

/-- A type that is read from JSON and written to it. -/
class Codec (α : Type) where
  /-- Reads a value that may nest as deep as the levels left. -/
  read : Nat → Value → Option α
  /-- The text of a value. -/
  write : α → String

/-- Reads a text. -/
def readText {α : Type} [Codec α] (s : String) : Option α := do
  Codec.read maxLevels (← parse s)

/-! ### Scalars and lists -/

/-- Reads a natural number below a bound. -/
def readNatural (bound : Nat) : Value → Option Nat
  | .number n => n.toNat?.filter (· < bound)
  | _ => none

instance : Codec String where
  read
    | _, .string s => s
    | _, _ => none
  write := quote

instance : Codec Bool where
  read
    | _, .bool b => some b
    | _, _ => none
  write := boolText

instance : Codec UInt8 where
  read _ v := (readNatural UInt8.size v).map UInt8.ofNat
  write w := naturalText w.toNat

instance : Codec UInt16 where
  read _ v := (readNatural UInt16.size v).map UInt16.ofNat
  write w := naturalText w.toNat

instance : Codec UInt32 where
  read _ v := (readNatural UInt32.size v).map UInt32.ofNat
  write w := naturalText w.toNat

instance : Codec UInt64 where
  read _ v := (readNatural UInt64.size v).map UInt64.ofNat
  write w := naturalText w.toNat

instance {α : Type} [Codec α] : Codec (List α) where
  read
    | levels + 1, .array items => items.mapM (Codec.read levels)
    | _, _ => none
  write as := arrayText (as.map Codec.write)

/-! ### Fields -/

/-- What a record holds at a field. -/
inductive Slot where
  | given (v : Value)
  | gap
  | cut

/-- The values of a key. -/
def valuesOf (members : List (Option String × Value)) (key : String) : List Value :=
  members.filterMap fun (k, v) => if k == some key then some v else none

/-- What an object holds at a key that may stand once. -/
def slotOf (members : List (Option String × Value)) (key : String) : Option Slot :=
  match valuesOf members key with
  | [] => some .gap
  | [v] => some (.given v)
  | _ => none

/-- What an object holds at the fields, given their keys. -/
def keyedSlots (members : List (Option String × Value)) (keys : List String) :
    Option (List Slot) :=
  if members.all (·.1.isSome) then keys.mapM (slotOf members) else none

/-- What an array holds at a number of fields. -/
def listedSlots (items : List Value) (fields : Nat) : Option (List Slot) :=
  if items.length ≤ fields then
    some (items.map .given ++ List.replicate (fields - items.length) .cut)
  else none

/-- What a value holds at the fields of a record. -/
def Value.slots (keys : List String) : Value → Option (List Slot)
  | .object members => keyedSlots members keys
  | .array items => listedSlots items keys.length
  | _ => none

namespace Slot

variable {α : Type} [Codec α]

/-- Reads a value where null means none. -/
def readNullable (levels : Nat) : Value → Option (Option α)
  | .null => some none
  | v => (Codec.read levels v).map some

/-- A field that must be there. -/
def required (s : Slot) (levels : Nat) : Option α :=
  match s with
  | given v => Codec.read levels v
  | gap => none
  | cut => none

/-- A field that may be null or a gap. -/
def optional (s : Slot) (levels : Nat) : Option (Option α) :=
  match s with
  | given v => readNullable levels v
  | gap => some none
  | cut => none

/-- A field that may be null, a gap or cut off. -/
def lenient (s : Slot) (levels : Nat) : Option (Option α) :=
  match s with
  | given v => readNullable levels v
  | gap => some none
  | cut => some none

/-- A field that may be a gap or cut off. -/
def defaulted (s : Slot) (levels : Nat) (a : α) : Option α :=
  match s with
  | given v => Codec.read levels v
  | gap => some a
  | cut => some a

end Slot

/-! ### Values kept for later -/

/-- Whether a value can be kept for later: its strings are proper texts, its numbers are finite in
double precision, and it nests no deeper than the levels left. -/
def isKept : Nat → Value → Bool
  | _, .null => true
  | _, .bool _ => true
  | _, .number n => n.isFinite
  | _, .string s => s.isSome
  | 0, .array _ => false
  | 0, .object _ => false
  | levels + 1, .array items => items.all (isKept levels)
  | levels + 1, .object members => members.all fun (key, v) => key.isSome && isKept levels v

end CompressedLedger.Json
