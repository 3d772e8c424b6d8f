import Readahead.Progress
import Readahead.Scanner

/-! Records of sizes written as data: by name, or as a row in the order of the fields. A record by
name may hold further fields, a row may not, and a name given more than once counts with its last
value. A size is a whole number from nought to the last that 64 bits hold. -/
namespace Readahead

inductive Field where
  | integer (value : Int)
  | other
  deriving DecidableEq, Repr

inductive Record where
  | named (fields : List (String × Field))
  | row (fields : List Field)
  | other
  deriving DecidableEq, Repr

namespace Record

def sizeLimit : Nat := UInt64.size

def size? : Field → Option Nat
  | .integer value => if 0 ≤ value ∧ value < sizeLimit then some value.toNat else none
  | .other => none

def sizes? (names : List String) : Record → Option (List Nat)
  | .named fields => names.mapM fun name => (fields.reverse.lookup name).bind size?
  | .row fields => if fields.length = names.length then fields.mapM size? else none
  | .other => none

def ofSizes (names : List String) (sizes : List Nat) : Record :=
  .named (names.zip (sizes.map fun n : Nat => .integer n))

end Record

namespace Settings

def names : List String := ["scratch_capacity"]

def ofRecord? (r : Record) : Option Settings :=
  match r.sizes? names with
  | some [capacity] => some ⟨capacity⟩
  | _ => none

def toRecord (s : Settings) : Record := .ofSizes names [s.capacity]

end Settings

namespace Position

def names : List String := ["line", "column", "offset"]

def ofRecord? (r : Record) : Option Position :=
  match r.sizes? names with
  | some [line, column, offset] => some ⟨line, column, offset⟩
  | _ => none

def toRecord (p : Position) : Record := .ofSizes names [p.line, p.column, p.offset]

end Position
end Readahead
