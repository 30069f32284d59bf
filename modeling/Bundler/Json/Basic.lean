import Bundler.Decimal.Shortest
import Bundler.Table
import Bundler.Text.Split

/-!
# JSON values

A number is an integer when it was written as one that fits 64 bits, with or without sign, and the
64 bits of a double otherwise. The fields of an object keep the order they are given in.
-/

namespace Bundler

namespace Json

inductive Number
  | natural (n : Nat)
  /-- The integer `-n`. -/
  | negative (n : Nat)
  | binary (bits : UInt64)
deriving DecidableEq, Inhabited

end Json

inductive Json
  | null
  | bool (b : Bool)
  | number (n : Json.Number)
  | text (s : String)
  | list (items : List Json)
  | object (fields : List (String × Json))
deriving Inhabited

namespace Json

def nat (n : Nat) : Json := .number (.natural n)

/-- The list of some texts. -/
def texts (ss : List String) : Json := .list (ss.map .text)

/-- The fields of an object in key order; of two fields of one name the later stays. -/
def sortedFields (fields : List (String × Json)) : List (String × Json) :=
  (Table.ofList fields).toList

/-- The value of a field, if this is an object that has it. -/
def field? (name : String) : Json → Option Json
  | .object fields => Table.find name fields
  | _ => none

def text? : Json → Option String
  | .text s => some s
  | _ => none

end Json

end Bundler
