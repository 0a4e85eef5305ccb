import ProviderGraph.Text.Quoted

/-!
# Payloads

A provider computes a payload: a 64-bit integer, a text, a truth value or a list of integers.
Integer arithmetic wraps around. Every payload has a printed form, which identifies it among the
payloads of its type.
-/

namespace ProviderGraph

inductive PayloadType where
  | int | str | bool | list
deriving DecidableEq

/-- What a provider computes. -/
inductive Payload where
  | int (n : Int64)
  | str (s : String)
  | bool (b : Bool)
  | list (xs : List Int64)
deriving DecidableEq

def PayloadType.name : PayloadType → String
  | .int => "int"
  | .str => "str"
  | .bool => "bool"
  | .list => "list"

namespace Payload

def type : Payload → PayloadType
  | .int _ => .int
  | .str _ => .str
  | .bool _ => .bool
  | .list _ => .list

def intText (n : Int64) : String := toString n.toInt

/-- The printed form: texts are quoted, lists stand in brackets. -/
def text : Payload → String
  | .int n => intText n
  | .str s => Text.quoted s
  | .bool b => if b then "true" else "false"
  | .list xs => "[" ++ ", ".intercalate (xs.map intText) ++ "]"

/-- The sum of two payloads of one type: integers add, texts and lists are joined. -/
def add : Payload → Payload → Option Payload
  | .int m, .int n => some (.int (m + n))
  | .str s, .str t => some (.str (s ++ t))
  | .list xs, .list ys => some (.list (xs ++ ys))
  | _, _ => none

/-- The number of characters of a text, or of elements of a list. -/
def length? : Payload → Option Nat
  | .str s => some s.length
  | .list xs => some xs.length
  | _ => none

end Payload

end ProviderGraph
