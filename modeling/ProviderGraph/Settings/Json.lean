import ProviderGraph.Decimal.Text
import ProviderGraph.Json.Number
import ProviderGraph.Json.Text
import ProviderGraph.Settings.Basic
import ProviderGraph.Text.Quoted

/-!
# Settings from JSON

The settings are an object with at most one member, the depth limit, or a list with at most that
one element. The text is read from left to right and the first fault is reported, be it one of
JSON or one of meaning.
-/

namespace ProviderGraph.Settings

open Json

/-! ### What can be found in place of a setting -/

/-- A JSON value as far as it is named in a report. -/
inductive Shape where
  | null
  | boolean (b : Bool)
  | number (n : Numeral)
  | string (s : String)
  | sequence
  | map

def numeralText : Numeral → String
  | .natural n => "integer \x60" ++ toString n ++ "\x60"
  | .negative n => "integer \x60" ++ toString n ++ "\x60"
  | .real f => "floating point \x60" ++ Decimal.floatText f ++ "\x60"

def Shape.text : Shape → String
  | .null => "null"
  | .boolean b => "boolean \x60" ++ (if b then "true" else "false") ++ "\x60"
  | .number n => numeralText n
  | .string s => "string " ++ Text.quoted s
  | .sequence => "sequence"
  | .map => "map"

/-- Why a text gives no settings. -/
inductive ReadFault where
  | notJson (f : SyntaxFault)
  | unknownField (name : String)
  | duplicateField
  | wrongType (found : Shape) (expected : String)
  | wrongNumber (found : Numeral)

def settingsWord : String := "struct EvaluationConfig"

def depthWord : String := "usize"

def ReadFault.message : ReadFault → String
  | .notJson f => f.message
  | .unknownField name =>
    "unknown field \x60" ++ name ++ "\x60, expected \x60" ++ depthKey ++ "\x60"
  | .duplicateField => "duplicate field \x60" ++ depthKey ++ "\x60"
  | .wrongType found expected => "invalid type: " ++ found.text ++ ", expected " ++ expected
  | .wrongNumber found => "invalid value: " ++ numeralText found ++ ", expected " ++ depthWord

/-! ### Reading -/

/-- What was read at the front of a text, and the rest of the text. -/
abbrev Front (α : Type) := α × List Char

def bad {α : Type} (f : SyntaxFault) : Except ReadFault α := .error (.notJson f)

def lift {α : Type} : Except SyntaxFault α → Except ReadFault α
  | .ok a => .ok a
  | .error f => bad f

/-- The white space of JSON. -/
def isSpace (c : Char) : Bool := c == ' ' || c == '\n' || c == '\t' || c == '\r'

def skip (cs : List Char) : List Char := cs.dropWhile isSpace

/-- The rest of a literal, after its first letter. -/
def readWord : List Char → List Char → Except ReadFault Unit
  | [], _ => .ok ()
  | _ :: _, [] => bad .endInValue
  | w :: ws, c :: cs => if c = w then readWord ws cs else bad .expectedLiteral

/-- The value at the front of a text, as far as it is named in a report. -/
def readShape : List Char → Except ReadFault Shape
  | 'n' :: rest => do readWord ['u', 'l', 'l'] rest; return .null
  | 't' :: rest => do readWord ['r', 'u', 'e'] rest; return .boolean true
  | 'f' :: rest => do readWord ['a', 'l', 's', 'e'] rest; return .boolean false
  | '"' :: rest => do return .string (← lift (readText rest)).1
  | '[' :: _ => .ok .sequence
  | '\x7b' :: _ => .ok .map
  | '-' :: rest => do return .number (← lift (readNumeral true rest)).1
  | c :: rest =>
    if c.isDigit then do return .number (← lift (readNumeral false (c :: rest))).1
    else bad .expectedValue
  | [] => bad .expectedValue

/-- Report the value at the front of a text as one of the wrong type. -/
def refuse {α : Type} (expected : String) (cs : List Char) : Except ReadFault α := do
  throw (.wrongType (← readShape cs) expected)

/-- The depth that a number gives. -/
def depthOfNumeral : Numeral → Except ReadFault Nat
  | .natural n => .ok n
  | .negative n => .error (.wrongNumber (.negative n))
  | .real f => .error (.wrongType (.number (.real f)) depthWord)

def readDepthValue (cs : List Char) : Except ReadFault (Front Nat) :=
  match skip cs with
  | [] => bad .endInValue
  | '-' :: rest => do
    let (numeral, rest) ← lift (readNumeral true rest)
    return (← depthOfNumeral numeral, rest)
  | c :: rest =>
    if c.isDigit then do
      let (numeral, rest) ← lift (readNumeral false (c :: rest))
      return (← depthOfNumeral numeral, rest)
    else refuse depthWord (c :: rest)

def readList (cs : List Char) : Except ReadFault (Front (Option Nat)) :=
  match skip cs with
  | [] => bad .endInList
  | ']' :: rest => .ok (none, rest)
  | cs => do
    let (depth, rest) ← readDepthValue cs
    match skip rest with
    | [] => bad .endInList
    | ']' :: rest => return (some depth, rest)
    | ',' :: rest =>
      match skip rest with
      | ']' :: _ => bad .trailingComma
      | _ => bad .trailingText
    | _ => bad .trailingText

/-- A member of an object, from its key on. There is only one setting, so a second member that is
known is a duplicate. -/
def readMember (seen : Bool) (cs : List Char) : Except ReadFault (Front Nat) := do
  let (key, rest) ← lift (readText cs)
  if key ≠ depthKey then throw (.unknownField key)
  else if seen then throw .duplicateField
  else
    match skip rest with
    | [] => bad .endInObject
    | ':' :: rest => readDepthValue rest
    | _ => bad .expectedColon

/-- What follows the first member of an object. A further member is always a fault. -/
def readObjectEnd (cs : List Char) : Except ReadFault (Front Unit) :=
  match skip cs with
  | [] => bad .endInObject
  | '\x7d' :: rest => .ok ((), rest)
  | ',' :: rest =>
    match skip rest with
    | [] => bad .endInValue
    | '"' :: rest => do
      let (_, rest) ← readMember true rest
      return ((), rest)
    | '\x7d' :: _ => bad .trailingComma
    | _ => bad .keyNotString
  | _ => bad .expectedCommaOrBrace

def readObject (cs : List Char) : Except ReadFault (Front (Option Nat)) :=
  match skip cs with
  | [] => bad .endInObject
  | '\x7d' :: rest => .ok (none, rest)
  | '"' :: rest => do
    let (depth, rest) ← readMember false rest
    let (_, rest) ← readObjectEnd rest
    return (some depth, rest)
  | _ => bad .keyNotString

/-- The depth that a whole text gives, if it gives one. -/
def readSettings (cs : List Char) : Except ReadFault (Option Nat) := do
  let (depth, rest) ← match skip cs with
    | [] => bad .endInValue
    | '[' :: rest => readList rest
    | '\x7b' :: rest => readObject rest
    | cs => refuse settingsWord cs
  if (skip rest).isEmpty then return depth else bad .trailingText

/-- The settings that a JSON text gives. -/
def ofJson (text : String) : Except Fault Settings :=
  match readSettings text.toList with
  | .ok depth => ofDepth (depth.getD standard.maxDepth)
  | .error f => .error (.invalidSettings f.message)

end ProviderGraph.Settings
