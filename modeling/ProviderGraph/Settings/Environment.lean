import ProviderGraph.Settings.Basic
import ProviderGraph.Text.Blank
import ProviderGraph.Text.Quoted

/-!
# Settings from the environment

An environment variable may carry the depth limit: a decimal number, with an optional plus sign,
between blanks. A thread whose variable cannot be used falls back to the standard settings, so its
limit is never zero.
-/

namespace ProviderGraph

/-- What an environment variable holds. -/
inductive Variable where
  | unset
  | text (s : String)
  /-- The bytes are not UTF-8. -/
  | undecodable

/-- The content of a variable given by its bytes. -/
def Variable.ofBytes (bytes : ByteArray) : Variable :=
  match String.fromUTF8? bytes with
  | some s => .text s
  | none => .undecodable

/-- Why a text is no number. -/
inductive NumberFault where
  | empty
  | badDigit
  | tooLarge
deriving DecidableEq

def NumberFault.message : NumberFault → String
  | .empty => "cannot parse integer from empty string"
  | .badDigit => "invalid digit found in string"
  | .tooLarge => "number too large to fit in target type"

namespace Settings

/-- Append decimal digits to a number. Of two faults the one further left is reported. -/
def readDigits : Nat → List Char → Except NumberFault Nat
  | n, [] => .ok n
  | n, c :: cs =>
    if ¬ c.isDigit then .error .badDigit
    else
      let m := n * 10 + (c.toNat - '0'.toNat)
      if greatestDepth < m then .error .tooLarge else readDigits m cs

/-- A decimal number with an optional plus sign. -/
def readDepth : List Char → Except NumberFault Nat
  | [] => .error .empty
  | ['+'] => .error .badDigit
  | '+' :: cs => readDigits 0 cs
  | cs => readDigits 0 cs

def variableName : String := "LAZYCONF_MAX_EVALUATION_DEPTH"

def ofEnvironment : Variable → Except Fault Settings
  | .unset => .ok standard
  | .undecodable => .error (.invalidSettings (variableName ++ " is not valid unicode"))
  | .text raw =>
    match readDepth (Text.trimBlanks raw.toList) with
    | .ok n => ofDepth n
    | .error e =>
      .error (.invalidSettings (variableName ++ "=" ++ Text.quoted raw ++ ": " ++ e.message))

/-- The settings a fresh thread starts with. -/
def ofThread (v : Variable) : Settings :=
  match ofEnvironment v with
  | .ok s => s
  | .error _ => standard

end Settings

end ProviderGraph
