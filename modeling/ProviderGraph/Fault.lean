/-!
# Faults

A fault ends the evaluation that raised it and is never turned back into a missing value. User code
fails either by rejecting its input, which is attributed to the provider that called it, or by a
fault of a provider it read, which keeps its identity.
-/

namespace ProviderGraph

/-- Why an evaluation or a change was refused. -/
inductive Fault where
  /-- A missing value was unpacked; the path says where it should have come from. -/
  | missingValue (path : List String)
  /-- User code called by `provider` rejected its input. -/
  | transform (provider message : String)
  /-- A provider was reached again from its own evaluation. -/
  | circular (cycle : List String)
  /-- More scopes were to be nested than the limit allows. -/
  | tooDeep (depth limit : Nat)
  /-- A finalized property was to be changed. -/
  | finalized (property : String)
  /-- A property that disallows changes was to be changed. -/
  | changesDisallowed (property : String)
  /-- The settings cannot be used. -/
  | invalidSettings (reason : String)
deriving DecidableEq

/-- How a piece of user code fails. -/
inductive Failure where
  /-- The code itself rejects its input. -/
  | rejected (message : String)
  /-- A provider read by the code failed. -/
  | fault (f : Fault)
deriving DecidableEq

namespace Fault

/-- The origin of a missing value: the first name of its path, then those it was derived from. -/
def originText : List String → String
  | [] => "this provider"
  | [name] => name
  | name :: rest => name ++ " (derived from " ++ ", ".intercalate rest ++ ")"

def message : Fault → String
  | .missingValue path =>
    "cannot query the value of " ++ originText path ++ " because it has no value available"
  | .transform provider message => "transform of " ++ provider ++ " failed: " ++ message
  | .circular cycle => "circular evaluation detected: " ++ " -> ".intercalate cycle
  | .tooDeep depth limit =>
    "evaluation nested " ++ toString depth ++ " scopes deep, exceeding the limit of "
      ++ toString limit
  | .finalized property => "the value of " ++ property ++ " is final and cannot be changed"
  | .changesDisallowed property => "the value of " ++ property ++ " cannot be changed any further"
  | .invalidSettings reason => "invalid evaluation config: " ++ reason

/-- Whether a fault reports an evaluation that came back to itself. -/
def isCircular : Fault → Bool
  | .circular _ => true
  | _ => false

end Fault

namespace Failure

def message : Failure → String
  | .rejected message => message
  | .fault f => f.message

@[simp] theorem message_rejected (m : String) : (Failure.rejected m).message = m := rfl

@[simp] theorem message_fault (f : Fault) : (Failure.fault f).message = f.message := rfl

end Failure

end ProviderGraph
