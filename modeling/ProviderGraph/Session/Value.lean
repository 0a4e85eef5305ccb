import ProviderGraph.Evaluation.Register
import ProviderGraph.Evaluation.Value

/-!
# Requests to a value register

What a session does with values themselves. A request that gives a new value keeps it in the
register; one that consumes the value empties the register.
-/

namespace ProviderGraph

/-- Keep a value in a register, and tell it. -/
def tellValue (name : String) (type : PayloadType) (v : Outcome) : UserCode Reply := do
  Eval.apply (.keepValue (some name) ⟨type, v⟩)
  return .value (some v)

def takeValue (name : String) : UserCode (Typed Outcome) := do
  let v ← lookupValue name
  Eval.apply (.dropValue name)
  return v

def updateValue (name : String) (f : Outcome → Outcome) : UserCode Reply := do
  let v ← lookupValue name
  tellValue name v.type (f v.content)

/-- Run an effect on a payload, and tell whether there is one. -/
def performEffect (e : Option Effect) (x : Payload) : Eval Reply := do
  perform (SideEffect.deedsOf e x)
  return .flag e.isSome

def ValueRequest.answer (name : String) : ValueRequest → UserCode Reply
  | .present x => tellValue name x.type (.present x none)
  | .missing type path => tellValue name type (.missing path)
  | .ofOption type x => tellValue name type (.ofOption x)
  | .get => do
    let v ← takeValue name
    return .payload (some (← (unpack v.content).asUserCode))
  | .getOrNone => do
    let v ← takeValue name
    return .payload (← (unpack? v.content).asUserCode)
  | .push label => updateValue name (·.push label)
  | .addPath other => do
    let w ← lookupValue other
    updateValue name (·.addPath w.content)
  | .asMissing type into => do
    match (← lookupValue name).content.asMissing with
    | some v =>
      Eval.apply (.keepValue into ⟨type, v⟩)
      return .value (some v)
    | none => return .value none
  | .runBound x => do performEffect (← lookupValue name).content.boundEffect x
  | .runEffect x => do performEffect (← lookupValue name).content.effect? x
  | .inspect => do return .inspected (← lookupValue name).content

/-- The payload that an action gives; the action must give one. -/
def transformed (f : Action) (x : Payload) : UserCode Payload := do
  match ← Ask.action f none x with
  | some y => return y
  | none => throw (.rejected "the transform gives nothing")

/-- Take a value out of its register, transform its payload, and keep the result. -/
def transformValue (name : String) (f : Action) (type : PayloadType) (into : String) :
    UserCode Reply := do
  let v := (← takeValue name).content
  match v.payload? with
  | some x =>
    let y ← transformed f x
    tellValue into type (v.transform fun _ => y)
  | none => tellValue into type (.missing v.path)

end ProviderGraph
