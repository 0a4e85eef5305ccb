import ProviderGraph.Evaluation.Act

/-!
# Requests to a property

What a session does with a property, and with values that are declared by a property, by a
provider, or not at all.
-/

namespace ProviderGraph

def declareProperty (register : String) (type : PayloadType) (name : Option String) :
    Eval Reply := do
  let i ← Eval.identity
  Eval.apply (.keepProperty register ⟨i, type, name⟩)
  return .done

def PropertyRequest.answer (p : PropertyRef) : PropertyRequest → Attempt Reply
  | .copy into => do
    Eval.apply (.keepProperty into p)
    return .done
  | .set x => do
    setPayload p x
    return .done
  | .unset => do
    changeProperty p (·.clear)
    return .done
  | .finalize => do
    Ask.finalize p
    return .done
  | .finalizeOnRead => do
    updateProperty p.id (·.markFinalizeOnRead)
    return .done
  | .disallowChanges => do
    updateProperty p.id (·.disallowChanges)
    return .done
  | .attach node => do
    updateProperty p.id (·.attach node)
    return .done
  | .isFinalized => do return .flag (← Eval.property p.id).finalized
  | .name => pure (.optionalText p.name)
  | .get => do return .payload (some (← Ask.get (.property p)))
  | .getOrNone => do return .payload (← Ask.get? (.property p))
  | .isPresent => do return .flag (← Ask.isPresent (.property p))
  | .text => do return .text (← Ask.propertyText p)
  | .debugText => do return .text ("Property(" ++ (← Ask.propertyText p) ++ ")")

/-- Carry out a request to a declared value. Only a property can be finalized. -/
def DeclaredRequest.answer (d : Declared PropertyRef Provider) : DeclaredRequest → Attempt Reply
  | .call =>
    match d with
    | .property p => do return .payload (← Ask.get? (.property p))
    | .provider p => do return .payload (← Ask.get? p)
    | .absent => pure (.payload none)
  | .producer =>
    match d with
    | .property p => do return .producer (← Ask.producer (.property p))
    | .provider p => do return .producer (← Ask.producer p)
    | .absent => pure (.producer .none)
  | .finalize =>
    match d with
    | .property p => do
      Ask.finalize p
      return .done
    | _ => pure .done

end ProviderGraph
