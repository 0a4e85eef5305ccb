import ProviderGraph.Evaluation.Call

/-!
# Finalization and changes of properties

To finalize a property is to compute its producer and its value and to keep both. Nothing is kept
when one of them fails, and the value that was kept first stays.
-/

namespace ProviderGraph

def updateProperty (i : Identity) (f : Property → Property) : Eval Unit := do
  Eval.apply (.setProperty i (f (← Eval.property i)))

/-- Change what a property holds, unless it is locked. -/
def changeProperty (p : PropertyRef) (f : Property → Property) : Attempt Unit := do
  match (← Eval.property p.id).change p.label f with
  | .ok s => Eval.apply (.setProperty p.id s)
  | .error f => throw f

def setProvider (p : PropertyRef) (q : Provider) : Attempt Unit := changeProperty p (·.setValue q)

def setPayload (p : PropertyRef) (x : Payload) : Attempt Unit := do setProvider p (← freshFixed x)

/-- The value that a property would keep, and what produces it. -/
def computeFrozen (p : PropertyRef) (held : Option Provider) : Attempt (Provider × Producer) :=
  match held with
  | some q => do
    let producer ← within (Provider.property p).owner (Ask.producer q)
    let v ← within (Provider.property p).owner (Ask.value q .strict)
    return (← (Classification.ofValue v).toProvider p.type, producer)
  | none => do return (← freshUndefined p.type [], .none)

def evalFinalize (p : PropertyRef) : Attempt Unit := do
  let s ← Eval.property p.id
  if s.finalized then return ()
  else
    let (frozen, producer) ← computeFrozen p s.effective
    updateProperty p.id (·.commit frozen producer)

end ProviderGraph
