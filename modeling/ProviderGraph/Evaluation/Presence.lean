import ProviderGraph.Evaluation.Call

/-!
# Presence

Whether a provider has a payload. The question runs no effect and finalizes nothing, whatever the
reading. Outputs of work nodes are taken to be there; most other providers have to be evaluated.
-/

namespace ProviderGraph

/-- Whether the value of a provider, read leniently, is there. -/
def evaluatedPresence (self : Provider) : Attempt Bool := do
  return !(← Ask.ownValue self .lenient).isMissing

def evalPresence (self : Provider) (c : Reading) : Attempt Bool :=
  match self with
  | .fixed _ _ => pure true
  | .undefined _ _ _ => pure false
  | .changing _ _ node _ =>
    match node with
    | some _ => pure true
    | none => do return !(← Ask.ownValue self c).isMissing
  | .map _ _ _ _ => evaluatedPresence self
  | .flatMap _ base choice type => do
    let next ← backing self base choice type
    within self.owner (Ask.presence next .lenient)
  | .orElse _ left right => do
    if ← within self.owner (Ask.presence left c) then return true
    else within self.owner (Ask.presence right c)
  | .withEffect _ inner _ => within self.owner (Ask.presence inner c)
  | .named _ inner _ => within self.owner (Ask.presence inner c)
  | .property p => do
    match (← Eval.property p.id).effective with
    | some q => within self.owner (Ask.presence q c)
    | none => return false
  | .custom _ form _ calls _ =>
    match form.kind with
    | .plain => evaluatedPresence self
    | .spy => do
      Eval.note (.note (form.label ++ ".presence:" ++ c.name))
      match form.presence with
      | some b => return b
      | none =>
        let result ← nextCall calls
        return (← settle (pure form.label) result).isSome

end ProviderGraph
