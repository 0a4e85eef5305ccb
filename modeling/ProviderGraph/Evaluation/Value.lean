import ProviderGraph.Evaluation.Call

/-!
# Values of providers

The rule for the value of each kind of provider. Whatever a provider reads it reads inside its own
scope, and each scope is closed before the next one is opened.
-/

namespace ProviderGraph

/-- Finalize a property before it is read, if the reading asks for it. -/
def finalizeFor (p : PropertyRef) (c : Reading) : Attempt Unit := do
  if (← Eval.property p.id).mustFinalize c then Ask.finalize p else return ()

/-- The value of a provider, without its declared name. -/
def evalValue (self : Provider) (c : Reading) : Attempt Outcome :=
  match self with
  | .fixed _ x => pure (.present x none)
  | .undefined _ _ path => pure (.missing path)
  | .changing _ _ node calls => do
    let result ← nextCall calls
    return .ofOption (← settle (pure (Provider.callText node)) result)
  | .map _ base f _ => do
    match ← within self.owner (Ask.value base c) with
    | .missing path => return .missing path
    | .present x e =>
      let y ← applyTransform self f x
      return (Value.ofOption y).withEffect (SideEffect.boundTo x e)
  | .flatMap _ base choice type => do
    let v ← within self.owner (Ask.value base c)
    if v.isMissing then return .missing v.path
    else
      let next ← chooseNext self choice type v
      within self.owner (Ask.value next c)
  | .orElse _ left right => do
    let l ← within self.owner (Ask.value left c)
    if l.isMissing then
      let r ← within self.owner (Ask.value right c)
      if r.isMissing then return l.addPath r else return r
    else return l
  | .withEffect _ inner e => do
    return (← within self.owner (Ask.value inner c)).withEffect (some e)
  | .named _ inner _ => within self.owner (Ask.value inner c)
  | .property p => do
    finalizeFor p c
    match (← Eval.property p.id).effective with
    | some q => within self.owner (Ask.value q c)
    | none => return .missing []
  | .custom _ form _ calls effect => do
    Eval.note (.note (form.label ++ ".value:" ++ c.name))
    let result ← nextCall calls
    match ← settle (pure form.label) result with
    | some x => return .present x effect
    | none => return .missing form.path

/-- Do the deeds of an effect in order. -/
def perform : List (Action × Payload) → Eval Unit
  | [] => pure ()
  | (a, x) :: deeds => do
    let _ ← Ask.act a none x
    perform deeds

/-- Unpack a value: its effect runs, and its payload is given. -/
def unpack (v : Outcome) : Attempt Payload :=
  match v.unpack with
  | .ok (x, deeds) => do
    perform deeds
    return x
  | .error f => throw f

def unpack? : Outcome → Attempt (Option Payload)
  | .missing _ => pure none
  | v => some <$> unpack v

/-- Evaluate a provider strictly and unpack its value. -/
def Ask.get (p : Provider) : Attempt Payload := do unpack (← Ask.value p .strict)

/-- Evaluate a provider strictly and unpack its value, if it has one. -/
def Ask.get? (p : Provider) : Attempt (Option Payload) := do
  unpack? (← Ask.value p .strict)

/-- Whether a provider has a payload, read leniently. -/
def Ask.isPresent (p : Provider) : Attempt Bool := Ask.presence p .lenient

end ProviderGraph
