import ProviderGraph.Evaluation.Build

/-!
# Requests to a provider

The questions that a session puts to a provider: directly, or through the scope of another owner.
-/

namespace ProviderGraph

def tellClassification (c : Classification) : Eval Reply :=
  match c.changing? with
  | some p => do return .classification c (some (← Ask.text p))
  | none => pure (.classification c none)

/-- Put a question to a provider through the scope of an owner. -/
def GuardedRequest.answer (o : Owner) (p : Provider) : GuardedRequest → Attempt Reply
  | .value c => do return .value (some (← within o (Ask.value p c)))
  | .presence c => do return .flag (← within o (Ask.presence p c))
  | .producer => do return .producer (← within o (Ask.producer p))
  | .classification => do tellClassification (← within o (Ask.classification p))
  | .type => pure (.optionalText (p.knownType.map (·.name)))
  | .text => do return .text (← Ask.text p)
  | .inner => do return .text (← Ask.text p)

/-- Keep a value that a provider gave, and tell it. -/
def keepOutcome (p : Provider) (into : Option String) (v : Outcome) : Eval Reply := do
  Eval.apply (.keepValue into ⟨p.type, v⟩)
  return .value (some v)

def ProviderRequest.answer (p : Provider) : ProviderRequest → UserCode Reply
  | .keep into => do
    Eval.apply (.keepProvider into p)
    return .done
  | .get => do return .payload (some (← (Ask.get p).asUserCode))
  | .getOrNone => do return .payload (← (Ask.get? p).asUserCode)
  | .isPresent => do return .flag (← (Ask.isPresent p).asUserCode)
  | .presence c => do return .flag (← (Ask.presence p c).asUserCode)
  | .value c into => do keepOutcome p into (← (Ask.value p c).asUserCode)
  | .ownValue c into => do keepOutcome p into (← (Ask.ownValue p c).asUserCode)
  | .producer into => do
    let tree ← (Ask.producer p).asUserCode
    Eval.apply (.keepProducer into tree)
    return .producer tree
  | .classification into => do
    let c ← (Ask.classification p).asUserCode
    Eval.apply (.keepClassification into ⟨p.type, c⟩)
    tellClassification c
  | .type => pure (.optionalText (p.knownType.map (·.name)))
  | .text => do return .text (← Ask.text p)
  | .debugText => do return .text ("Provider(" ++ (← Ask.text p) ++ ")")
  | .info => pure (.info p.kind p.declaredName)
  | .guarded owner request => do
    (request.answer (← lookupOwner owner) p).asUserCode

end ProviderGraph
