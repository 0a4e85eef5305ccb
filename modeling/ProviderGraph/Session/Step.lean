import ProviderGraph.Session.Classification
import ProviderGraph.Session.Producer
import ProviderGraph.Session.Property
import ProviderGraph.Session.Scope

/-!
# Steps

Each step of a session has a reply. A fault is a reply too: it ends the step and not the session.
-/

namespace ProviderGraph

/-- The reply that tells how a piece of user code ended. -/
def Reply.ofResult : Except Failure Reply → Reply
  | .ok r => r
  | .error (.fault f) => .fault f
  | .error (.rejected reason) => .refused reason

def runAll : List Step → Eval (List Reply)
  | [] => pure []
  | s :: ss => do
    let r ← Ask.step s
    return r :: (← runAll ss)

/-- Run steps several times, for the replies of the last round. -/
def runRounds (body : List Step) : Nat → Eval (List Reply)
  | 0 => pure []
  | 1 => runAll body
  | n + 2 => do
    let _ ← runAll body
    runRounds body (n + 1)

/-- Run steps in the scope of an owner, if it can be opened. -/
def tryRun (o : Owner) (body : List Step) : Eval Reply :=
  Eval.within o (fun _ => pure (.text "fallback")) do return .replies (← runAll body)

/-- Build the provider that a step names. A step holds no payload. -/
def built (r : Recipe) : UserCode Provider := do
  match ← Ask.build r none with
  | some p => return p
  | none => throw (.rejected "the recipe builds nothing")

def resolve : Declared String Recipe → UserCode (Declared PropertyRef Provider)
  | .property name => do return .property (← lookupProperty name)
  | .provider r => do return .provider (← built r)
  | .absent => pure .absent

def carryOut : Step → UserCode Reply
  | .iterate n body => do return .replies (← runRounds body n)
  | .onThread body => do return .replies (← (Eval.elsewhere (runAll body) : Eval (List Reply)))
  | .tryRun owner body => do tryRun (← lookupOwner owner) body
  | .runEffect e x => performEffect e x
  | .scope request => request.answer
  | .producer request => request.answer
  | .provider e request => do request.answer (← built e)
  | .same a b => do
    let p ← built a
    let q ← built b
    return .flag (p.id == q.id)
  | .newProperty p type name => declareProperty p type name
  | .property p request => do (request.answer (← lookupProperty p)).asUserCode
  | .setProvider p e => do
    let q ← built e
    (setProvider (← lookupProperty p) q).asUserCode
    return .done
  | .convention p e => do
    let q ← built e
    (changeProperty (← lookupProperty p) (·.setConvention q)).asUserCode
    return .done
  | .declared d request => do (request.answer (← resolve d)).asUserCode
  | .value v request => request.answer v
  | .valueWithEffect v e => updateValue v (·.withEffect e)
  | .valueTransform v f type into => transformValue v f type into
  | .classification v request => request.answer v
  | .classificationChanging v e => do
    let p ← built e
    keepClassification v p.type (.changing p)
  | .classificationWithEffect v e => addClassificationEffect v e

def evalStep (s : Step) : Eval Reply := do return .ofResult (← (carryOut s).run)

end ProviderGraph
