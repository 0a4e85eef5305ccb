import ProviderGraph.Evaluation.Basic

/-!
# Calls of user code

How a provider runs the user code it was built with: numbered calls, transforms inside the scope of
their owner, and the choice of the next provider.
-/

namespace ProviderGraph

/-- Make the next call. It is counted before it runs. -/
def nextCall (calls : Calls) : Eval (Except Failure (Option Payload)) := do
  let n := (← Eval.machine).count calls.counter
  Eval.apply (.bump calls.counter)
  Ask.act (calls.code n) calls.held (.int (Int64.ofNat n))

/-- Transform a payload inside the scope of the provider `self`. -/
def applyTransform (self : Provider) (f : Closure) (x : Payload) : Attempt (Option Payload) := do
  let result ← within self.owner (ExceptT.lift (Ask.act f.code f.held x))
  settle (Ask.text self) result

def freshUndefined (type : PayloadType) (path : List String) : Eval Provider := do
  return .undefined (← Eval.identity) type path

def freshFixed (x : Payload) : Eval Provider := do
  return .fixed (← Eval.identity) x

/-- A provider with an effect, if there is one, and the provider itself otherwise. -/
def wrapEffect (p : Provider) : Option Effect → Eval Provider
  | some e => do return .withEffect (← Eval.identity) p e
  | none => pure p

/-- The provider that a flat map chooses for a value. It carries the effect of the value, bound to
its payload; the effect of the chosen provider itself runs before. -/
def chooseNext (self : Provider) (choice : Recipe) (type : PayloadType) (v : Outcome) :
    Attempt Provider := do
  let chosen ← within self.owner (ExceptT.lift
    (match v.payload? with
    | some x => (Ask.build choice (some x)).run
    | none => pure (.ok none)))
  match ← settle (Ask.text self) chosen with
  | some q => wrapEffect q v.boundEffect
  | none => freshUndefined type []

/-- The provider that presence and producers of a flat map go through. It is found by a lenient
reading, whatever the question asks for. -/
def backing (self base : Provider) (choice : Recipe) (type : PayloadType) :
    Attempt Provider := do
  let v ← within self.owner (Ask.value base .lenient)
  if v.isMissing then freshUndefined type [] else chooseNext self choice type v

/-- A provider that reproduces a classification. -/
def Classification.toProvider (type : PayloadType) : Classification → Eval Provider
  | .fixed x e => do wrapEffect (← freshFixed x) e
  | .changing p => pure p
  | .missing path => freshUndefined type path

end ProviderGraph
