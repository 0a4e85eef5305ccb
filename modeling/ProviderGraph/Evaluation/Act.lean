import ProviderGraph.Evaluation.Finalize
import ProviderGraph.Evaluation.Register
import ProviderGraph.Evaluation.Value

/-!
# Running actions

The rule for each kind of action. Registers are looked up when the action runs, and after the
actions it is made of.
-/

namespace ProviderGraph

def inquire (q : Inquiry) (p : Provider) : Attempt (Option Payload) :=
  match q with
  | .get => some <$> Ask.get p
  | .getOrNone => Ask.get? p
  | .isPresent => do return some (.bool (← Ask.isPresent p))

def evalAction (a : Action) (held : Option Payload) (x : Payload) : UserCode (Option Payload) :=
  match a with
  | .compute f =>
    match f x with
    | .ok y => pure y
    | .error failure => throw failure
  | .held => pure held
  | .andThen first second => do
    match ← Ask.action first held x with
    | some y => Ask.action second held y
    | none => return none
  | .both left right => do
    let y ← Ask.action left held x
    let z ← Ask.action right held x
    match y, z with
    | some y, some z => return y.add z
    | _, _ => return none
  | .dispatch f => Ask.action (f x) held x
  | .record label => do
    Eval.note (.note (label ++ "(" ++ x.text ++ ")"))
    return some x
  | .perform s => do
    let r ← (Eval.apart (Ask.step s) : Eval Reply)
    Eval.note (.reply r)
    return some x
  | .elsewhere a => ExceptT.mk (Eval.elsewhere (Ask.act a held x))
  | .inquire q r => do
    match ← Ask.build r (some x) with
    | some p => (inquire q p).asUserCode
    | none => return none
  | .assign name a => do
    match ← Ask.action a held x with
    | some y =>
      (setPayload (← lookupProperty name) y).asUserCode
      return some x
    | none => return none
  | .finalize name => do
    let p ← lookupProperty name
    (Ask.finalize p).asUserCode
    return some x
  | .depth => do return some (.int (Int64.ofNat (← Eval.machine).stack.depth))

end ProviderGraph
