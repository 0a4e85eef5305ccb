import ProviderGraph.Evaluation.Presence
import ProviderGraph.Evaluation.Production
import ProviderGraph.Evaluation.Render
import ProviderGraph.Session.Step

/-!
# The engine

Every question is answered by its rule, and what the rule asks in turn is answered with less fuel.
-/

namespace ProviderGraph

/-- The rule of a question. -/
def rule : (q : Query) → Eval q.Answer
  | .ownValue p c => (evalValue p c).run
  | .presence p c => (evalPresence p c).run
  | .producer p => (evalProducer p).run
  | .classification p => (evalClassification p).run
  | .text p label => render p label
  | .finalize p => (evalFinalize p).run
  | .act a held x => (evalAction a held x).run
  | .build r held => (evalRecipe r held).run
  | .step s => evalStep s

/-- Answer a question. -/
def answer : Nat → Answerer
  | 0, _, _ => none
  | fuel + 1, q, m => (rule q).run (answer fuel) m

variable (fuel : Nat) (q : Query) (m : Machine)

@[simp] theorem answer_zero : answer 0 q m = none := rfl

theorem answer_succ : answer (fuel + 1) q m = (rule q).run (answer fuel) m := rfl

end ProviderGraph
