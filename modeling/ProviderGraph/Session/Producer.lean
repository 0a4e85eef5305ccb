import ProviderGraph.Evaluation.Build

/-!
# Requests to the producer registers

A session puts producer trees together, keeps them and compares them.
-/

namespace ProviderGraph

def ProducerRequest.answer : ProducerRequest → UserCode Reply
  | .keep term into => do
    let p := term.tree (← Eval.machine).locals.producers
    Eval.apply (.keepProducer into p)
    return .producer p
  | .same a b => do
    let registers := (← Eval.machine).locals.producers
    return .flag ((a.tree registers).same (b.tree registers))

end ProviderGraph
