import ProviderGraph.Evaluation.Call

/-!
# Producers of providers

What would produce the value of a provider, found without computing the value where that can be
avoided. Only a flat map has to look at a value, to know which provider it chooses.
-/

namespace ProviderGraph

def evalProducer (self : Provider) : Attempt Producer :=
  match self with
  | .fixed _ _ => pure .none
  | .undefined _ _ _ => pure .none
  | .changing _ _ node _ =>
    match node with
    | some name => pure (.node name)
    | none => pure .unknown
  | .map _ base _ _ => within self.owner (Ask.producer base)
  | .flatMap _ base choice type => do
    let next ← backing self base choice type
    within self.owner (Ask.producer next)
  | .orElse _ left right => do
    let l ← within self.owner (Ask.producer left)
    let r ← within self.owner (Ask.producer right)
    return l.plus r
  | .withEffect _ inner _ => within self.owner (Ask.producer inner)
  | .named _ inner _ => within self.owner (Ask.producer inner)
  | .property p => do
    let s ← Eval.property p.id
    let attached := Producer.ofOption s.attached
    match s.frozenProducer, s.effective with
    | some frozen, _ => return attached.plus frozen
    | none, some q => return attached.plus (← within self.owner (Ask.producer q))
    | none, none => return attached
  | .custom _ form producer _ _ => do
    Eval.note (.note (form.label ++ ".producer"))
    return producer

end ProviderGraph
