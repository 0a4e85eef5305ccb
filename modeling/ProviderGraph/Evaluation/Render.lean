import ProviderGraph.Evaluation.Basic

/-!
# Texts of providers

A provider is shown by its structure. It is rendered inside its own scope, so a provider that
appears inside its own description is shown there by its label.
-/

namespace ProviderGraph

/-- The text of a provider whose scope is open. -/
def describe : Provider → Eval String
  | .fixed _ x => pure ("fixed(" ++ x.text ++ ")")
  | .undefined _ _ _ => pure "undefined"
  | .changing _ _ node _ => pure (Provider.callText node)
  | .map _ base _ _ => do return "map(" ++ (← Ask.text base) ++ ")"
  | .flatMap _ base _ _ => do return "flatmap(" ++ (← Ask.text base) ++ ")"
  | .orElse _ left right => do
    let l ← Ask.text left
    let r ← Ask.text right
    return "or(" ++ l ++ ", " ++ r ++ ")"
  | .withEffect _ inner _ => Ask.text inner
  | .named _ _ name => pure name
  | .property p =>
    match p.name with
    | some name => pure name
    | none => do
      match (← Eval.property p.id).effective with
      | some q => return "property(" ++ (← Ask.text q) ++ ")"
      | none => return "property(undefined)"
  | .custom _ form _ _ _ =>
    match form.kind with
    | .plain => pure form.kind.name
    | .spy => pure (form.kind.name ++ "<" ++ form.label ++ ">")

/-- The text of a provider, or its label when its scope cannot be opened. -/
def render (p : Provider) (label : String) : Eval String :=
  Eval.within ⟨p.id, label⟩ (fun _ => pure label) (describe p)

end ProviderGraph
