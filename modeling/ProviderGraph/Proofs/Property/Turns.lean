import ProviderGraph.Proofs.Engine.RuleComposition
import ProviderGraph.Proofs.Session.Laws

/-!
# Turns of a property

User code changes a property in a few ways only (`Property.Turn`), and a finalization keeps a value
in it (`Property.Settles`). An evaluation is tame if it does no more than user code may. Tame
evaluations are put together from tame parts, one lemma for each way to do so.
-/

namespace ProviderGraph

/-- The value that a provider made for a computed value gives, and gives forever. -/
def Provider.kept? : Provider → Option Outcome
  | .fixed _ x => some (.present x none)
  | .withEffect _ (.fixed _ x) e => some (.present x (some e))
  | .undefined _ _ path => some (.missing path)
  | _ => none

namespace Property

/-- What user code makes of the state of a property. -/
inductive Turn : Property → Property → Prop where
  /-- A provider is set, or the one that was set is cleared. -/
  | put {s : Property} (v : Option Provider) (h : s.finalized = false)
    (h' : s.changesDisallowed = false) : Turn s { s with value := v }
  | convention {s : Property} (q : Provider) (h : s.finalized = false)
    (h' : s.changesDisallowed = false) : Turn s (s.setConvention q)
  | attach {s : Property} (node : String) : Turn s (s.attach node)
  | markFinalizeOnRead {s : Property} : Turn s s.markFinalizeOnRead
  | disallowChanges {s : Property} : Turn s s.disallowChanges

/-- A finalization keeps a value that is as told by `E`, unless one is kept already. -/
def Settles (E : Outcome → Prop) (s s' : Property) : Prop :=
  ∃ frozen t w, E w ∧ frozen.kept? = some w ∧ s' = s.commit frozen t

/-- A change that is not refused is made to an open property. -/
theorem change_eq_ok_iff {label : String} {f : Property → Property} {s s' : Property} :
    s.change label f = .ok s' ↔
      s.finalized = false ∧ s.changesDisallowed = false ∧ s' = f s := by
  rw [change]
  by_cases hf : s.finalized = true
  · simp [hf]
  · by_cases hd : s.changesDisallowed = true
    · simp [hf, hd]
    · simp [hf, hd, eq_comm]

end Property

namespace Eval

variable {α β ε : Type} {S : States}

/-- The evaluation makes of properties what user code makes of them. -/
def Tame (x : Eval α) : Prop :=
  ∀ S, x.Abides (fun _ => Property.Turn) (fun _ _ => True) S fun _ _ => True

namespace Tame

/-- What is tame abides by every law that allows what user code does. -/
theorem abides {x : Eval α} (hx : x.Tame) {law : Law}
    (hlaw : ∀ i s s', Property.Turn s s' → law i s s') (trust : Trust) (S : States) :
    x.Abides law trust S fun _ _ => True :=
  (hx S).imp hlaw (fun _ _ _ => trivial) fun _ _ h => h

theorem pure (a : α) : (Pure.pure a : Eval α).Tame := fun _ => trivial

theorem bind {x : Eval α} {f : α → Eval β} (hx : x.Tame) (hf : ∀ a, (f a).Tame) :
    (x >>= f).Tame := by
  intro S
  rw [abides_bind]
  refine (hx S).imp (fun _ _ _ h => h) (fun _ _ h => h) ?_
  intro S a _
  exact hf a S

theorem ask (q : Query) : (ask q Pure.pure).Tame := fun _ _ _ _ => trivial

theorem machine : Eval.machine.Tame := fun _ _ _ => trivial

theorem identity : Eval.identity.Tame := fun _ _ => trivial

/-- A change is tame if it makes of each property what user code makes of it. -/
theorem apply {c : Change} (h : ∀ S, c.Lawful (fun _ => Property.Turn) S) :
    (Eval.apply c).Tame := fun S => ⟨h S, trivial⟩

theorem keepOpen (name : String) (o : Owner) : (Eval.keepOpen name o).Tame := fun _ _ => trivial

/-- A part that runs in a scope. -/
theorem inScope {o : Owner} {refused : Fault → Eval α} {body : Eval α} (hr : ∀ f, (refused f).Tame)
    (hb : body.Tame) : (Eval.within o refused body).Tame := fun S => ⟨fun f => hr f S, hb S⟩

theorem elsewhere {x : Eval α} (hx : x.Tame) : (Eval.elsewhere x).Tame := hx

theorem apart {x : Eval α} (hx : x.Tame) : (Eval.apart x).Tame := hx

/-! ### Properties -/

/-- A property is changed by a function of its state. -/
theorem updateProperty (i : Identity) {f : Property → Property}
    (hf : ∀ s, Property.Turn s (f s)) : (ProviderGraph.updateProperty i f).Tame := by
  intro S m hm
  refine ⟨?_, trivial⟩
  subst hm
  exact hf (m.property i)

/-- A property that is locked is not changed. -/
theorem changeProperty (r : PropertyRef) {f : Property → Property}
    (hf : ∀ s, s.finalized = false → s.changesDisallowed = false → Property.Turn s (f s)) :
    (ProviderGraph.changeProperty r f).run.Tame := by
  refine fun S => abides_property_bind.mpr fun m hm => ?_
  subst hm
  cases hs : (m.property r.id).change r.label f with
  | error e => trivial
  | ok s =>
    obtain ⟨hopen, hallowed, rfl⟩ := Property.change_eq_ok_iff.mp hs
    exact ⟨hf _ hopen hallowed, trivial⟩

/-- User code may set a property. -/
theorem setProvider (r : PropertyRef) (q : Provider) : (ProviderGraph.setProvider r q).run.Tame :=
  changeProperty r fun _ => .put (some q)

/-- What is put together from tame parts is tame. -/
theorem parts : Compositional @Tame where
  pure := pure
  bind := bind
  ask q _ := ask q
  machine := machine
  identity := identity
  bump _ := apply fun _ => trivial
  note _ := apply fun _ => trivial
  inScope := inScope
  elsewhere := elsewhere
  apart s := apart (ask (.step s))
  setProvider := setProvider

theorem bindExcept {x : ExceptT ε Eval α} {f : α → ExceptT ε Eval β} (hx : x.run.Tame)
    (hf : ∀ a, (f a).run.Tame) : (x >>= f).run.Tame := parts.bindExcept hx hf

theorem lift {x : Eval α} (hx : x.Tame) : (liftM x : ExceptT ε Eval α).run.Tame :=
  parts.lift hx

end Tame

end Eval

end ProviderGraph
