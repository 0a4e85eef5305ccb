import Mathlib.Logic.Relation
import ProviderGraph.Proofs.Graph.Agendas

/-!
# Graphs of providers

A provider leads to the providers that it may ask: its parts, what a property holds, and whatever a
flat map may choose for some payload. Properties may tie a graph into cycles.
-/

namespace ProviderGraph

namespace Provider

/-- The first provider may ask the second. -/
inductive Leads (m : Machine) : Provider → Provider → Prop where
  | map {i : Identity} {base : Provider} {f : Closure} {type : PayloadType} :
    Leads m (.map i base f type) base
  | flatMap {i : Identity} {base : Provider} {choice : Recipe} {type : PayloadType} :
    Leads m (.flatMap i base choice type) base
  | chosen {i : Identity} {base q : Provider} {choice : Recipe} {type : PayloadType} {x : Payload}
      {e : Option Effect} (h : chosen m choice type x e = .ok q) :
    Leads m (.flatMap i base choice type) q
  | absent {i : Identity} {base : Provider} {choice : Recipe} {type : PayloadType} :
    Leads m (.flatMap i base choice type) (.undefined m.supply type [])
  | left {i : Identity} {l r : Provider} : Leads m (.orElse i l r) l
  | right {i : Identity} {l r : Provider} : Leads m (.orElse i l r) r
  | withEffect {i : Identity} {inner : Provider} {e : Effect} :
    Leads m (.withEffect i inner e) inner
  | named {i : Identity} {inner : Provider} {name : String} : Leads m (.named i inner name) inner
  | property {p : PropertyRef} {q : Provider} (h : (m.property p.id).effective = some q) :
    Leads m (.property p) q

/-- The second provider may come up in an evaluation of the first. -/
def Reaches (m : Machine) : Provider → Provider → Prop := Relation.ReflTransGen (Leads m)

/-- The code that the provider calls is pure, and reading it changes nothing. -/
def Plain (m : Machine) (c : Reading) : Provider → Prop
  | .changing _ _ _ calls => ∃ r, calls.Steady r
  | .map _ _ f _ => f.code.Pure
  | .flatMap _ _ choice _ => choice.Pure
  | .property p => (m.property p.id).mustFinalize c = false
  | .custom _ _ _ _ _ => False
  | _ => True

/-- All that may come up in an evaluation of the provider is plain. -/
def AllPlain (m : Machine) (c : Reading) (p : Provider) : Prop :=
  ∀ q, p.Reaches m q → q.Plain m c

/-- The provider is plain where certain scopes are open. A property whose scope is among them is not
finalized by a reading, which ends in a cycle. -/
def PlainIn (m : Machine) (c : Reading) (s : ScopeStack) : Provider → Prop
  | .property p => (m.property p.id).mustFinalize c = false ∨
      s.isOpen p.id = true ∧ (m.property p.id).effective.isSome = true
  | p => p.Plain m c

/-- All that may come up in an evaluation of the provider is plain where certain scopes are open. -/
def AllPlainIn (m : Machine) (c : Reading) (s : ScopeStack) (p : Provider) : Prop :=
  ∀ q, p.Reaches m q → q.PlainIn m c s

/-- Among all that may come up, an old identity belongs to one provider. -/
def Identified (m : Machine) (p : Provider) : Prop :=
  ∀ q r, p.Reaches m q → p.Reaches m r → q.id = r.id → q.id < m.supply → q = r

variable {m : Machine} {c : Reading} {p q r : Provider} {s t : ScopeStack}

theorem Reaches.refl (p : Provider) : p.Reaches m p := Relation.ReflTransGen.refl

theorem Leads.reaches (h : p.Leads m q) : p.Reaches m q := Relation.ReflTransGen.single h

theorem Leads.trans (h : p.Leads m q) (h' : q.Reaches m r) : p.Reaches m r :=
  Relation.ReflTransGen.head h h'

/-- What comes up stays in every set that is closed under leading. -/
theorem Reaches.mem {S : Provider → Prop} (h : p.Reaches m q) (hp : S p)
    (hS : ∀ q r, S q → q.Leads m r → S r) : S q := by
  induction h with
  | refl => exact hp
  | tail _ hl ih => exact hS _ _ ih hl

/-- The provider itself is among all that may come up. -/
theorem AllPlain.plain (h : p.AllPlain m c) : p.Plain m c := h p (.refl p)

/-- What a provider leads to is plain if all below it is. -/
theorem AllPlain.leads (h : p.AllPlain m c) (hq : p.Leads m q) : q.AllPlain m c :=
  fun r hr => h r (hq.trans hr)

/-- A plain provider is plain throughout if those are that it leads to. -/
theorem AllPlain.of_leads (h : p.Plain m c) (hq : ∀ q, p.Leads m q → q.AllPlain m c) :
    p.AllPlain m c := by
  intro r hr
  rcases hr.cases_head with rfl | ⟨q, hpq, hqr⟩
  · exact h
  · exact hq q hpq r hqr

/-- Identities are told apart below what a provider leads to. -/
theorem Identified.leads (h : p.Identified m) (hq : p.Leads m q) : q.Identified m :=
  fun _ _ hr hr' => h _ _ (hq.trans hr) (hq.trans hr')

/-- What is plain for a reading that may finalize is plain for one that does not. -/
theorem Plain.lenient (h : p.Plain m c) : p.Plain m .lenient := by
  cases p with
  | property p => rfl
  | _ => exact h

/-- Without properties to finalize it does not matter what is open. -/
theorem Plain.plainIn (h : p.Plain m c) (s : ScopeStack) : p.PlainIn m c s := by
  cases p with
  | property p => exact .inl h
  | _ => exact h

theorem PlainIn.mono (h : p.PlainIn m c s) (hst : ∀ i, s.isOpen i = true → t.isOpen i = true) :
    p.PlainIn m c t := by
  cases p with
  | property p => exact h.imp_right fun ⟨hopen, hq⟩ => ⟨hst _ hopen, hq⟩
  | _ => exact h

theorem PlainIn.lenient (h : p.PlainIn m c s) : p.PlainIn m .lenient s := by
  cases p with
  | property p => exact .inl rfl
  | _ => exact h

/-- What is plain everywhere is plain among open scopes. -/
theorem AllPlain.allPlainIn (h : p.AllPlain m c) (s : ScopeStack) : p.AllPlainIn m c s :=
  fun q hq => (h q hq).plainIn s

namespace AllPlainIn

/-- The provider itself is among all that may come up. -/
theorem plain (h : p.AllPlainIn m c s) : p.PlainIn m c s := h p (.refl p)

/-- What a provider leads to is plain among open scopes if all below it is. -/
theorem leads (h : p.AllPlainIn m c s) (hq : p.Leads m q) : q.AllPlainIn m c s :=
  fun r hr => h r (hq.trans hr)

theorem mono (h : p.AllPlainIn m c s) (hst : ∀ i, s.isOpen i = true → t.isOpen i = true) :
    p.AllPlainIn m c t := fun q hq => (h q hq).mono hst

/-- What is plain to a strict reading is plain to a lenient one. -/
theorem lenient (h : p.AllPlainIn m c s) : p.AllPlainIn m .lenient s :=
  fun q hq => (h q hq).lenient

end AllPlainIn

end Provider

end ProviderGraph
