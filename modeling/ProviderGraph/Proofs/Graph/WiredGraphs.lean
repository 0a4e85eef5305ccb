import Mathlib.Data.Finset.Card
import ProviderGraph.Proofs.Graph.Basic
import ProviderGraph.Proofs.Identity.OldAndNew

/-!
# Wired graphs

Finitely many providers that are wired together in any way, cycles included. Whatever comes up in a
query is one of them, or is built on the way around one of them, and no query fails in user code.
Each of the nodes can be open once, and at most one new scope is opened between two nodes, which
bounds the depth of every query.
-/

namespace ProviderGraph

/-- The code is a function that has a result for every payload. -/
def Closure.Total (f : Closure) : Prop :=
  f.code.Pure ∧ ∀ x, ∃ y, f.code.result f.held x = .ok y

/-- The recipe gives one of the nodes for every payload, or nothing. -/
def Recipe.Total (m : Machine) (nodes : List Provider) (choice : Recipe) : Prop :=
  choice.Pure ∧ ∀ x, ∃ q, choice.plan m (some x) = .ok q ∧ ∀ r ∈ q, r ∈ nodes

/-- The parts of the provider are nodes, and its code does not fail. -/
def Provider.WiredTo (m : Machine) (nodes : List Provider) : Provider → Prop
  | .fixed _ _ | .undefined _ _ _ => True
  | .map _ base f _ => base ∈ nodes ∧ f.Total
  | .flatMap _ base choice _ => base ∈ nodes ∧ choice.Total m nodes
  | .orElse _ left right => left ∈ nodes ∧ right ∈ nodes
  | .withEffect _ inner _ | .named _ inner _ => inner ∈ nodes
  | .property r => (m.property r.id).finalizeOnRead = false ∧
      ∀ q, (m.property r.id).effective = some q → q ∈ nodes
  | .changing _ _ _ _ | .custom _ _ _ _ _ => False

/-- A graph of providers and properties, each with an identity of its own. -/
structure Wired (m : Machine) (nodes : List Provider) : Prop where
  minted : ∀ p ∈ nodes, p.Minted m.supply
  distinct : ∀ p ∈ nodes, ∀ q ∈ nodes, p.id = q.id → p = q
  wired : ∀ p ∈ nodes, p.WiredTo m nodes

/-- A node, or what a flat map goes on with. -/
inductive Provider.Inside (m : Machine) (nodes : List Provider) : Provider → Prop where
  | node {p : Provider} (h : p ∈ nodes) : Inside m nodes p
  | effect {p : Provider} (h : p ∈ nodes) (e : Effect) : Inside m nodes (.withEffect m.supply p e)
  | absent (type : PayloadType) : Inside m nodes (.undefined m.supply type [])

variable {m : Machine} {nodes : List Provider} {p q : Provider} {s t : ScopeStack}

open Provider (Inside chosen)

/-! ### What comes up -/

/-- A flat map goes on with a node, possibly behind an effect, or with nothing. -/
theorem Recipe.Total.exists_chosen {choice : Recipe} (h : choice.Total m nodes)
    (type : PayloadType) (x : Payload) (e : Option Effect) :
    ∃ q, chosen m choice type x e = .ok q ∧ q.Inside m nodes := by
  obtain ⟨q, hq, hnodes⟩ := h.2 x
  rw [chosen, hq]
  cases q with
  | none => exact ⟨_, rfl, .absent type⟩
  | some q =>
    have hq := hnodes q rfl
    cases e with
    | none => exact ⟨q, rfl, .node hq⟩
    | some e => exact ⟨_, rfl, .effect hq e⟩

/-- What a node leads to is inside the graph. -/
theorem Wired.inside_of_leads (h : Wired m nodes) (hp : p ∈ nodes) (hq : p.Leads m q) :
    q.Inside m nodes := by
  have hwired := h.wired p hp
  cases hq with
  | map | flatMap | left => exact .node hwired.1
  | right => exact .node hwired.2
  | withEffect | named => exact .node hwired
  | property hq => exact .node (hwired.2 q hq)
  | absent => exact .absent _
  | @chosen _ _ _ _ type x e hq =>
    obtain ⟨q', hq', hinside⟩ := hwired.2.exists_chosen type x e
    obtain rfl := Except.ok.inj (hq'.symm.trans hq)
    exact hinside

/-- What a provider of a wired graph leads to belongs to the graph. -/
theorem Provider.Inside.leads (h : Wired m nodes) (hp : p.Inside m nodes) (hq : p.Leads m q) :
    q.Inside m nodes := by
  cases hp with
  | node hp => exact h.inside_of_leads hp hq
  | effect hp e =>
    cases hq
    exact .node hp
  | absent type => exact nomatch hq

/-- An old provider inside the graph is a node. -/
theorem Provider.Inside.mem (h : p.Inside m nodes) (hid : p.id < m.supply) : p ∈ nodes := by
  cases h with
  | node h => exact h
  | effect | absent => exact absurd hid (Nat.lt_irrefl _)

/-- What is inside the graph is plain, whichever way it is read. -/
theorem Wired.allPlain (h : Wired m nodes) (hp : p ∈ nodes) (c : Reading) : p.AllPlain m c := by
  intro q hq
  have hinside : q.Inside m nodes := hq.mem (.node hp) fun q r => .leads h
  cases hinside with
  | effect | absent => trivial
  | node hq =>
    have hwired := h.wired q hq
    cases q with
    | fixed | undefined | orElse | withEffect | named => trivial
    | map | flatMap => exact hwired.2.1
    | property r =>
      rw [Provider.Plain]
      cases c with
      | strict => rw [Property.mustFinalize, hwired.1, Bool.false_and]
      | lenient => rfl
    | changing | custom => exact hwired.elim

/-! ### No failures -/

/-- The agenda has a result, whatever the answers. -/
def Agenda.Total {α : Type} : Agenda α → Prop
  | .done r => ∃ a, r = .ok a
  | .ask _ next => ∀ a, (next a).Total

namespace Agenda.Total

variable {α β : Type}

theorem pure (a : α) : (Pure.pure a : Agenda α).Total := ⟨a, rfl⟩

theorem bind {x : Agenda α} {f : α → Agenda β} (hx : x.Total) (hf : ∀ a, (f a).Total) :
    (x >>= f).Total := by
  induction x with
  | done r =>
    obtain ⟨a, rfl⟩ := hx
    exact hf a
  | ask d next ih => exact fun a => ih a (hx a)

/-- A single demand has a result. -/
theorem demand (d : Demand) : (Agenda.demand d).Total := fun a => pure a

theorem askValue (p : Provider) : (Agenda.askValue p).Total :=
  askValue_eq p ▸ (demand _).bind fun _ => pure _

end Agenda.Total

section Total

open Agenda.Total

/-- A flat map whose code never fails always goes on with something. -/
theorem Recipe.Total.next {choice : Recipe} (h : choice.Total m nodes) (type : PayloadType)
    (v : Outcome) : (Provider.next m choice type v).Total := by
  cases v with
  | missing path => exact pure _
  | present x e =>
    obtain ⟨q, hq, -⟩ := h.exists_chosen type x (SideEffect.boundTo x e)
    exact ⟨q, hq⟩

theorem Recipe.Total.backed {choice : Recipe} (h : choice.Total m nodes) (base : Provider)
    (type : PayloadType) : (Provider.backed m base choice type).Total :=
  (askValue base).bind fun v => h.next type v

/-- The rule for values has a result. -/
theorem Wired.valueAgenda_total (h : p.WiredTo m nodes) : (p.valueAgenda m).Total := by
  cases p with
  | fixed | undefined => exact pure _
  | changing | custom => exact h.elim
  | map i base f type =>
    refine (askValue base).bind fun
      | .missing path => pure _
      | .present x e => bind (h.2.2 x) fun _ => pure _
  | flatMap i base choice type =>
    exact (askValue base).bind fun
      | .missing path => pure _
      | .present x e => (h.2.next type (.present x e)).bind fun q => askValue q
  | orElse i left right =>
    exact (askValue left).bind fun
      | .present x e => pure _
      | .missing path => (askValue right).bind fun
        | .present x e => pure _
        | .missing path' => pure _
  | withEffect i inner e => exact (askValue inner).bind fun _ => pure _
  | named i inner name => exact askValue inner
  | property r =>
    rw [Provider.valueAgenda]
    split
    · exact askValue _
    · exact pure _

/-- The rule for presence has a result. -/
theorem Wired.presenceAgenda_total (h : p.WiredTo m nodes) : (p.presenceAgenda m).Total := by
  cases p with
  | fixed | undefined => exact pure _
  | changing | custom => exact h.elim
  | map i base f type => exact (valueAgenda_total h).bind fun _ => pure _
  | flatMap i base choice type => exact (h.2.backed base type).bind fun q => demand _
  | orElse i left right =>
    refine (demand (.presence left)).bind fun l => ?_
    split
    · exact pure _
    · exact demand _
  | withEffect i inner e => exact demand _
  | named i inner name => exact demand _
  | property r =>
    rw [Provider.presenceAgenda]
    split
    · exact demand _
    · exact pure _

/-- The rule for producers has a result. -/
theorem Wired.producerAgenda_total (h : p.WiredTo m nodes) : (p.producerAgenda m).Total := by
  cases p with
  | fixed | undefined => exact pure _
  | changing | custom => exact h.elim
  | map i base f type => exact demand _
  | flatMap i base choice type => exact (h.2.backed base type).bind fun q => demand _
  | orElse i left right => exact (demand _).bind fun _ => (demand _).bind fun _ => pure _
  | withEffect i inner e => exact demand _
  | named i inner name => exact demand _
  | property r =>
    rw [Provider.producerAgenda]
    split
    · exact pure _
    · exact (demand _).bind fun _ => pure _
    · exact pure _

/-- The rule for classifications has a result. -/
theorem Wired.classificationAgenda_total (h : p.WiredTo m nodes) :
    (p.classificationAgenda m).Total := by
  cases p with
  | fixed | undefined => exact pure _
  | changing | custom => exact h.elim
  | map i base f type =>
    refine (demand (.classification base)).bind fun
      | .missing path => pure _
      | .fixed x e => bind (h.2.2 x) fun y => ?_
      | .changing q => pure _
    cases y <;> exact pure _
  | flatMap i base choice type =>
    refine (demand (.classification base)).bind fun
      | .missing path => pure _
      | .fixed x e => ?_
      | .changing q => pure _
    obtain ⟨q, hq, -⟩ := h.2.exists_chosen type x (SideEffect.boundTo x e)
    exact bind ⟨q, hq⟩ fun q => demand _
  | orElse i left right =>
    refine (demand (.classification left)).bind fun l => ?_
    split
    · exact pure _
    · refine (demand (.classification right)).bind fun r => ?_
      split
      · exact pure _
      · split <;> exact pure _
  | withEffect i inner e => exact (demand _).bind fun _ => pure _
  | named i inner name => exact (demand _).bind fun _ => pure _
  | property r =>
    rw [Provider.classificationAgenda]
    split
    · exact demand _
    · exact pure _

/-- What is asked inside the graph does not fail in user code. -/
theorem Wired.total (h : Wired m nodes) {d : Demand} (hd : d.provider.Inside m nodes) :
    (d.agenda m).Total := by
  have hwired : d.provider.WiredTo m nodes := by
    generalize d.provider = p at hd
    cases hd with
    | node hp => exact h.wired _ hp
    | effect hp e => exact hp
    | absent type => trivial
  cases d with
  | value p => exact valueAgenda_total hwired
  | presence p => exact presenceAgenda_total hwired
  | producer p => exact producerAgenda_total hwired
  | classification p => exact classificationAgenda_total hwired

end Total

end ProviderGraph
