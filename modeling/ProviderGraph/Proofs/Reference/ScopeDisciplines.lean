import ProviderGraph.Proofs.Graph.Basic
import ProviderGraph.Proofs.Reference.EngineAtRest

/-!
# Disciplines of scopes

What an agenda comes to, as a relation. A discipline tells when a provider may open its scope, in a
state of its own: the stack of the engine, the path of a walk, a number of levels. Evaluations under
different disciplines are compared by a simulation of their states (`Agenda.Yields.simulate`).
-/

namespace ProviderGraph

/-- When a provider may open its scope, and the state inside the scope. -/
abbrev Discipline (σ : Type) := σ → Provider → σ → Prop

/-- The state inside a scope is determined by the one outside. -/
def Discipline.Deterministic {σ : Type} (E : Discipline σ) : Prop :=
  ∀ s p t t', E s p t → E s p t' → t = t'

/-- The agenda of the provider `p` comes to a result, if each demand is met inside the scope of `p`
and none of them fails. -/
inductive Agenda.Yields (m : Machine) {σ : Type} (E : Discipline σ) :
    {α : Type} → σ → Provider → Agenda α → α → Prop where
  | done {α : Type} {s : σ} {p : Provider} (a : α) : Yields m E s p (.done (.ok a)) a
  | ask {α : Type} {s t : σ} {p : Provider} {d : Demand} {next : d.Answer → Agenda α} {b : d.Answer}
      {a : α} (ht : E s p t) (hd : Yields m E t d.provider (d.agenda m) b)
      (h : Yields m E s p (next b) a) : Yields m E s p (.ask d next) a

/-- What a demand comes to under a discipline. -/
def Machine.Yields (m : Machine) {σ : Type} (E : Discipline σ) (s : σ) (d : Demand)
    (a : d.Answer) : Prop :=
  Agenda.Yields m E s d.provider (d.agenda m) a

variable {σ τ α β : Type} {m : Machine} {E : Discipline σ} {F : Discipline τ} {s : σ} {t : τ}
  {p q : Provider} {x : Agenda α}

namespace Agenda

/-- A result that is at hand is what the agenda comes to. -/
theorem yields_done_iff {r : Except Failure α} {a : α} :
    (Agenda.done r).Yields m E s p a ↔ r = .ok a := by
  constructor
  · rintro ⟨⟩
    rfl
  · rintro rfl
    exact .done a

/-- Something pure comes to itself. -/
theorem yields_pure_iff {a b : α} : (pure a : Agenda α).Yields m E s p b ↔ a = b :=
  yields_done_iff.trans ⟨Except.ok.inj, congrArg _⟩

/-- Two agendas come to something one after the other. -/
theorem yields_bind_iff {f : α → Agenda β} {b : β} :
    (x >>= f).Yields m E s p b ↔ ∃ a, x.Yields m E s p a ∧ (f a).Yields m E s p b := by
  constructor
  · intro h
    induction x with
    | done r =>
      cases r with
      | ok a => exact ⟨a, .done a, h⟩
      | error e => exact nomatch h
    | ask d next ih =>
      cases h with
      | ask ht hd h =>
        obtain ⟨a, ha, hb⟩ := ih _ h
        exact ⟨a, .ask ht hd ha, hb⟩
  · rintro ⟨a, ha, hb⟩
    induction x with
    | done r =>
      obtain rfl := yields_done_iff.mp ha
      exact hb
    | ask d next ih =>
      cases ha with
      | ask ht hd ha => exact .ask ht hd (ih _ ha)

/-- A demand is met inside the scope of the provider that poses it. -/
theorem yields_demand_iff {d : Demand} {a : d.Answer} :
    (demand d).Yields m E s p a ↔ ∃ t, E s p t ∧ m.Yields E t d a := by
  constructor
  · intro h
    cases h with
    | ask ht hd h =>
      obtain rfl := yields_pure_iff.mp h
      exact ⟨_, ht, hd⟩
  · rintro ⟨t, ht, hd⟩
    exact .ask ht hd (.done a)

/-- A value is met without its declared name, which is put in front. -/
theorem yields_askValue_iff {v : Outcome} :
    (askValue q).Yields m E s p v ↔
      ∃ t w, E s p t ∧ m.Yields E t (.value q) w ∧ w.push q.declaredName = v := by
  rw [askValue_eq, yields_bind_iff]
  constructor
  · rintro ⟨w, hw, hv⟩
    obtain ⟨t, ht, hw⟩ := yields_demand_iff.mp hw
    exact ⟨t, w, ht, hw, yields_pure_iff.mp hv⟩
  · rintro ⟨t, w, ht, hw, rfl⟩
    exact ⟨w, yields_demand_iff.mpr ⟨t, ht, hw⟩, .done _⟩

namespace Yields

/-- Where one discipline follows another, it comes to the same. -/
theorem simulate {a : α} (R : σ → τ → Prop)
    (hR : ∀ s p s' t, E s p s' → R s t → ∃ t', F t p t' ∧ R s' t')
    (h : x.Yields m E s p a) (ht : R s t) : x.Yields m F t p a := by
  induction h generalizing t with
  | done a => exact .done a
  | ask hs _ _ ihd ih =>
    obtain ⟨t', ht', h'⟩ := hR _ _ _ _ hs ht
    exact .ask ht' (ihd h') (ih ht)

/-- Under a discipline that is deterministic, so is the result. -/
theorem deterministic {a b : α} (hE : E.Deterministic) (h : x.Yields m E s p a)
    (h' : x.Yields m E s p b) : a = b := by
  induction h with
  | done a => exact Except.ok.inj (yields_done_iff.mp h')
  | ask ht hd _ ihd ih =>
    cases h' with
    | ask ht' hd' h' =>
      obtain rfl := hE _ _ _ _ ht ht'
      obtain rfl := ihd hd'
      exact ih h'

end Yields

end Agenda

namespace Machine

/-- The discipline of the engine at rest. -/
def nesting (m : Machine) : Discipline ScopeStack := fun s p t => m.enter s p.owner = .ok t

section Nesting

variable {s t t' : ScopeStack}

/-- Inside a scope one more identity is open. -/
theorem isOpen_of_nesting (h : m.nesting s p t) {i : Identity} :
    t.isOpen i = true ↔ p.id = i ∨ s.isOpen i = true := by
  obtain ⟨-, -, rfl⟩ := enter_eq_ok_iff.mp h
  simp [ScopeStack.isOpen]

/-- There is one way to open a scope. -/
theorem nesting.eq (h : m.nesting s p t) (h' : m.nesting s p t') : t = t' :=
  Except.ok.inj (h.symm.trans h')

/-- There is less room inside a scope. -/
theorem nesting.room_lt (h : m.nesting s p t) : t.room < s.room := room_lt_of_enter h

/-- A scope that is opened had room. -/
theorem nesting.depth_lt (h : m.nesting s p t) : s.depth < s.limit := (enter_eq_ok_iff.mp h).2.1

end Nesting

/-- The discipline that only lets certain providers open a scope. -/
def guarded (P : Provider → Prop) : Discipline Unit := fun _ p _ => P p

/-- With all demands decided, so is what the agenda comes to. -/
theorem run_eq_ok_iff_of {s : ScopeStack} {a : α}
    (ih : ∀ d t b, m.enter s p.owner = .ok t → (m.atRest d t = .ok b ↔ m.Yields m.nesting t d b)) :
    x.run (m.asked p.owner s) = .ok a ↔ x.Yields m m.nesting s p a := by
  induction x with
  | done r => exact Agenda.yields_done_iff.symm
  | ask d next ihx =>
    constructor
    · intro h
      cases ht : m.enter s p.owner with
      | error f =>
        rw [Agenda.run_ask_error (asked_of_enter_error ht)] at h
        cases h
      | ok t =>
        cases hb : m.atRest d t with
        | error f =>
          rw [Agenda.run_ask_error ((asked_of_enter ht).trans hb)] at h
          cases h
        | ok b =>
          rw [Agenda.run_ask_ok ((asked_of_enter ht).trans hb)] at h
          exact .ask ht ((ih d t b ht).mp hb) ((ihx b).mp h)
    · intro h
      cases h with
      | ask ht hd h =>
        rw [Agenda.run_ask_ok ((asked_of_enter ht).trans ((ih d _ _ ht).mpr hd))]
        exact (ihx _).mpr h

/-- What the engine at rest answers, if it does not fail. -/
theorem atRest_eq_ok_iff {d : Demand} {s : ScopeStack} {a : d.Answer} :
    m.atRest d s = .ok a ↔ m.Yields m.nesting s d a := by
  generalize hr : s.room = r
  induction r using Nat.strongRecOn generalizing d s with
  | ind r ih =>
    rw [atRest_eq, Yields, ← run_eq_ok_iff_of fun d' t b ht => ih _ (hr ▸ room_lt_of_enter ht) rfl]
    exact ⟨blame_eq_ok, fun h => by rw [h]; rfl⟩

end Machine

end ProviderGraph
