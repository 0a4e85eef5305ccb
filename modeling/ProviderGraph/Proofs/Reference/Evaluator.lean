import ProviderGraph.Proofs.Graph.Basic
import ProviderGraph.Proofs.Reference.EngineAtRest

/-!
# The reference evaluator

Without scopes and identities a demand is met by following its agenda: what is asked for is found
the same way. The reference evaluator has no answer where it would go on for ever, and so it is
given a number of levels.
-/

namespace ProviderGraph

/-! ### Agendas that ask less -/

namespace Agenda

variable {α β : Type}

/-- The demand may come up, if those before are met. -/
def Asks : Agenda α → Demand → Prop
  | .done _, _ => False
  | .ask d next, d' => d' = d ∨ ∃ a, (next a).Asks d'

/-- An answer in full is the answer as far as possible. -/
theorem run_of_run? {f : (d : Demand) → Option (Except Fault d.Answer)}
    {g : (d : Demand) → Except Fault d.Answer} {x : Agenda α} {r : Except Failure α}
    (h : x.run? f = some r) (hfg : ∀ d a, x.Asks d → f d = some a → g d = a) : x.run g = r := by
  induction x with
  | done r' => exact Option.some.inj h
  | ask d next ih =>
    rw [run?] at h
    obtain ⟨a, ha, h⟩ := Option.bind_eq_some_iff.mp h
    rw [run, hfg d a (.inl rfl) ha]
    cases a with
    | ok a => exact ih a h fun d' b hd => hfg d' b (.inr ⟨a, hd⟩)
    | error f => exact Option.some.inj h

/-- What is answered so far stays answered so. -/
theorem run?_mono {f g : (d : Demand) → Option (Except Fault d.Answer)} {x : Agenda α}
    {r : Except Failure α} (h : x.run? f = some r) (hfg : ∀ d a, f d = some a → g d = some a) :
    x.run? g = some r := by
  induction x with
  | done r' => exact h
  | ask d next ih =>
    rw [run?] at h ⊢
    obtain ⟨a, ha, h⟩ := Option.bind_eq_some_iff.mp h
    refine Option.bind_eq_some_iff.mpr ⟨a, hfg d a ha, ?_⟩
    cases a with
    | ok a => exact ih a h
    | error f => exact h

end Agenda

/-- Only such demands come up. -/
def Agenda.AsksOnly {α : Type} (P : Demand → Prop) (x : Agenda α) : Prop := ∀ d, x.Asks d → P d

namespace Agenda.AsksOnly

variable {α β : Type} {P : Demand → Prop}

theorem done (r : Except Failure α) : (Agenda.done r).AsksOnly P := fun _ h => h.elim

theorem pure (a : α) : (Pure.pure a : Agenda α).AsksOnly P := done _

theorem bind {x : Agenda α} {f : α → Agenda β} (hx : x.AsksOnly P) (hf : ∀ a, (f a).AsksOnly P) :
    (x >>= f).AsksOnly P := by
  induction x with
  | done r =>
    cases r with
    | ok a => exact hf a
    | error e => exact done _
  | ask d next ih =>
    rintro d' (rfl | ⟨a, h⟩)
    · exact hx _ (.inl rfl)
    · exact ih a (fun d' h => hx d' (.inr ⟨a, h⟩)) d' h

theorem done_bind {r : Except Failure α} {f : α → Agenda β}
    (hf : ∀ a, r = .ok a → (f a).AsksOnly P) : (Agenda.done r >>= f).AsksOnly P := by
  cases r with
  | ok a => exact hf a rfl
  | error e => exact done _

/-- To demand something asks for nothing else. -/
theorem demand {d : Demand} (h : P d) : (demand d).AsksOnly P := by
  rintro d' (rfl | ⟨a, h⟩)
  · exact h
  · exact h.elim

/-- To ask for a value demands nothing else. -/
theorem askValue {p : Provider} (h : P (.value p)) : (askValue p).AsksOnly P :=
  askValue_eq p ▸ (demand h).bind fun _ => pure _

end Agenda.AsksOnly

section Leads

variable {m : Machine} {p : Provider}

open Agenda.AsksOnly

/-- What a flat map asks for after its base. -/
theorem Provider.next_asksOnly {α : Type} {P : Demand → Prop} {i : Identity} {base : Provider}
    {choice : Recipe} {type : PayloadType} (v : Outcome) {f : Provider → Agenda α}
    (hf : ∀ q, (Provider.flatMap i base choice type).Leads m q → (f q).AsksOnly P) :
    (Provider.next m choice type v >>= f).AsksOnly P := by
  cases v with
  | missing path => exact hf _ .absent
  | present x e => exact done_bind fun q hq => hf q (.chosen hq)

/-- A value is made of values. -/
theorem Provider.valueAgenda_asksOnly :
    (p.valueAgenda m).AsksOnly fun d => ∃ q, d = .value q ∧ p.Leads m q := by
  cases p with
  | fixed | undefined | changing | custom => exact done _
  | map i base f type =>
    refine (askValue ⟨_, rfl, .map⟩).bind fun
      | .missing path => pure _
      | .present x e => (done _).bind fun _ => pure _
  | flatMap i base choice type =>
    exact (askValue ⟨_, rfl, .flatMap⟩).bind fun
      | .missing path => pure _
      | .present x e => next_asksOnly (.present x e) fun q hq => askValue ⟨_, rfl, hq⟩
  | orElse i left right =>
    exact (askValue ⟨_, rfl, .left⟩).bind fun
      | .present x e => pure _
      | .missing path => (askValue ⟨_, rfl, .right⟩).bind fun
        | .present x e => pure _
        | .missing path' => pure _
  | withEffect i inner e => exact (askValue ⟨_, rfl, .withEffect⟩).bind fun _ => pure _
  | named i inner name => exact askValue ⟨_, rfl, .named⟩
  | property r =>
    rw [valueAgenda]
    split
    · next q hq => exact askValue ⟨_, rfl, .property hq⟩
    · exact pure _

/-- The rule for values asks only what the provider leads to. -/
theorem Provider.leads_of_asks_value {d : Demand} (h : (p.valueAgenda m).Asks d) :
    p.Leads m d.provider := by
  obtain ⟨q, rfl, hq⟩ := valueAgenda_asksOnly d h
  exact hq

/-- The rule for presence asks only what the provider leads to. -/
theorem Provider.presenceAgenda_asksOnly :
    (p.presenceAgenda m).AsksOnly fun d => p.Leads m d.provider := by
  cases p with
  | fixed | undefined | custom => exact done _
  | changing i type node calls =>
    cases node with
    | some name => exact pure _
    | none => exact bind (fun _ => leads_of_asks_value) fun _ => pure _
  | map i base f type => exact bind (fun _ => leads_of_asks_value) fun _ => pure _
  | flatMap i base choice type =>
    rw [presenceAgenda, backed, Agenda.bind_assoc]
    exact (askValue .flatMap).bind fun v => next_asksOnly v fun q hq => demand hq
  | orElse i left right =>
    refine (demand .left).bind fun l => ?_
    split
    · exact pure _
    · exact demand .right
  | withEffect i inner e => exact demand .withEffect
  | named i inner name => exact demand .named
  | property r =>
    rw [presenceAgenda]
    split
    · next q hq => exact demand (.property hq)
    · exact pure _

/-- The rule for producers asks only what the provider leads to. -/
theorem Provider.producerAgenda_asksOnly :
    (p.producerAgenda m).AsksOnly fun d => p.Leads m d.provider := by
  cases p with
  | fixed | undefined | custom => exact done _
  | changing i type node calls => cases node <;> exact pure _
  | map i base f type => exact demand .map
  | flatMap i base choice type =>
    rw [producerAgenda, backed, Agenda.bind_assoc]
    exact (askValue .flatMap).bind fun v => next_asksOnly v fun q hq => demand hq
  | orElse i left right =>
    exact (demand .left).bind fun _ => (demand .right).bind fun _ => pure _
  | withEffect i inner e => exact demand .withEffect
  | named i inner name => exact demand .named
  | property r =>
    rw [producerAgenda]
    split
    · exact pure _
    · next q _ hq => exact (demand (.property hq)).bind fun _ => pure _
    · exact pure _

/-- The rule for classifications asks only what the provider leads to. -/
theorem Provider.classificationAgenda_asksOnly :
    (p.classificationAgenda m).AsksOnly fun d => p.Leads m d.provider := by
  cases p with
  | fixed | undefined | changing | custom => exact done _
  | map i base f type =>
    refine (demand .map).bind fun
      | .missing path => pure _
      | .fixed x e => (done _).bind fun y => ?_
      | .changing q => pure _
    cases y <;> exact pure _
  | flatMap i base choice type =>
    exact (demand .flatMap).bind fun
      | .missing path => pure _
      | .fixed x e => done_bind fun q hq => demand (.chosen hq)
      | .changing q => pure _
  | orElse i left right =>
    refine (demand .left).bind fun l => ?_
    split
    · exact pure _
    · refine (demand .right).bind fun r => ?_
      split
      · exact pure _
      · split <;> exact pure _
  | withEffect i inner e => exact (demand .withEffect).bind fun _ => pure _
  | named i inner name => exact (demand .named).bind fun _ => pure _
  | property r =>
    rw [classificationAgenda]
    split
    · next q hq => exact demand (.property hq)
    · exact pure _

/-- A provider asks those that it leads to. -/
theorem Provider.leads_of_asks {d d' : Demand} (h : (d.agenda m).Asks d') :
    d.provider.Leads m d'.provider := by
  cases d with
  | value p => exact leads_of_asks_value h
  | presence p => exact presenceAgenda_asksOnly d' h
  | producer p => exact producerAgenda_asksOnly d' h
  | classification p => exact classificationAgenda_asksOnly d' h

end Leads

/-! ### The evaluator -/

/-- The result of user code, where a rejection is attributed to the culprit, if there is one. -/
def blame? {α : Type} (culprit : Option String) : Except Failure α → Option (Except Fault α)
  | .ok a => some (.ok a)
  | .error (.fault f) => some (.error f)
  | .error (.rejected message) => culprit.map fun name => .error (.transform name message)

theorem blame?_some {α : Type} (s : String) (r : Except Failure α) :
    blame? (some s) r = some (blame s r) := by
  match r with
  | .ok _ | .error (.fault _) | .error (.rejected _) => rfl

/-- A culprit that is known makes no difference to what is known without it. -/
theorem blame?_mono {α : Type} {c c' : Option String} {r : Except Failure α} {a : Except Fault α}
    (h : blame? c r = some a) (hc : ∀ s, c = some s → c' = some s) : blame? c' r = some a := by
  match r with
  | .ok _ => exact h
  | .error (.fault _) => exact h
  | .error (.rejected _) =>
    obtain ⟨s, hs, rfl⟩ := Option.map_eq_some_iff.mp h
    simp [blame?, hc s hs]

/-- The blame falls on the culprit that was found. -/
theorem blame_of_blame? {α : Type} {c : Option String} {s : String} {r : Except Failure α}
    {a : Except Fault α} (h : blame? c r = some a) (hc : ∀ s', c = some s' → s = s') :
    blame s r = a := by
  match r with
  | .ok _ => exact Option.some.inj h
  | .error (.fault _) => exact Option.some.inj h
  | .error (.rejected _) =>
    obtain ⟨s', hs, rfl⟩ := Option.map_eq_some_iff.mp h
    rw [hc s' hs, blame]

namespace Machine

variable (m : Machine)

def described : Nat → Provider → Option String
  | 0, _ => none
  | n + 1, p => m.describe (described n) p

/-- What a demand comes to, without scopes. -/
def reference : Nat → (d : Demand) → Option (Except Fault d.Answer)
  | 0, _ => none
  | n + 1, d =>
    ((d.agenda m).run? (reference n)).bind (blame? (m.described (n + 1) d.provider))

/-- The value of a provider told by its structure, with no scopes, guards or owners. Parts are
evaluated before what is made of them, the left side of a fallback before the right one, and the
first fault is the result. A rejection is attributed to the text of the provider whose code it is. -/
def referenceValue : Nat → Provider → ExceptT Fault Option Outcome
  | 0, _ => .mk none
  | _ + 1, .fixed _ x => return .present x none
  | _ + 1, .undefined _ _ path => return .missing path
  | _ + 1, .changing _ _ node calls => do
    let text := match node with
      | none => "changing"
      | some name => "output of " ++ name
    match ← .mk (blame? (some text) ((calls.code 0).result calls.held (.int 0))) with
    | some x => return .present x none
    | none => return .missing []
  | n + 1, .map i base f type => do
    match ← referenceValue n base with
    | .missing path => return .missing path
    | .present x e =>
      let text := m.described (n + 1) (.map i base f type)
      match ← .mk (blame? text (f.code.result f.held x)), e with
      | some y, none => return .present y none
      | some y, some e => return .present y (some (.bound x e))
      | none, _ => return .missing []
  | n + 1, .flatMap i base choice type => do
    match ← referenceValue n base with
    | .missing path => return .missing path
    | .present x e =>
      let text := m.described (n + 1) (.flatMap i base choice type)
      match ← .mk (blame? text (choice.plan m (some x))), e with
      | some q, none => referenceValue n q
      | some q, some e => referenceValue n (.withEffect m.supply q (.bound x e))
      | none, _ => return .missing []
  | n + 1, .orElse _ left right => do
    match ← referenceValue n left with
    | .present x e => return .present x e
    | .missing path =>
      match ← referenceValue n right with
      | .present x e => return .present x e
      | .missing path' => return .missing (path ++ path')
  | n + 1, .withEffect _ inner e => do
    match ← referenceValue n inner with
    | .missing path => return .missing path
    | .present x none => return .present x (some e)
    | .present x (some old) => return .present x (some (.both old e))
  | n + 1, .named _ inner name => do
    match ← referenceValue n inner with
    | .missing path => return .missing (name :: path)
    | .present x e => return .present x e
  | n + 1, .property r => do
    let v ← match (m.property r.id).value, (m.property r.id).convention with
      | some q, _ => referenceValue n q
      | none, some q => referenceValue n q
      | none, none => pure (.missing [])
    match v, r.name with
    | .missing path, some name => return .missing (name :: path)
    | .missing path, none => return .missing path
    | .present x e, _ => return .present x e
  | _ + 1, .custom _ _ _ _ _ => .mk none

variable {m} {n k : Nat} {p : Provider} {d : Demand}

/-- A text found from the texts of others is found from the same texts again. -/
theorem describe_mono {f g : Provider → Option String} {s : String}
    (h : m.describe f p = some s) (hfg : ∀ q s, f q = some s → g q = some s) :
    m.describe g p = some s := by
  have map {q : Provider} {k : String → Option String} (h : (f q).bind k = some s) :
      (g q).bind k = some s := by
    obtain ⟨t, ht, h⟩ := Option.bind_eq_some_iff.mp h
    exact Option.bind_eq_some_iff.mpr ⟨t, hfg _ _ ht, h⟩
  cases p with
  | fixed | undefined | named | custom => exact h
  | changing i type node calls => cases node <;> exact h
  | map | flatMap => exact map h
  | orElse i left right =>
    obtain ⟨t, ht, h⟩ := Option.bind_eq_some_iff.mp h
    exact Option.bind_eq_some_iff.mpr ⟨t, hfg _ _ ht, map h⟩
  | withEffect i inner e => exact hfg _ _ h
  | property r =>
    rw [describe_property] at h ⊢
    cases hr : r.name with
    | some name => simpa [hr] using h
    | none =>
      cases hq : (m.property r.id).effective with
      | none => simpa [hr, hq] using h
      | some q =>
        simp only [hr, hq] at h ⊢
        exact map h

/-- A description depends on the texts of what the provider leads to. -/
theorem describe_of_describe {f : Provider → Option String} {g : Provider → String} {s : String}
    (h : m.describe f p = some s) (hfg : ∀ q s, p.Leads m q → f q = some s → g q = s) :
    m.describe (M := Id) g p = s := by
  cases p with
  | fixed | undefined | named => exact Option.some.inj h
  | changing i type node calls => cases node <;> exact Option.some.inj h
  | map i base f type =>
    obtain ⟨t, ht, h⟩ := Option.bind_eq_some_iff.mp h
    rw [← Option.some.inj h, ← hfg _ _ .map ht]
    rfl
  | flatMap i base choice type =>
    obtain ⟨t, ht, h⟩ := Option.bind_eq_some_iff.mp h
    rw [← Option.some.inj h, ← hfg _ _ .flatMap ht]
    rfl
  | orElse i left right =>
    obtain ⟨t, ht, h⟩ := Option.bind_eq_some_iff.mp h
    obtain ⟨u, hu, h⟩ := Option.bind_eq_some_iff.mp h
    rw [← Option.some.inj h, ← hfg _ _ .left ht, ← hfg _ _ .right hu]
    rfl
  | withEffect i inner e => exact hfg _ _ .withEffect h
  | property r =>
    rw [describe_property] at h ⊢
    cases hr : r.name with
    | some name =>
      simp only [hr] at h
      exact Option.some.inj h
    | none =>
      cases hq : (m.property r.id).effective with
      | none =>
        simp only [hr, hq] at h
        exact Option.some.inj h
      | some q =>
        simp only [hr, hq] at h
        obtain ⟨t, ht, h⟩ := Option.bind_eq_some_iff.mp h
        rw [← Option.some.inj h, ← hfg _ _ (.property hq) ht]
        rfl
  | custom i form =>
    rw [describe] at h ⊢
    cases hk : form.kind with
    | plain =>
      simp only [hk] at h
      exact Option.some.inj h
    | spy =>
      simp only [hk] at h
      exact Option.some.inj h

/-- A text that is found with some levels is found with more. -/
theorem described_mono {s : String} (h : m.described n p = some s) (hk : n ≤ k) :
    m.described k p = some s := by
  have step (n : Nat) : ∀ p s, m.described n p = some s → m.described (n + 1) p = some s := by
    induction n with
    | zero => exact fun p s h => nomatch h
    | succ n ih => exact fun p s h => describe_mono h ih
  exact some_of_le (fun n => step n p) h hk

/-- What a demand comes to with some levels it comes to with more. -/
theorem reference_mono {r : Except Fault d.Answer} (h : m.reference n d = some r) (hk : n ≤ k) :
    m.reference k d = some r := by
  have step (n : Nat) : ∀ d r, m.reference n d = some r → m.reference (n + 1) d = some r := by
    induction n with
    | zero => exact fun d r h => nomatch h
    | succ n ih =>
      intro d r h
      rw [reference] at h ⊢
      obtain ⟨r', hr', h⟩ := Option.bind_eq_some_iff.mp h
      exact Option.bind_eq_some_iff.mpr ⟨r', Agenda.run?_mono hr' ih,
        blame?_mono h fun s hs => described_mono hs (Nat.le_succ _)⟩
  exact some_of_le (fun n => step n d) h hk

/-! ### Agendas and structure -/

/-- An agenda comes to a result, which is seen through `f`. Demands are met with `n` levels. -/
def Tells {α β : Type} (m : Machine) (n : Nat) (text : Option String) (f : α → β) (x : Agenda α)
    (r : ExceptT Fault Option β) : Prop :=
  ((x.run? (m.reference n)).bind (blame? text)).map (Except.map f) = r.run

section Tells

variable {α β γ : Type} {text : Option String} {q : Provider}

theorem tells_done (r : Except Failure α) :
    m.Tells n text id (.done r) (.mk (blame? text r)) := by
  match r with
  | .ok a | .error (.fault f) => rfl
  | .error (.rejected message) => cases text <;> rfl

theorem Tells.pure {f : α → β} {a : α} {b : β} (h : f a = b) :
    m.Tells n text f (Pure.pure a) (Pure.pure b) := congrArg (some ∘ Except.ok) h

/-- What follows starts from a result of the first part. -/
theorem Tells.bind {x : Agenda α} {r : ExceptT Fault Option α} {f : β → γ} {g : α → Agenda β}
    {k : α → ExceptT Fault Option γ} (hx : m.Tells n text id x r)
    (hg : ∀ a, r.run = some (.ok a) → m.Tells n text f (g a) (k a)) :
    m.Tells n text f (x >>= g) (r >>= k) := by
  have hr : ((x.run? (m.reference n)).bind (blame? text)).map (Except.map id) = r.run := hx
  rw [Tells, Agenda.run?_bind]
  rw [← hr] at hg
  rw [ExceptT.run_bind, ← hr]
  match x.run? (m.reference n), hg with
  | none, _ => rfl
  | some (.ok a), hg => exact hg a rfl
  | some (.error (.fault f)), _ => rfl
  | some (.error (.rejected message)), _ => cases text <;> rfl

theorem Tells.congr {f g : α → β} {x : Agenda α} {r : ExceptT Fault Option β}
    (hx : m.Tells n text f x r) (h : ∀ a, f a = g a) : m.Tells n text g x r := funext h ▸ hx

/-- What is done with the result plays no part in what is asked for. -/
theorem Tells.andThen {x : Agenda α} {r : ExceptT Fault Option α} {f : α → β}
    {k : α → ExceptT Fault Option β} (hx : m.Tells n text id x r) (hk : ∀ a, k a = Pure.pure (f a)) :
    m.Tells n text f x (r >>= k) := by
  rw [← Agenda.bind_pure x]
  refine hx.bind fun a _ => ?_
  rw [hk]
  exact .pure rfl

/-- The value of another provider, where the structure is known to tell it. -/
theorem tells_askValue
    (h : (m.referenceValue n q).run =
      (m.reference n (.value q)).map (Except.map (·.push q.declaredName))) :
    m.Tells n text id (Agenda.askValue q) (m.referenceValue n q) := by
  rw [Tells, h, Agenda.askValue_eq, Agenda.run?_bind, Agenda.demand, Agenda.run?]
  rcases m.reference n (.value q) with _ | f | v
  · rfl
  · rfl
  · rfl

/-- A flat map goes on with the provider that was chosen, or has no value. -/
theorem tells_chosen {choice : Recipe} {type : PayloadType} {x : Payload} {e : Option Effect}
    (h : ∀ q, Provider.chosen m choice type x (SideEffect.boundTo x e) = .ok q →
      m.Tells (n + 1) text id (Agenda.askValue q) (m.referenceValue (n + 1) q)) :
    m.Tells (n + 1) text id
      (Provider.next m choice type (.present x e) >>= Agenda.askValue)
      (do match ← .mk (blame? text (choice.plan m (some x))), e with
        | some q, none => m.referenceValue (n + 1) q
        | some q, some e => m.referenceValue (n + 1) (.withEffect m.supply q (.bound x e))
        | none, _ => return .missing []) := by
  rw [Provider.next]
  rw [Provider.chosen] at h ⊢
  generalize choice.plan m (some x) = q? at h ⊢
  match q? with
  | .error (.fault f) => rfl
  | .error (.rejected message) => cases text <;> rfl
  | .ok none => exact h _ rfl
  | .ok (some q) => cases e <;> exact h _ rfl

/-- A property has the value of the provider that was set, or else that of its convention, under its
own name. -/
theorem tells_property {r : PropertyRef}
    (held : ∀ q, (m.property r.id).effective = some q →
      m.Tells n text id (Agenda.askValue q) (m.referenceValue n q)) :
    m.Tells n text (·.push r.name) (Provider.valueAgenda m (.property r))
      (m.referenceValue (n + 1) (.property r)) := by
  rw [Provider.valueAgenda, referenceValue]
  cases hv : (m.property r.id).value with
  | some q =>
    have hq : (m.property r.id).effective = some q := by rw [Property.effective, hv]; rfl
    rw [hq]
    exact (held q hq).andThen fun v => by cases v <;> cases r.name <;> rfl
  | none =>
    cases hc : (m.property r.id).convention with
    | some q =>
      have hq : (m.property r.id).effective = some q := by rw [Property.effective, hv, hc]; rfl
      rw [hq]
      exact (held q hq).andThen fun v => by cases v <;> cases r.name <;> rfl
    | none =>
      have hq : (m.property r.id).effective = none := by rw [Property.effective, hv, hc]; rfl
      rw [hq]
      exact Tells.andThen (.pure rfl) fun v => by cases v <;> cases r.name <;> rfl

end Tells

/-- What a provider has by its agenda, with its name in front of a missing path, is what it has by
its structure. -/
theorem referenceValue_eq {c : Reading} (hp : p.AllPlain m c) :
    (m.referenceValue n p).run =
      (m.reference n (.value p)).map (Except.map (·.push p.declaredName)) := by
  induction n generalizing p with
  | zero => rfl
  | succ n ih =>
    have ask {text : Option String} {q : Provider} (hq : p.Leads m q) :
        m.Tells n text id (Agenda.askValue q) (m.referenceValue n q) :=
      tells_askValue (ih (hp.leads hq))
    refine (show m.Tells n (m.described (n + 1) p) (·.push p.declaredName) (p.valueAgenda m)
      (m.referenceValue (n + 1) p) from ?_).symm
    cases p with
    | fixed | undefined => exact .pure rfl
    | changing i type node calls =>
      cases node <;>
      · rw [Tells, Provider.valueAgenda, referenceValue]
        match (calls.code 0).result calls.held (.int 0) with
        | .ok (some x) | .ok none | .error (.fault f) | .error (.rejected message) => rfl
    | map i base f type =>
      refine .bind (ask .map) fun v _ => ?_
      cases v with
      | missing path => exact .pure rfl
      | present x e =>
        refine .bind (tells_done _) fun y _ => ?_
        cases y <;> cases e <;> exact .pure rfl
    | flatMap i base choice type =>
      refine .bind (ask .flatMap) fun v hv => ?_
      cases v with
      | missing path => exact .pure rfl
      | present x e =>
        cases n with
        | zero => exact nomatch hv
        | succ n =>
          exact (tells_chosen fun q hq => ask (.chosen hq)).congr fun v => by cases v <;> rfl
    | orElse i left right =>
      refine .bind (ask .left) fun l _ => ?_
      cases l with
      | present x e => exact .pure rfl
      | missing path =>
        refine .bind (ask .right) fun r _ => ?_
        cases r <;> exact .pure rfl
    | withEffect i inner e =>
      refine .bind (ask .withEffect) fun v _ => ?_
      match v with
      | .missing path => exact .pure rfl
      | .present x none => exact .pure rfl
      | .present x (some old) => exact .pure rfl
    | named i inner name => exact (ask .named).andThen fun v => by cases v <;> rfl
    | property r => exact tells_property fun q hq => ask (.property hq)
    | custom => exact hp.plain.elim

/-! ### Termination -/

/-- An agenda whose demands all come to something comes to something. -/
theorem exists_run?_reference {α : Type} {x : Agenda α}
    (hx : ∀ d, x.Asks d → ∃ n r, m.reference n d = some r) :
    ∃ n r, x.run? (m.reference n) = some r := by
  induction x with
  | done r => exact ⟨0, r, rfl⟩
  | ask d next ih =>
    obtain ⟨n, a, ha⟩ := hx d (.inl rfl)
    cases a with
    | error f => exact ⟨n, .error (.fault f), by rw [Agenda.run?, ha]; rfl⟩
    | ok a =>
      obtain ⟨k, r, hr⟩ := ih a fun d' hd => hx d' (.inr ⟨a, hd⟩)
      refine ⟨max n k, r, ?_⟩
      rw [Agenda.run?, reference_mono ha (Nat.le_max_left n k)]
      exact Agenda.run?_mono hr fun d r h => reference_mono h (Nat.le_max_right n k)

/-- A provider can be described if all it leads to can be. -/
theorem exists_described_succ (hp : ∀ q, p.Leads m q → ∃ n u, m.described n q = some u) :
    ∃ n u, m.described (n + 1) p = some u := by
  cases p with
  | fixed | undefined | named => exact ⟨0, _, rfl⟩
  | changing i type node calls => cases node <;> exact ⟨0, _, rfl⟩
  | map i base f type =>
    obtain ⟨n, u, h⟩ := hp _ .map
    exact ⟨n, _, Option.bind_eq_some_iff.mpr ⟨u, h, rfl⟩⟩
  | flatMap i base choice type =>
    obtain ⟨n, u, h⟩ := hp _ .flatMap
    exact ⟨n, _, Option.bind_eq_some_iff.mpr ⟨u, h, rfl⟩⟩
  | orElse i left right =>
    obtain ⟨n, u, hu⟩ := hp _ .left
    obtain ⟨k, v, hv⟩ := hp _ .right
    exact ⟨max n k, _, Option.bind_eq_some_iff.mpr
      ⟨u, described_mono hu (Nat.le_max_left n k), Option.bind_eq_some_iff.mpr
        ⟨v, described_mono hv (Nat.le_max_right n k), rfl⟩⟩⟩
  | withEffect i inner e => exact hp _ .withEffect
  | property r =>
    cases hr : r.name with
    | some name => exact ⟨0, name, by simp [described, describe_property, hr]⟩
    | none =>
      cases hq : (m.property r.id).effective with
      | none => exact ⟨0, "property(undefined)", by simp [described, describe_property, hr, hq]⟩
      | some q =>
        obtain ⟨n, u, h⟩ := hp _ (.property hq)
        exact ⟨n, "property(" ++ u ++ ")", by simp [described, describe_property, hr, hq, h]⟩
  | custom i form => cases hk : form.kind <;> exact ⟨0, _, by rw [described, describe, hk]; rfl⟩

/-- A provider that never leads back to itself can be described. -/
theorem exists_described (h : Acc (fun r q => q.Leads m r) p) :
    ∃ n u, m.described n p = some u := by
  induction h with
  | intro p _ ih =>
    obtain ⟨n, u, h⟩ := exists_described_succ ih
    exact ⟨n + 1, u, h⟩

/-- Where no provider leads back to itself, the reference evaluator has an answer. -/
theorem exists_reference (h : Acc (fun r q => q.Leads m r) d.provider) :
    ∃ n r, m.reference n d = some r := by
  generalize hp : d.provider = p at h
  induction h generalizing d with
  | intro p hacc ih =>
    subst hp
    obtain ⟨n, r, hr⟩ := exists_run?_reference fun d' hd =>
      ih _ (Provider.leads_of_asks hd) rfl
    obtain ⟨k, u, hu⟩ := exists_described (.intro _ hacc)
    refine ⟨max n k + 1, blame u r, Option.bind_eq_some_iff.mpr
      ⟨r, Agenda.run?_mono hr fun d r h => reference_mono h (Nat.le_max_left n k), ?_⟩⟩
    rw [described_mono hu (Nat.le_succ_of_le (Nat.le_max_right n k)), blame?_some]

end Machine

end ProviderGraph
