import Mathlib.Logic.Function.Basic
import ProviderGraph.Proofs.Session.Courses

/-!
# Laws that evaluations abide by

A law says what a single change may make of the state of a property. `Eval.Abides` reads off the
tree of an evaluation that each of its changes is lawful, whatever the state has become while a
question was answered. When the rule of every question abides by the law of that question, so does
every stage of a session (`Stage.Abides.advance`), and each change is lawful for the question that
is being answered (`Stage.Abides.lawful`).
-/

namespace ProviderGraph

open Relation (ReflTransGen)

abbrev States := Identity → Property

/-- What a change may make of the state of a property. -/
abbrev Law := Identity → Property → Property → Prop

/-- Which answers are given. -/
abbrev Trust := (q : Query) → q.Answer → Prop

/-- The states of the properties after a change. -/
def Change.on (c : Change) (S : States) : States :=
  match c with
  | .setProperty i x => Function.update S i x
  | _ => S

/-- The change makes of the state of a property what the law allows. -/
def Change.Lawful (law : Law) (S : States) : Change → Prop
  | .setProperty i x => law i (S i) x
  | _ => True

/-- In the states `S` the evaluation abides by the law, and `post` holds of the states at its end
and of its result, if questions are answered as told by `trust`. -/
def Eval.Abides (law : Law) (trust : Trust) :
    {α : Type} → Eval α → States → (States → α → Prop) → Prop
  | _, .done a, S, post => post S a
  | _, .ask q next, _, post => ∀ S a, trust q a → (next a).Abides law trust S post
  | _, .look next, S, post => ∀ m : Machine, m.property = S → (next m).Abides law trust S post
  | _, .fresh next, S, post => ∀ i, (next i).Abides law trust S post
  | _, .change c next, S, post => c.Lawful law S ∧ next.Abides law trust (c.on S) post
  | _, .openScope _ _ next, S, post => ∀ r, (next r).Abides law trust S post
  | _, .inScope _ body next, S, post =>
    (∀ f, (next (.error f)).Abides law trust S post) ∧
      body.Abides law trust S fun S b => (next (.ok b)).Abides law trust S post
  | _, .onThread body next, S, post | _, .withOwnLocals body next, S, post =>
    body.Abides law trust S fun S b => (next b).Abides law trust S post

namespace Eval

variable {α β : Type} {law law' : Law} {trust trust' : Trust} {S : States}

/-- A part that looks at a property goes on with its state. -/
theorem abides_property_bind {ε : Type} {i : Identity} {f : Property → ExceptT ε Eval α}
    {post : States → Except ε α → Prop} :
    ((liftM (Eval.property i) : ExceptT ε Eval Property) >>= f).run.Abides law trust S post ↔
      ∀ m : Machine, m.property = S → (f (m.property i)).run.Abides law trust S post := .rfl

/-- A sequence abides by a law if its first part does, and the second does afterwards. -/
theorem abides_bind (x : Eval α) (f : α → Eval β) {post : States → β → Prop} :
    (x >>= f).Abides law trust S post ↔
      x.Abides law trust S fun S a => (f a).Abides law trust S post := by
  induction x generalizing S with
  | done a => exact Iff.rfl
  | ask q next ih => exact forall₃_congr fun S a _ => ih a f
  | look next ih => exact forall₂_congr fun m _ => ih m f
  | fresh next ih => exact forall_congr' fun i => ih i f
  | change c next ih => exact and_congr_right fun _ => ih f
  | openScope name o next ih => exact forall_congr' fun r => ih r f
  | inScope o body next _ ih =>
    refine and_congr (forall_congr' fun e => ih _ f) ?_
    exact iff_of_eq (congrArg _ (funext₂ fun _ b => propext (ih _ f)))
  | onThread body next _ ih | withOwnLocals body next _ ih =>
    exact iff_of_eq (congrArg _ (funext₂ fun _ b => propext (ih b f)))

/-- What abides by a law abides by one that allows more, when fewer answers are given. -/
theorem Abides.imp {x : Eval α} {post post' : States → α → Prop} (hx : x.Abides law trust S post)
    (hlaw : ∀ i s s', law i s s' → law' i s s') (htrust : ∀ q a, trust' q a → trust q a)
    (hpost : ∀ S a, post S a → post' S a) : x.Abides law' trust' S post' := by
  induction x generalizing S with
  | done a => exact hpost S a hx
  | ask q next ih =>
    intro S' a ha
    exact ih a (hx S' a (htrust q a ha)) hpost
  | look next ih =>
    intro m hm
    exact ih m (hx m hm) hpost
  | fresh next ih =>
    intro i
    exact ih i (hx i) hpost
  | change c next ih =>
    refine ⟨?_, ih hx.2 hpost⟩
    cases c with
    | setProperty i s => exact hlaw _ _ _ hx.1
    | _ => trivial
  | openScope name o next ih =>
    intro r
    exact ih r (hx r) hpost
  | inScope o body next ihb ih =>
    refine ⟨fun f => ih _ (hx.1 f) hpost, ihb hx.2 ?_⟩
    intro S' b hb
    exact ih _ hb hpost
  | onThread body next ihb ih | withOwnLocals body next ihb ih =>
    refine ihb hx ?_
    intro S' b hb
    exact ih b hb hpost

end Eval

/-! ### Machines -/

/-- Closing scopes changes no property. -/
theorem Machine.property_closeScope (m : Machine) (name : String) :
    (m.closeScope name).property = m.property := by
  rw [closeScope]
  split <;> rfl

/-- Opening scopes changes no property. -/
theorem Machine.property_of_openScope {m n : Machine} {name : String} {o : Owner}
    (h : m.openScope name o = .ok n) : n.property = m.property := by
  obtain ⟨s, -, hn⟩ := exists_of_bind_eq_ok h
  cases hn
  exact property_closeScope { m with stack := s } name

/-- A change does to the states of the properties what it is meant to. -/
theorem Machine.property_after (m : Machine) (c : Change) :
    (m.after c).property = c.on m.property := by
  cases c with
  | closeScope name => exact m.property_closeScope name
  | setProperty i s =>
    funext j
    by_cases hj : j = i
    · subst hj
      rw [Change.on, Function.update_self]
      exact m.property_setProperty_self j s
    · rw [Change.on, Function.update_of_ne hj]
      exact m.property_setProperty_of_ne hj s
  | _ => rfl

/-! ### Runs -/

section Runs

variable {α : Type} {law : Law} {trust : Trust} {post : States → α → Prop} {J : States → Prop}
  {x : Eval α} {m : Machine}
  (hlaw : ∀ S i s, J S → law i (S i) s → J (Function.update S i s))

include hlaw

/-- A lawful change keeps what the law keeps. -/
theorem Change.Lawful.keeps {c : Change} {S : States} (hc : c.Lawful law S) (hS : J S) :
    J (c.on S) := by
  cases c with
  | setProperty i s => exact hlaw S i s hS hc
  | _ => exact hS

/-- What lawful changes keep is kept by a run, if the answers to what is raised keep it and are as
told by `trust`. -/
theorem Eval.Abides.run (hx : x.Abides law trust m.property post) (hm : J m.property)
    (hask : ∀ q n, x.Raises m q n → J n.property →
      ∀ r, engine q n = some r → J r.2.property ∧ trust q r.1)
    {r : α × Machine} (hr : x.run engine m = some r) : J r.2.property ∧ post r.2.property r.1 := by
  induction x generalizing m with
  | done a =>
    cases hr
    exact ⟨hm, hx⟩
  | ask q next ih =>
    obtain ⟨r₁, h₁, hr⟩ := Option.bind_eq_some_iff.mp hr
    obtain ⟨hm₁, ha⟩ := hask q m (.inl ⟨rfl, rfl⟩) hm r₁ h₁
    exact ih _ (hx _ _ ha) hm₁ (fun q' n h => hask q' n (.inr ⟨r₁, h₁, h⟩)) hr
  | look next ih => exact ih _ (hx m rfl) hm hask hr
  | fresh next ih =>
    exact ih _ (m := { m with supply := m.supply + 1 }) (hx m.supply) hm hask hr
  | change c next ih =>
    obtain ⟨hc, hx⟩ := hx
    rw [← m.property_after c] at hx
    exact ih hx (m.property_after c ▸ hc.keeps hlaw hm) hask hr
  | openScope name o next ih =>
    simp only [run, Raises] at hr hask
    split at hr
    · next hs =>
      rw [hs] at hask
      exact ih _ (hx _) hm hask hr
    · next hs =>
      rw [hs] at hask
      rw [← Machine.property_of_openScope hs] at hx hm
      exact ih _ (hx _) hm hask hr
  | inScope o body next ihb ih =>
    simp only [run, Raises] at hr hask
    split at hr
    · next hs =>
      rw [hs] at hask
      exact ih _ (hx.1 _) hm hask hr
    · next s hs =>
      rw [hs] at hask
      obtain ⟨r₁, h₁, hr⟩ := Option.bind_eq_some_iff.mp hr
      obtain ⟨hm₁, hnext⟩ :=
        ihb (m := { m with stack := s }) hx.2 hm (fun q n h => hask q n (.inl h)) h₁
      exact ih _ (m := { r₁.2 with stack := r₁.2.stack.leave o.id }) hnext hm₁
        (fun q n h => hask q n (.inr ⟨r₁, h₁, h⟩)) hr
  | onThread body next ihb ih =>
    obtain ⟨r₁, h₁, hr⟩ := Option.bind_eq_some_iff.mp hr
    obtain ⟨hm₁, hnext⟩ := ihb (m := newThread m) hx hm (fun q n h => hask q n (.inl h)) h₁
    exact ih _ (m := { r₁.2 with stack := m.stack, locals := m.locals }) hnext hm₁
      (fun q n h => hask q n (.inr ⟨r₁, h₁, h⟩)) hr
  | withOwnLocals body next ihb ih =>
    obtain ⟨r₁, h₁, hr⟩ := Option.bind_eq_some_iff.mp hr
    obtain ⟨hm₁, hnext⟩ :=
      ihb (m := { m with locals := .empty }) hx hm (fun q n h => hask q n (.inl h)) h₁
    exact ih _ (m := dropLocals m r₁.2) hnext hm₁ (fun q n h => hask q n (.inr ⟨r₁, h₁, h⟩)) hr

/-- It holds wherever a question is raised. -/
theorem Eval.Abides.raises (hx : x.Abides law trust m.property post) (hm : J m.property)
    (hask : ∀ q n, x.Raises m q n → J n.property →
      ∀ r, engine q n = some r → J r.2.property ∧ trust q r.1)
    {q : Query} {n : Machine} (h : x.Raises m q n) : J n.property := by
  induction x generalizing m with
  | done a => exact h.elim
  | ask q' next ih =>
    rcases h with ⟨-, rfl⟩ | ⟨r₁, h₁, h⟩
    · exact hm
    · obtain ⟨hm₁, ha⟩ := hask q' m (.inl ⟨rfl, rfl⟩) hm r₁ h₁
      exact ih _ (hx _ _ ha) hm₁ (fun q n h => hask q n (.inr ⟨r₁, h₁, h⟩)) h
  | look next ih => exact ih _ (hx m rfl) hm hask h
  | fresh next ih =>
    exact ih _ (m := { m with supply := m.supply + 1 }) (hx m.supply) hm hask h
  | change c next ih =>
    obtain ⟨hc, hx⟩ := hx
    rw [← m.property_after c] at hx
    exact ih hx (m.property_after c ▸ hc.keeps hlaw hm) hask h
  | openScope name o next ih =>
    simp only [Raises] at h hask
    split at h
    · next hs =>
      rw [hs] at hask
      exact ih _ (hx _) hm hask h
    · next hs =>
      rw [hs] at hask
      rw [← Machine.property_of_openScope hs] at hx hm
      exact ih _ (hx _) hm hask h
  | inScope o body next ihb ih =>
    simp only [Raises] at h hask
    split at h
    · next hs =>
      rw [hs] at hask
      exact ih _ (hx.1 _) hm hask h
    · next s hs =>
      rw [hs] at hask
      have hbody q n h := hask q n (.inl h)
      rcases h with h | ⟨r₁, h₁, h⟩
      · exact ihb (m := { m with stack := s }) hx.2 hm hbody h
      · obtain ⟨hm₁, hnext⟩ :=
          Abides.run (x := body) (m := { m with stack := s }) hlaw hx.2 hm hbody h₁
        exact ih _ (m := { r₁.2 with stack := r₁.2.stack.leave o.id }) hnext hm₁
          (fun q n h => hask q n (.inr ⟨r₁, h₁, h⟩)) h
  | onThread body next ihb ih =>
    have hbody q n h := hask q n (.inl h)
    rcases h with h | ⟨r₁, h₁, h⟩
    · exact ihb (m := newThread m) hx hm hbody h
    · obtain ⟨hm₁, hnext⟩ := Abides.run (x := body) (m := newThread m) hlaw hx hm hbody h₁
      exact ih _ (m := { r₁.2 with stack := m.stack, locals := m.locals }) hnext hm₁
        (fun q n h => hask q n (.inr ⟨r₁, h₁, h⟩)) h
  | withOwnLocals body next ihb ih =>
    have hbody q n h := hask q n (.inl h)
    rcases h with h | ⟨r₁, h₁, h⟩
    · exact ihb (m := { m with locals := .empty }) hx hm hbody h
    · obtain ⟨hm₁, hnext⟩ :=
        Abides.run (x := body) (m := { m with locals := .empty }) hlaw hx hm hbody h₁
      exact ih _ (m := dropLocals m r₁.2) hnext hm₁ (fun q n h => hask q n (.inr ⟨r₁, h₁, h⟩)) h

end Runs

/-! ### Stages -/

/-- The question that is being answered. -/
def Pending.own : {α : Type} → Pending α → Option Query
  | _, .nil => none
  | _, .asked q _ _ => some q
  | _, .inScope _ _ rest | _, .elsewhere _ _ rest | _, .apart _ _ rest => rest.own

/-- The questions that wait for an answer. -/
def Pending.questions : {α : Type} → Pending α → List Query
  | _, .nil => []
  | _, .asked q _ rest => q :: rest.questions
  | _, .inScope _ _ rest | _, .elsewhere _ _ rest | _, .apart _ _ rest => rest.questions

/-- What waits for a result abides by the laws of the questions that are being answered. -/
def Pending.Abides (law : Option Query → Law) (trust : Trust) :
    {α : Type} → Pending α → States → α → Prop
  | _, .nil, _, _ => True
  | _, .asked q next rest, S, a =>
    trust q a → (next a).Abides (law rest.own) trust S (rest.Abides law trust)
  | _, .inScope _ next rest, S, b =>
    (next (.ok b)).Abides (law rest.own) trust S (rest.Abides law trust)
  | _, .elsewhere _ next rest, S, b | _, .apart _ next rest, S, b =>
    (next b).Abides (law rest.own) trust S (rest.Abides law trust)

theorem Pending.mem_questions_of_own {α : Type} {k : Pending α} {q : Query}
    (h : k.own = some q) : q ∈ k.questions := by
  induction k with
  | nil => cases h
  | asked q' next rest _ =>
    obtain rfl := Option.some.inj h
    exact List.mem_cons_self
  | inScope _ _ _ ih | elsewhere _ _ _ ih | apart _ _ _ ih => exact ih h

namespace Stage

/-- Everything that is left to do abides by the laws of the questions that are being answered. -/
def Abides (law : Option Query → Law) (trust : Trust) (s : Stage) : Prop :=
  s.code.Abides (law s.pending.own) trust s.machine.property (s.pending.Abides law trust)

inductive Poses (q : Query) : Stage → Prop where
  | mk {α : Type} {next : q.Answer → Eval α} {k : Pending α} {m : Machine} :
    Poses q ⟨.ask q next, k, m⟩

inductive Answers (q : Query) (a : q.Answer) : Stage → Prop where
  | mk {α : Type} {next : q.Answer → Eval α} {k : Pending α} {m : Machine} :
    Answers q a ⟨.done a, .asked q next k, m⟩

inductive Sets (i : Identity) (x : Property) : Stage → Prop where
  | mk {α : Type} {next : Eval α} {k : Pending α} {m : Machine} :
    Sets i x ⟨.change (.setProperty i x) next, k, m⟩

variable {law law' : Option Query → Law} {trust trust' : Trust} {s s' : Stage}

/-- A change that is made is lawful for the question that is being answered. -/
theorem Abides.lawful {i : Identity} {x : Property} (h : s.Abides law trust) (hs : s.Sets i x) :
    law s.pending.own i (s.machine.property i) x := by
  cases hs
  exact h.1

/-- A step leaves the state of a property alone, unless it gives it a new one. -/
theorem Advances.property (h : s.Advances s') (i : Identity) :
    s'.machine.property i = s.machine.property i ∨ s.Sets i (s'.machine.property i) := by
  obtain ⟨code, k, m⟩ := s
  cases code with
  | done a => cases k <;> cases h <;> exact .inl rfl
  | ask | look | fresh | onThread | withOwnLocals =>
    cases h
    exact .inl rfl
  | change c next =>
    cases h
    dsimp only
    rw [m.property_after c]
    cases c with
    | setProperty j x =>
      by_cases hi : i = j
      · subst hi
        refine .inr ?_
        rw [Change.on, Function.update_self]
        exact .mk
      · refine .inl ?_
        rw [Change.on, Function.update_of_ne hi]
    | _ => exact .inl rfl
  | openScope name o next =>
    simp only [Advances, advance, Eval.advance] at h
    split at h
    · cases h
      exact .inl rfl
    · next hn =>
      cases h
      exact .inl (congrFun (Machine.property_of_openScope hn) i)
  | inScope o body next =>
    simp only [Advances, advance, Eval.advance] at h
    split at h <;> cases h <;> exact .inl rfl

/-- What is left to do after a step still abides by the laws, if the rule of the question that is
posed does. -/
theorem Abides.advance (h : s.Abides law trust) (hs : s.Advances s')
    (hrule : ∀ q, s.Poses q →
      (rule q).Abides (law (some q)) trust s.machine.property fun _ _ => True)
    (htrust : ∀ q a, s.Answers q a → trust q a) : s'.Abides law trust := by
  obtain ⟨code, k, m⟩ := s
  cases code with
  | done a =>
    cases k with
    | nil => cases hs
    | asked q next rest =>
      cases hs
      exact h (htrust q a .mk)
    | inScope | elsewhere | apart =>
      cases hs
      exact h
  | ask q next =>
    cases hs
    refine (hrule q .mk).imp (fun _ _ _ h => h) (fun _ _ h => h) ?_
    intro S a _ ha
    exact h S a ha
  | look next =>
    cases hs
    exact h m rfl
  | fresh next =>
    cases hs
    exact h m.supply
  | change c next =>
    cases hs
    rw [Abides, m.property_after c]
    exact h.2
  | openScope name o next =>
    simp only [Advances, Stage.advance, Eval.advance] at hs
    split at hs
    · cases hs
      exact h _
    · next hn =>
      cases hs
      rw [Abides, Machine.property_of_openScope hn]
      exact h _
  | inScope o body next =>
    simp only [Advances, Stage.advance, Eval.advance] at hs
    split at hs
    · cases hs
      exact h.1 _
    · cases hs
      exact h.2
  | onThread | withOwnLocals =>
    cases hs
    exact h

/-- The laws of the questions that wait may be replaced by ones that allow more. -/
theorem Abides.imp (h : s.Abides law trust)
    (hlaw : ∀ own, (∀ q, own = some q → q ∈ s.pending.questions) →
      ∀ i x y, law own i x y → law' own i x y)
    (htrust : ∀ q a, trust' q a → trust q a) : s.Abides law' trust' := by
  have hpending {α : Type} (k : Pending α)
      (hk : ∀ own, (∀ q, own = some q → q ∈ k.questions) →
        ∀ i x y, law own i x y → law' own i x y)
      (S : States) (a : α) (ha : k.Abides law trust S a) : k.Abides law' trust' S a := by
    induction k generalizing S with
    | nil => trivial
    | asked q next rest ih =>
      have hrest own (ho : ∀ q, own = some q → q ∈ rest.questions) :=
        hk own fun q hq => List.mem_cons_of_mem _ (ho q hq)
      intro hqa
      refine (ha (htrust q a hqa)).imp (hrest _ fun q hq => ?_) htrust fun S b => ih hrest S b
      exact Pending.mem_questions_of_own hq
    | inScope o next rest ih | elsewhere m next rest ih | apart m next rest ih =>
      refine Eval.Abides.imp ha (hk _ fun q hq => ?_) htrust fun S b => ih hk S b
      exact Pending.mem_questions_of_own hq
  refine Eval.Abides.imp h (hlaw _ fun q hq => Pending.mem_questions_of_own hq) htrust ?_
  intro S a ha
  exact hpending _ hlaw S a ha

end Stage

end ProviderGraph
