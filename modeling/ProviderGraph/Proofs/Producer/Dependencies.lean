import ProviderGraph.Proofs.Producer.FoundProducers
import ProviderGraph.Proofs.Producer.JoinedTrees
import ProviderGraph.Proofs.Query.Texts

/-!
# Dependencies

What does work for a value is among the producers of its provider: the nodes of the leaves that are
called, and the nodes attached to the properties that are read (`dependencies_are_complete`). What
is asked for the base of a flat map does not count, since a flat map has the producers of the
provider that it chooses.
-/

namespace ProviderGraph

open Eval (RaisesOnly)

variable {m m₁ n n' o : Machine} {c : Reading} {p : Provider} {q q' : Query} {t : Producer}

/-! ### What feeds a value -/

/-- The work node that does work for the answer: that of a leaf that is called, or the one that is
attached to a property that is read. -/
def Query.worker (m : Machine) : Query → Option String
  | .ownValue (.changing _ _ node _) _ => node
  | .ownValue (.property r) _ => (m.property r.id).attached
  | _ => none

/-- What a flat map does with the value of its base: it goes on with the provider it chooses. -/
def goOn (self : Provider) (choice : Recipe) (type : PayloadType) (c : Reading) (v : Outcome) :
    Attempt Outcome :=
  if v.isMissing then return .missing v.path
  else do
    let next ← chooseNext self choice type v
    within self.owner (Ask.value next c)

/-- The rule of a question raises another, and this is not for the base of a flat map. -/
inductive Draws : Query → Machine → Query → Machine → Prop where
  | raised {q q' : Query} {m m' : Machine}
    (hq : ∀ i base choice type c, q ≠ .ownValue (.flatMap i base choice type) c)
    (h : (rule q).Raises m q' m') : Draws q m q' m'
  | chosen {i : Identity} {base : Provider} {choice : Recipe} {type : PayloadType} {c : Reading}
    {v : Outcome} {q' : Query} {m m₁ m' : Machine}
    (hbase : (within (Provider.flatMap i base choice type).owner (Ask.value base c)).run.run
      engine m = some (.ok v, m₁))
    (h : (goOn (.flatMap i base choice type) choice type c v).run.Raises m₁ q' m') :
    Draws (.ownValue (.flatMap i base choice type) c) m q' m'

/-- While a question is answered another comes up, and this is not for the base of a flat map. -/
inductive Feeds : Query → Machine → Query → Machine → Prop where
  | self {q : Query} {m : Machine} : Feeds q m q m
  | drawn {q q₁ q' : Query} {m m₁ m' : Machine} (h : Draws q m q₁ m₁) (h' : Feeds q₁ m₁ q' m') :
    Feeds q m q' m'

/-- What a question draws on is raised by its rule. -/
theorem Draws.raises (h : Draws q m q' n) : (rule q).Raises m q' n := by
  cases h with
  | raised _ h => exact h
  | chosen hbase h => exact Eval.raises_bindExcept.mpr (.inr ⟨_, _, hbase, h⟩)

/-- What feeds a value comes up while it is computed. -/
theorem Feeds.brings (h : Feeds q m q' n) : Brings q m q' n := by
  induction h with
  | self => exact .self
  | drawn h _ ih => exact .raised h.raises ih

/-- What feeds the answer stays in a set that is closed under drawing. -/
theorem Feeds.mem {P : Query → Machine → Prop} (h : Feeds q m q' n) (hq : P q m)
    (hP : ∀ q m q' n, P q m → Draws q m q' n → P q' n) : P q' n := by
  induction h with
  | self => exact hq
  | drawn h _ ih => exact ih (hP _ _ _ _ hq h)

/-! ### Questions that read nothing -/

/-- The question is about user code that only computes, or about a text. -/
def Query.Idle : Query → Prop
  | .act a _ _ => a.Pure
  | .build r _ => r.Pure
  | .text _ _ => True
  | _ => False

namespace Query.Idle

open Eval.RaisesOnly (pure bindExcept lift ask)

theorem act {a : Action} (ha : a.Pure) (held : Option Payload) (x : Payload) :
    (evalAction a held x).run.RaisesOnly Query.Idle := by
  cases ha with
  | compute f =>
    rw [evalAction]
    split <;> exact pure _
  | held => exact pure _
  | andThen hfirst hsecond =>
    refine bindExcept (ask hfirst) fun y => ?_
    cases y with
    | some y => exact ask hsecond
    | none => exact pure _
  | both hleft hright =>
    refine bindExcept (ask hleft) fun y => bindExcept (ask hright) fun z => ?_
    cases y <;> cases z <;> exact pure _
  | dispatch h => exact ask (h x)
  | elsewhere ha => exact .elsewhere (ask ha)

theorem lookup {α : Type} {what name : String} {registers : Machine → Table String α} :
    (ProviderGraph.lookup what registers name).run.RaisesOnly Query.Idle :=
  bindExcept (lift .machine) fun _ => .ofExcept _

theorem withPart {r : Recipe} (hr : r.Pure) (held : Option Payload)
    {next : Provider → UserCode Provider} (h : ∀ p, (next p).run.RaisesOnly Query.Idle) :
    (ProviderGraph.withPart r held next).run.RaisesOnly Query.Idle := by
  refine bindExcept (ask hr) fun p => ?_
  cases p with
  | some p => exact .map some (h p)
  | none => exact pure _

theorem build {r : Recipe} (hr : r.Pure) (held : Option Payload) :
    (evalRecipe r held).run.RaisesOnly Query.Idle := by
  have part {r : Recipe} (hr : r.Pure) (f : Identity → Provider → Provider) :
      (ProviderGraph.withPart r held fun p => do
        return f (← Eval.identity) p).run.RaisesOnly Query.Idle :=
    withPart hr held fun _ => bindExcept (lift .identity) fun _ => pure _
  have leaf (code : Nat → Action) (f : Identity → Calls → Provider) :
      (do return some (f (← Eval.identity) (← freshCalls code held)) :
        UserCode _).run.RaisesOnly Query.Idle :=
    bindExcept (lift .identity) fun _ =>
      bindExcept (lift (.bind .identity fun _ => pure _)) fun _ => pure _
  cases hr with
  | register name => exact .map some lookup
  | fixed | undefined => exact bindExcept (lift (.bind .identity fun _ => pure _)) fun _ => pure _
  | changing type code => exact leaf code fun i calls => .changing i type none calls
  | produced type node code =>
    refine bindExcept (.ofExcept _) fun name => ?_
    exact leaf code fun i calls => .changing i type (some name) calls
  | property name => exact bindExcept lookup fun _ => pure _
  | map f type hbase => exact part hbase fun i p => .map i p ⟨f, held⟩ type
  | flatMap choice type hbase => exact part hbase fun i p => .flatMap i p choice type
  | orElse hleft hright =>
    refine bindExcept (ask hleft) fun l => ?_
    cases l with
    | none => exact pure _
    | some l => exact part hright fun i r => .orElse i l r
  | withEffect e hinner => exact part hinner fun i p => .withEffect i p e
  | named name hinner => exact part hinner fun i p => .named i p name
  | result ha =>
    refine bindExcept (.ofExcept _) fun x => bindExcept (ask ha) fun y => ?_
    cases y with
    | none => exact pure _
    | some y => exact bindExcept (lift (.bind .identity fun _ => pure _)) fun _ => pure _
  | after ha hnext =>
    refine bindExcept (.ofExcept _) fun x => bindExcept (ask ha) fun y => ?_
    cases y with
    | none => exact pure _
    | some y => exact ask hnext
  | dispatch h => exact bindExcept (.ofExcept _) fun x => ask (h x)

/-- Idle questions raise idle questions only. -/
theorem raisesOnly (h : q.Idle) : (rule q).RaisesOnly Query.Idle := by
  cases q with
  | act a held x => exact act h held x
  | build r held => exact build h held
  | text p label => exact .render (fun _ _ => trivial) p label
  | _ => exact h.elim

theorem settle {α : Type} {culprit : Eval String} (hc : culprit.RaisesOnly Query.Idle)
    (r : Except Failure α) : (ProviderGraph.settle culprit r).run.RaisesOnly Query.Idle := by
  match r with
  | .ok a => exact pure a
  | .error (.fault f) => exact pure _
  | .error (.rejected message) => exact bindExcept (lift hc) fun _ => pure _

theorem nextCall {calls : Calls} (h : ∀ k, (calls.code k).Pure) :
    (ProviderGraph.nextCall calls).RaisesOnly Query.Idle :=
  .bind .machine fun m =>
    .bind (x := Eval.apply _) (fun _ _ _ h => h.elim) fun _ => ask (h (m.count calls.counter))

theorem applyTransform {self : Provider} {f : Closure} (hf : f.code.Pure) (x : Payload) :
    (ProviderGraph.applyTransform self f x).run.RaisesOnly Query.Idle :=
  bindExcept (.within (lift (ask hf))) fun r => settle (ask trivial) r

theorem chooseNext {self : Provider} {choice : Recipe} (h : choice.Pure) (type : PayloadType)
    (v : Outcome) : (ProviderGraph.chooseNext self choice type v).run.RaisesOnly Query.Idle := by
  refine bindExcept (.within (lift ?_)) fun r => bindExcept (settle (ask trivial) r) fun q => ?_
  · cases v.payload? with
    | some x => exact ask h
    | none => exact pure _
  · cases q with
    | none => exact lift (.bind .identity fun _ => pure _)
    | some q =>
      cases v.boundEffect with
      | none => exact lift (pure _)
      | some e => exact lift (.bind .identity fun _ => pure _)

/-- User code that only computes needs no work node. -/
theorem worker_eq (h : q.Idle) : q.worker m = none := by
  cases q with
  | act | build | text => rfl
  | _ => exact h.elim

end Query.Idle

/-- What is kept needs no work node. -/
theorem Query.AboutKept.worker_eq (h : q.AboutKept) : q.worker m = none := by
  obtain ⟨d, c, rfl, hd⟩ := h
  obtain ⟨w, hd⟩ := Option.isSome_iff_exists.mp hd
  cases d with
  | value p =>
    rcases Provider.kept?_eq_some_iff.mp hd with
      ⟨i, x, rfl, -⟩ | ⟨i, j, x, e, rfl, -⟩ | ⟨i, type, path, rfl, -⟩ <;> rfl
  | _ => rfl

/-! ### Questions whose work is known -/

/-- The work for the answer is known: either the question is for a lenient reading of a provider whose
producers at rest are among those of `t`, or no work is done for it. -/
inductive Covered (m : Machine) (t : Producer) : Query → Machine → Prop where
  | idle {q : Query} {n : Machine} (h : q.Idle) : Covered m t q n
  | kept {q : Query} {n : Machine} (h : q.AboutKept) : Covered m t q n
  | value {p : Provider} {n : Machine} {t' : Producer} (h : p.Fits m .lenient n)
    (ht : m.atRest (.producer (p.blur m.supply)) (n.stack.blur m.supply) = .ok t')
    (hsub : ∀ w ∈ t'.visit, w ∈ t.visit) : Covered m t (.ownValue p .lenient) n

/-- The value that a provider asks for inside its scope. -/
theorem Provider.Fits.covered_inside {q : Provider} {t' : Producer} (h : p.Fits m .lenient n)
    (hs : n'.stack = n.stack)
    (hq : ∀ s, n.stack.enter p.owner = .ok s → q.Fits m .lenient { n' with stack := s })
    (ht : m.asked (p.blur m.supply).owner (n.stack.blur m.supply) (.producer (q.blur m.supply)) =
      .ok t') (hsub : ∀ w ∈ t'.visit, w ∈ t.visit)
    (hr : (within p.owner (Ask.value q .lenient)).run.Raises n' q' o) : Covered m t q' o := by
  obtain ⟨s, henter, hr⟩ := Eval.raises_within.mp hr
  obtain ⟨rfl, rfl⟩ := Eval.raises_value.mp hr
  rw [hs] at henter
  rw [h.asked_of_enter henter] at ht
  exact .value (hq s henter) ht hsub

section

variable (hm : m.Minted)

include hm

/-- A flat map goes on with the provider that it has the producers of. -/
theorem Provider.Fits.covered_goOn {i : Identity} {base : Provider} {choice : Recipe}
    {type : PayloadType} {t' : Producer} {v : Outcome}
    (h : (Provider.flatMap i base choice type).Fits m .lenient n)
    (ht : m.atRest (.producer ((Provider.flatMap i base choice type).blur m.supply))
      (n.stack.blur m.supply) = .ok t') (hsub : ∀ w ∈ t'.visit, w ∈ t.visit)
    (hbase : (within (Provider.flatMap i base choice type).owner (Ask.value base .lenient)).run.run
      engine n = some (.ok v, n'))
    (hr : (goOn (.flatMap i base choice type) choice type .lenient v).run.Raises n' q' o) :
    Covered m t q' o := by
  obtain ⟨n₁, hrun, hn, hs⟩ := h.run_value_inside hm (.refl n) rfl fun t ht =>
    h.part rfl ht (fun _ _ h => h.2) .flatMap
  obtain ⟨hv, rfl⟩ := Prod.mk.inj (Option.some.inj (hbase.symm.trans hrun))
  rw [goOn] at hr
  cases v with
  | missing path => exact hr.elim
  | present x e =>
    rcases Eval.raises_bindExcept.mp hr with hr | ⟨q, n₂, hq, hr⟩
    · exact .idle (Query.Idle.chooseNext h.plain.plain type _ _ _ _ hr)
    · obtain ⟨s, hs₀⟩ : ∃ s, n.stack.enter (Provider.flatMap i base choice type).owner = .ok s := by
        cases hs₀ : n.stack.enter (Provider.flatMap i base choice type).owner with
        | ok s => exact ⟨s, rfl⟩
        | error f => exact nomatch (Eval.run_within_error hs₀ rfl).symm.trans hbase
      obtain ⟨a, n₃, hrun', ho, hs', hsame⟩ :=
        h.chooses hm h.plain.plain type x e hn hs (hs ▸ hs₀)
      obtain ⟨rfl, rfl⟩ := Prod.mk.inj (Option.some.inj (hrun'.symm.trans hq))
      generalize hb : blame _ _ = b at hsame
      cases hsame with
      | @ok _ q₀ hlook =>
        obtain rfl := hlook.blur_eq
        have hplain := h.plain.leads (.chosen (blame_eq_ok hb))
        refine h.covered_inside (hs'.trans hs) (fun t ht => ?_) ?_ hsub hr
        · exact h.built rfl (hn.trans ho) ht (hlook.mono hn.supply_le (Nat.le_refl _)) hplain
        · obtain ⟨w, hw, hv⟩ := map_eq_ok_iff.mp hv.symm
          rw [← Provider.declaredName_blur] at hv
          have hchosen := (Machine.chosenAtRest_of_present hw hv).trans hb
          obtain ⟨q₁, hq₁, ht⟩ := exists_of_bind_eq_ok (Machine.atRest_producer_flatMap.symm.trans ht)
          obtain rfl := Except.ok.inj (hq₁.symm.trans hchosen)
          exact ht

/-- A fallback asks both sides for their producers, and reads the second side only if the first one
is missing. -/
theorem Provider.Fits.covered_orElse {i : Identity} {left right : Provider} {t' : Producer}
    (h : (Provider.orElse i left right).Fits m .lenient n)
    (ht : m.atRest (.producer ((Provider.orElse i left right).blur m.supply))
      (n.stack.blur m.supply) = .ok t') (hsub : ∀ w ∈ t'.visit, w ∈ t.visit)
    (hr : (rule (.ownValue (.orElse i left right) .lenient)).Raises n q' o) : Covered m t q' o := by
  rw [Provider.blur, Machine.atRest_producer_orElse] at ht
  obtain ⟨a, ha, ht⟩ := exists_of_bind_eq_ok ht
  obtain ⟨b, hb, ht⟩ := exists_of_bind_eq_ok ht
  obtain rfl := Except.ok.inj ht
  rw [Producer.visit_plus] at hsub
  have hleft (t : ScopeStack) (ht : n.stack.enter (Provider.orElse i left right).owner = .ok t) :
      left.Fits m .lenient { n with stack := t } := h.part rfl ht (fun _ _ h => h.2.1) .left
  rcases Eval.raises_bindExcept.mp hr with hr | ⟨v, n', hv, hr⟩
  · exact h.covered_inside rfl hleft ha (fun w hw => hsub w (List.mem_append_left _ hw)) hr
  · obtain ⟨n₁, hrun, hn, hs⟩ := h.run_value_inside hm (.refl n) rfl hleft
    obtain ⟨-, rfl⟩ := Prod.mk.inj (Option.some.inj (hv.symm.trans hrun))
    split at hr
    · rcases Eval.raises_bindExcept.mp hr with hr | ⟨w, n₂, -, hr⟩
      · refine h.covered_inside hs (fun t ht => ?_) hb
          (fun w hw => hsub w (List.mem_append_right _ hw)) hr
        exact (h.later hn hs).part rfl (hs ▸ ht) (fun _ _ h => h.2.2) .right
      · split at hr <;> exact hr.elim
    · exact hr.elim

/-- A property reads what it holds, whose producers are among its own, or the value that it keeps. -/
theorem Provider.Fits.covered_property (hset : ∀ i, (m.property i).Settled) {r : PropertyRef}
    {t' : Producer} (h : (Provider.property r).Fits m .lenient n)
    (ht : m.atRest (.producer ((Provider.property r).blur m.supply)) (n.stack.blur m.supply) =
      .ok t') (hsub : ∀ w ∈ t'.visit, w ∈ t.visit)
    (hr : (rule (.ownValue (.property r) .lenient)).Raises n q' o) : Covered m t q' o := by
  have heq := h.evolves.property_eq r.id
  cases hfin : (m.property r.id).finalized with
  | true =>
    obtain ⟨q, w, hk⟩ := (hset r.id).keeps hfin
    rw [← heq] at hk
    have hd : (Demand.value (.property r)).provider = .property r := rfl
    exact .kept (hk.raises hd hr)
  | false =>
    rcases Eval.raises_bindExcept.mp hr with hr | ⟨_, n', hn', hr⟩
    · exact (Eval.raises_property_bind.mp hr).elim
    · obtain ⟨-, rfl⟩ := Prod.mk.inj (Option.some.inj hn')
      have hr := Eval.raises_property_bind.mp hr
      rw [heq] at hr
      cases hq : (m.property r.id).effective with
      | none =>
        rw [hq] at hr
        exact hr.elim
      | some q =>
        rw [hq] at hr
        rw [Provider.blur, Machine.atRest_producer_property ((hset r.id).unfrozen hfin) hq] at ht
        obtain ⟨a, ha, ht⟩ := exists_of_bind_eq_ok ht
        obtain rfl := Except.ok.inj ht
        rw [Producer.visit_plus] at hsub
        rw [← (hm.effective _ _ hq).blur_eq] at ha
        exact h.covered_inside rfl (fun t ht => h.held hm ht (heq ▸ hq)) ha
          (fun w hw => hsub w (List.mem_append_right _ hw)) hr

/-- A provider that is not a flat map draws from providers that it has the producers of. -/
theorem Provider.Fits.covered_raised (hset : ∀ i, (m.property i).Settled) {t' : Producer}
    (h : p.Fits m .lenient n)
    (ht : m.atRest (.producer (p.blur m.supply)) (n.stack.blur m.supply) = .ok t')
    (hsub : ∀ w ∈ t'.visit, w ∈ t.visit)
    (hp : ∀ i base choice type, p ≠ .flatMap i base choice type)
    (hr : (rule (.ownValue p .lenient)).Raises n q' o) : Covered m t q' o := by
  cases p with
  | fixed | undefined => exact hr.elim
  | changing i type node calls =>
    obtain ⟨r, hcalls⟩ : ∃ r, calls.Steady r := h.plain.plain
    have hidle : (rule (.ownValue (.changing i type node calls) .lenient)).RaisesOnly Query.Idle :=
      .bindExcept (.lift (Query.Idle.nextCall fun k => (hcalls k).1)) fun r =>
        .bindExcept (Query.Idle.settle (.pure _) r) fun _ => .pure _
    exact .idle (hidle _ _ _ hr)
  | map i base f type =>
    rcases Eval.raises_bindExcept.mp hr with hr | ⟨v, n', -, hr⟩
    · rw [Provider.blur, Machine.atRest_producer_of_demand rfl] at ht
      exact h.covered_inside rfl (fun t ht => h.part rfl ht (fun _ _ h => h.2) .map) ht hsub hr
    · cases v with
      | missing path => exact hr.elim
      | present x e =>
        rcases Eval.raises_bindExcept.mp hr with hr | ⟨y, n', -, hr⟩
        · exact .idle (Query.Idle.applyTransform h.plain.plain x _ _ _ hr)
        · exact hr.elim
  | flatMap i base choice type => exact absurd rfl (hp i base choice type)
  | orElse i left right => exact h.covered_orElse hm ht hsub hr
  | withEffect i inner e =>
    rw [Provider.blur, Machine.atRest_producer_of_demand rfl] at ht
    rcases Eval.raises_bindExcept.mp hr with hr | ⟨v, n', -, hr⟩
    · exact h.covered_inside rfl (fun t ht => h.part rfl ht (fun _ _ h => h.2) .withEffect) ht
        hsub hr
    · exact hr.elim
  | named i inner name =>
    rw [Provider.blur, Machine.atRest_producer_of_demand rfl] at ht
    exact h.covered_inside rfl (fun t ht => h.part rfl ht (fun _ _ h => h.2) .named) ht hsub hr
  | property r => exact h.covered_property hm hset ht hsub hr
  | custom => exact h.plain.plain.elim

/-- What is drawn by a question whose work is known is again such a question. -/
theorem Covered.draws (hset : ∀ i, (m.property i).Settled) (h : Covered m t q n)
    (hd : Draws q n q' o) : Covered m t q' o := by
  cases h with
  | idle h => exact .idle (h.raisesOnly _ _ _ hd.raises)
  | kept h => exact .kept (h.raisesOnly _ _ _ hd.raises)
  | @value p _ t' h ht hsub =>
    cases hd with
    | raised hq hr =>
      refine h.covered_raised hm hset ht hsub (fun i base choice type hp => ?_) hr
      exact hq i base choice type _ (congrArg (Query.ownValue · .lenient) hp)
    | chosen hbase hr => exact h.covered_goOn hm ht hsub hbase hr

omit hm in
/-- What does work for the answer is among the producers. -/
theorem Covered.worker {w : String} (h : Covered m t q n) (hw : q.worker n = some w) :
    w ∈ t.names := by
  rw [Producer.mem_names]
  cases h with
  | idle h => exact nomatch h.worker_eq.symm.trans hw
  | kept h => exact nomatch h.worker_eq.symm.trans hw
  | @value p _ t' h ht hsub =>
    refine hsub w ?_
    cases p with
    | changing i type node calls =>
      obtain rfl : node = some w := hw
      rw [Machine.atRest_eq] at ht
      obtain rfl := Except.ok.inj ht
      exact List.mem_singleton.mpr rfl
    | property r =>
      replace hw : (m.property r.id).attached = some w := by
        rw [← h.evolves.property_eq]
        exact hw
      obtain ⟨b, rfl⟩ := Machine.exists_of_producer_ok ht
      rw [Producer.visit_plus, hw]
      exact List.mem_append_left _ (List.mem_singleton.mpr rfl)
    | _ => cases hw

end

/-- What does work for the value of a plain provider is among its producers, but for what is asked
for the bases of flat maps. The producers can be found if the value can, unless it is the second side
of a fallback that has no part in the value which keeps them from being found. Wherever a question
comes up in a session, old identities and properties are as the hypotheses say (`Occurs.minted`,
`Occurs.settled`). -/
theorem dependencies_are_complete {v : Outcome} (hm : m.Minted)
    (hset : ∀ i, (m.property i).Settled) (hp : p.Minted m.supply)
    (hplain : p.AllPlain m .lenient)
    (hv : (Ask.value p .lenient).run.run engine m = some (.ok v, n)) :
    (∃ t o, engine (.producer p) m = some (.ok t, o) ∧
      ∀ q n' w, Feeds (.ownValue p .lenient) m q n' → q.worker n' = some w → w ∈ t.names) ∨
    ∃ f o, engine (.producer p) m = some (.error f, o) ∧ FailsAside (.producer p) m f := by
  have hfits := Provider.Fits.start hm hp hplain
  obtain ⟨a, o, hrun, -, -, hsame⟩ := Provider.Fits.faithful (d := .producer p) hm hfits
  replace hrun : engine (.producer p) m = some (a, o) := (Eval.run_ask _ _ _).symm.trans hrun
  replace hsame : SameResult _ a (m.atRest (.producer (p.blur m.supply))
    (m.stack.blur m.supply)) := hsame
  generalize hb : m.atRest (.producer (p.blur m.supply)) (m.stack.blur m.supply) = b at hsame
  cases hsame with
  | @ok t _ h =>
    obtain rfl := h
    refine .inl ⟨t, o, hrun, fun q n' w hfeeds hw => ?_⟩
    have hcovered : Covered m t q n' :=
      hfeeds.mem (.value hfits hb fun _ h => h) fun _ _ _ _ h hd => h.draws hm hset hd
    exact hcovered.worker hw
  | error f =>
    refine .inr ⟨f, o, hrun, (hfits.producer_fails hm hb).resolve_left fun hvalue => ?_⟩
    obtain ⟨n', hread, -⟩ := hfits.run_value hm
    rw [hvalue] at hread
    exact nomatch hv.symm.trans hread

/-! ### Fixed sessions -/

def oneEachTime : Nat → Action := fun _ => .compute fun _ => .ok (some (.int 1))

/-- The calls give the same each time. -/
theorem steady_oneEachTime (i : Identity) :
    Calls.Steady ⟨i, oneEachTime, none⟩ (.ok (some (.int 1))) :=
  fun _ => ⟨.compute _, rfl⟩

/-- A session with a property that reads from an output of one node and is produced by another, and
with a map over it. -/
def archiveSession : List Step :=
  [.newProperty "p" .int none, .property "p" (.attach "zip"),
    .setProvider "p" (.produced .int (some "compile") oneEachTime),
    .provider (.map (.property "p") (.compute fun x => .ok (x.add x)) .int) (.keep "d")]

def archiveMachine : Machine := (Session.played 9 archiveSession (.fresh 8)).getD (.fresh 8)

def compiled : Provider := .changing 1 .int (some "compile") ⟨2, oneEachTime, none⟩

def doubledArchive : Provider :=
  .map 3 (.property ⟨0, .int, none⟩) ⟨.compute fun x => .ok (x.add x), none⟩ .int

theorem doubledArchive_allPlain : doubledArchive.AllPlain archiveMachine .lenient := by
  refine .of_leads (.compute _) fun q h => ?_
  cases h
  refine .of_leads rfl fun q h => ?_
  cases h with
  | property h =>
    obtain rfl := Option.some.inj h
    exact .of_leads ⟨_, steady_oneEachTime 2⟩ fun q h => nomatch h

theorem dependencies_are_complete_doubledArchive :
    ∃ t o, engine (.producer doubledArchive) archiveMachine = some (.ok t, o) ∧
      "zip" ∈ t.names ∧ "compile" ∈ t.names := by
  have hreached : archiveMachine.Reached :=
    (Machine.Reached.fresh 8).played 9 archiveSession rfl
  have hkept : archiveMachine.providerRegisters.find? "d" = some doubledArchive := rfl
  obtain ⟨hp, -⟩ := hreached.identified hkept
  have hv : ∃ v n, (Ask.value doubledArchive .lenient).run.run engine archiveMachine =
      some (.ok v, n) := ⟨_, _, Eval.run_engine_of_answer 5 rfl⟩
  have ht : ∃ t o, engine (.producer doubledArchive) archiveMachine = some (.ok t, o) :=
    ⟨_, _, engine_eq_some_iff.mpr ⟨5, rfl⟩⟩
  obtain ⟨v, n, hv⟩ := hv
  have reads : Draws (.ownValue doubledArchive .lenient) archiveMachine
      (.ownValue (.property ⟨0, .int, none⟩) .lenient)
      { archiveMachine with stack := ⟨[⟨3, "map"⟩], 8⟩ } :=
    .raised (fun _ _ _ _ _ h => nomatch h) (.inl (.inl ⟨rfl, rfl⟩))
  have draws : Draws (.ownValue (.property ⟨0, .int, none⟩) .lenient)
      { archiveMachine with stack := ⟨[⟨3, "map"⟩], 8⟩ } (.ownValue compiled .lenient)
      { archiveMachine with stack := ⟨[⟨0, "property"⟩, ⟨3, "map"⟩], 8⟩ } :=
    .raised (fun _ _ _ _ _ h => nomatch h) (.inl (.inl ⟨rfl, rfl⟩))
  rcases dependencies_are_complete hreached.minted hreached.settled hp doubledArchive_allPlain hv
    with ⟨t, o, hrun, hnames⟩ | ⟨f, o, hrun, -⟩
  · exact ⟨t, o, hrun, hnames _ _ _ (.drawn reads .self) rfl,
      hnames _ _ _ (.drawn reads (.drawn draws .self)) rfl⟩
  · obtain ⟨t, o', ht⟩ := ht
    exact nomatch hrun.symm.trans ht

/-- A session with a fallback that has no need of its second side, and with a flat map. -/
def hiddenSession : List Step :=
  [.provider (.orElse (.produced .int (some "compile") oneEachTime)
      (.flatMap (.fixed (.int 1)) (.result (.compute fun _ => .error (.rejected "x"))) .int))
      (.keep "u"),
    .provider (.flatMap (.produced .int (some "compile") oneEachTime) (.fixed (.int 2)) .int)
      (.keep "b")]

def hiddenMachine : Machine := (Session.played 9 hiddenSession (.fresh 8)).getD (.fresh 8)

/-- A fallback whose second side fails, after an output of a node. -/
def unusedFallback : Provider :=
  .orElse 4 (.changing 0 .int (some "compile") ⟨1, oneEachTime, none⟩)
    (.flatMap 3 (.fixed 2 (.int 1)) (.result (.compute fun _ => .error (.rejected "x"))) .int)

def chosenByOutput : Provider :=
  .flatMap 7 (.changing 5 .int (some "compile") ⟨6, oneEachTime, none⟩) (.fixed (.int 2)) .int

theorem unusedFallback_allPlain : unusedFallback.AllPlain hiddenMachine .lenient := by
  refine .of_leads trivial fun q h => ?_
  cases h with
  | left => exact .of_leads ⟨_, steady_oneEachTime 1⟩ fun q h => nomatch h
  | right =>
    refine .of_leads (.result (.compute _)) fun q h => ?_
    cases h with
    | chosen h => cases h
    | flatMap | absent => exact .of_leads trivial fun q h => nomatch h

theorem chosenByOutput_allPlain : chosenByOutput.AllPlain hiddenMachine .lenient := by
  refine .of_leads (.fixed _) fun q h => ?_
  have fixed (i : Identity) (x : Payload) : (Provider.fixed i x).AllPlain hiddenMachine .lenient :=
    .of_leads trivial fun q h => nomatch h
  cases h with
  | flatMap => exact .of_leads ⟨_, steady_oneEachTime 6⟩ fun q h => nomatch h
  | absent => exact .of_leads trivial fun q h => nomatch h
  | @chosen _ _ _ _ _ _ e h =>
    obtain rfl := Except.ok.inj h
    cases e with
    | none => exact fixed _ _
    | some e =>
      refine .of_leads trivial fun q h => ?_
      cases h
      exact fixed _ _

/-- Both providers have a value, for which an output of the node `compile` is computed. The first one
has no producers, since the second side of the fallback has none; the producers of the second one do
not tell of the node. -/
theorem dependencies_are_hidden :
    hiddenMachine.Reached ∧ unusedFallback.AllPlain hiddenMachine .lenient ∧
      chosenByOutput.AllPlain hiddenMachine .lenient ∧
      (∃ v n, (Ask.value unusedFallback .lenient).run.run engine hiddenMachine = some (.ok v, n)) ∧
      (∃ q n, Brings (.ownValue unusedFallback .lenient) hiddenMachine q n ∧
        q.worker n = some "compile") ∧
      (∃ n, engine (.producer unusedFallback) hiddenMachine =
        some (.error (.transform "flatmap(fixed(1))" "x"), n)) ∧
      (∃ v n, (Ask.value chosenByOutput .lenient).run.run engine hiddenMachine = some (.ok v, n)) ∧
      (∃ q n, Brings (.ownValue chosenByOutput .lenient) hiddenMachine q n ∧
        q.worker n = some "compile") ∧
      ∃ n, engine (.producer chosenByOutput) hiddenMachine = some (.ok .none, n) := by
  have left : (rule (.ownValue unusedFallback .lenient)).Raises hiddenMachine
      (.ownValue (.changing 0 .int (some "compile") ⟨1, oneEachTime, none⟩) .lenient)
      { hiddenMachine with stack := ⟨[⟨4, "or"⟩], 8⟩ } := .inl (.inl ⟨rfl, rfl⟩)
  have base : (rule (.ownValue chosenByOutput .lenient)).Raises hiddenMachine
      (.ownValue (.changing 5 .int (some "compile") ⟨6, oneEachTime, none⟩) .lenient)
      { hiddenMachine with stack := ⟨[⟨7, "flatmap"⟩], 8⟩ } := .inl (.inl ⟨rfl, rfl⟩)
  exact ⟨(Machine.Reached.fresh 8).played 9 hiddenSession rfl, unusedFallback_allPlain,
    chosenByOutput_allPlain, ⟨_, _, Eval.run_engine_of_answer 9 rfl⟩, ⟨_, _, .raised left .self, rfl⟩,
    ⟨_, engine_eq_some_iff.mpr ⟨9, rfl⟩⟩, ⟨_, _, Eval.run_engine_of_answer 9 rfl⟩,
    ⟨_, _, .raised base .self, rfl⟩, ⟨_, engine_eq_some_iff.mpr ⟨9, rfl⟩⟩⟩

end ProviderGraph
