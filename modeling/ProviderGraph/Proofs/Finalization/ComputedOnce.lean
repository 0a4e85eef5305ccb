import ProviderGraph.Proofs.Finalization.Contributions

/-!
# What a finalization computes

A finalization first looks for the producers of the provider that the property reads from, and then
reads it (`Machine.Computation`). The search looks at values only to go through flat maps. Where
none is on the way the value is computed once, and the producers that are kept are those of the
graph that it is computed from (`finalization_computes_once`). Through a flat map it is computed
twice, and the second time another provider may be chosen (`wavering_finalization`).
-/

namespace ProviderGraph

variable {m n k : Machine} {r : PropertyRef} {p q : Provider} {t : Producer} {S S' : States}

/-! ### The two parts of a finalization -/

/-- The computation of what a property keeps that reads from the provider `q`: its producers are
looked for in the scope of the property, and then it is read in that scope. -/
structure Machine.Computation (m : Machine) (r : PropertyRef) (q : Provider) where
  inside : ScopeStack
  opened : m.stack.enter (Provider.property r).owner = .ok inside
  tree : Producer
  between : Machine
  walked : engine (.producer q) { m with stack := inside } = some (.ok tree, between)
  insideAgain : ScopeStack
  reopened : (between.stack.leave r.id).enter (Provider.property r).owner = .ok insideAgain
  value : Outcome
  after : Machine
  read : engine (.ownValue q .strict) { between with stack := insideAgain } = some (.ok value, after)

namespace Machine.Computation

/-- The machine on which the producers are looked for. -/
def walkedOn (c : m.Computation r q) : Machine := { m with stack := c.inside }

/-- The machine on which the provider is read. -/
def readOn (c : m.Computation r q) : Machine := { c.between with stack := c.insideAgain }

/-- Where nothing is chosen the provider is read on the machine that the producers were looked for
on, and their tree is the one that is contributed. -/
theorem of_contributes (c : m.Computation r q) (h : q.Contributes m.property t) :
    c.tree = t ∧ c.readOn = c.walkedOn ∧ (Query.producer q).calls c.walkedOn = [] := by
  obtain ⟨⟨res, hrun, hres⟩, hcalls⟩ := h.walk (n := c.walkedOn) rfl
  have hwalked : (Ask.producer q).run.run engine c.walkedOn = some (.ok c.tree, c.between) :=
    (Eval.run_ask _ _ _).trans c.walked
  obtain ⟨rfl, hbetween⟩ := Prod.mk.inj (Option.some.inj (hwalked.symm.trans hrun))
  have hagain : c.insideAgain = c.inside := by
    have hreopened := c.reopened
    rw [hbetween] at hreopened
    have hleave : c.walkedOn.stack.leave r.id = m.stack :=
      ScopeStack.leave_of_enter _ (Provider.property r).owner c.opened
    rw [hleave, c.opened] at hreopened
    exact (Except.ok.inj hreopened).symm
  refine ⟨hres _ rfl, ?_, ?_⟩
  · rw [readOn, hbetween, hagain]
    rfl
  · change ((Eval.ask (.producer q) pure).questions engine c.walkedOn).flatMap _ = _ at hcalls
    rwa [Eval.questions_ask, List.flatMap_singleton] at hcalls

end Machine.Computation

/-- What has been computed for a finalization, where the property reads from a provider. -/
theorem exists_computation
    (h : (computeFrozen r (some q)).run.run engine m = some (.ok (p, t), n)) :
    ∃ c : m.Computation r q, c.tree = t ∧ p.kept? = some (c.value.push q.declaredName) ∧
      n.property = c.after.property ∧
      (computeFrozen r (some q)).run.questions engine m =
        [(.producer q, c.walkedOn), (.ownValue q .strict, c.readOn)] := by
  obtain ⟨t', k, hproducer, h⟩ := Eval.run_bindExcept_ok h
  obtain ⟨v, k', hvalue, h⟩ := Eval.run_bindExcept_ok h
  have hquestions : (computeFrozen r (some q)).run.questions engine m =
      (within (Provider.property r).owner (Ask.producer q)).run.questions engine m ++
        ((within (Provider.property r).owner (Ask.value q .strict)).run.questions engine k ++ []) := by
    rw [computeFrozen, Eval.questions_bind_ok hproducer, Eval.questions_bind_ok hvalue]
    match v with
    | .missing _ | .present _ none | .present _ (some _) => rfl
  obtain ⟨p', i, hp, hkept⟩ := run_toProvider r.type v k'
  rw [Eval.run_lift_bind, Eval.run_bind_of hp] at h
  cases h
  obtain ⟨s, k, hs, hrun, rfl⟩ := Eval.run_within_ok hproducer
  obtain ⟨s', k', hs', hrun', rfl⟩ := Eval.run_within_ok hvalue
  obtain ⟨w, k'', hw, hpush⟩ := Eval.run_bindExcept_ok hrun'
  cases hpush
  refine ⟨⟨s, hs, t, k, (Eval.run_ask _ _ _).symm.trans hrun, s', hs', w, _,
    (Eval.run_ask _ _ _).symm.trans hw⟩, rfl, hkept, rfl, ?_⟩
  rw [hquestions, Eval.questions_within hs, Eval.questions_within hs', Eval.questions_value]
  exact congrArg (· ++ _) (Eval.questions_ask engine (.producer q))

/-- A finalization calls the code that the computation of its value calls. -/
theorem calls_finalize {a : Except Fault Unit} (hopen : (m.property r.id).finalized = false)
    (hfin : engine (.finalize r) m = some (a, n)) :
    (Query.finalize r).calls m =
      ((computeFrozen r (m.property r.id).effective).run.questions engine m).flatMap
        fun e => e.1.calls e.2 := by
  rw [Query.calls_eq id hfin]
  refine congrArg (List.flatMap _) ?_
  rw [rule, evalFinalize, Eval.questions_property_bind, if_neg (by simp [hopen]), ExceptT.run_bind,
    Eval.questions_bind]
  cases (computeFrozen r (m.property r.id).effective).run.run engine m with
  | none => exact List.append_nil _
  | some kept =>
    obtain ⟨⟨⟩, _⟩ := kept <;> exact List.append_nil _

/-! ### Contributions while a provider is read -/

/-- The tree of the provider that a property reads from, if it reads from one: what this provider
contributes, where that is known. -/
def Producer.OfHeld (S : States) (t : Producer) : Option Provider → Prop
  | some q => ∀ t', q.Contributes S t' → t = t'
  | .none => t = .none

/-- Each property is as it was, or it was finalized since, and keeps the tree of its provider. -/
def States.Matures (S S' : States) : Prop :=
  ∀ i, S' i = S i ∨ ∃ frozen t, (S i).finalized = false ∧ S' i = (S i).commit frozen t ∧
    t.OfHeld S (S i).effective

theorem States.Matures.refl (S : States) : S.Matures S := fun _ => .inl rfl

theorem Property.attached_commit (s : Property) (p : Provider) (t : Producer) :
    (s.commit p t).attached = s.attached := by
  rw [commit]
  split <;> rfl

theorem Property.frozenProducer_commit {s : Property} (h : s.finalized = false) (p : Provider)
    (t : Producer) : (s.commit p t).frozenProducer = some t := by
  rw [commit, if_neg (by simp [h])]

/-- What is contributed is contributed after a finalization. -/
theorem Provider.Contributes.matures (h : p.Contributes S t) (hS : S.Matures S') :
    p.Contributes S' t := by
  induction h with
  | fixed | undefined | leaf | output => constructor
  | map i f type h ih => exact .map i f type ih
  | orElse i h h' ih ih' => exact .orElse i ih ih'
  | withEffect i e h ih => exact .withEffect i e ih
  | named i name h ih => exact .named i name ih
  | @frozen r t hf h =>
    rcases hS r.id with heq | ⟨_, _, hopen, -⟩
    · rw [← heq] at hf h ⊢
      exact .frozen hf h
    · exact absurd (hopen.symm.trans hf) (by simp)
  | @held r q t hf hq h ih =>
    rcases hS r.id with heq | ⟨frozen, t', hopen, heq, ht⟩
    · rw [← heq] at hf hq ⊢
      exact .held hf hq ih
    · rw [hq] at ht
      obtain rfl : t' = t := ht t h
      rw [← Property.attached_commit (S r.id) frozen t', ← heq]
      exact .frozen (heq ▸ Property.finalized_commit _ _ _)
        (heq ▸ Property.frozenProducer_commit hopen _ _)
  | @blank r hf hq =>
    rcases hS r.id with heq | ⟨frozen, t', hopen, heq, ht⟩
    · rw [← heq] at hf hq ⊢
      exact .blank hf hq
    · rw [hq] at ht
      obtain rfl : t' = .none := ht
      rw [← Property.attached_commit (S r.id) frozen .none, ← heq, ← Producer.plus_none (.ofOption _)]
      exact .frozen (heq ▸ Property.finalized_commit _ _ _)
        (heq ▸ Property.frozenProducer_commit hopen _ _)

theorem States.Matures.trans {S'' : States} (h : S.Matures S') (h' : S'.Matures S'') :
    S.Matures S'' := by
  intro i
  rcases h' i with heq' | ⟨frozen', t', hopen', heq', ht'⟩
  · rw [heq']
    exact h i
  · rcases h i with heq | ⟨frozen, t, hopen, heq, -⟩
    · rw [heq] at hopen' heq' ht'
      refine .inr ⟨frozen', t', hopen', heq', ?_⟩
      cases hq : (S i).effective with
      | none =>
        rw [hq] at ht'
        exact ht'
      | some q =>
        rw [hq] at ht'
        exact fun t hq => ht' t (hq.matures h)
    · rw [heq, Property.finalized_commit] at hopen'
      cases hopen'

/-- What is computed for a finalization is the tree that is contributed. -/
theorem tree_of_computeFrozen {held : Option Provider}
    (h : (computeFrozen r held).run.run engine m = some (.ok (p, t), n)) :
    t.OfHeld m.property held := by
  cases held with
  | none =>
    cases h
    rfl
  | some q =>
    obtain ⟨c, rfl, -⟩ := exists_computation h
    exact fun t' ht' => (c.of_contributes ht').1

/-- As long as user code changes no property, properties change only by being finalized, and keep
the trees that were contributed. -/
theorem engine_matures {q : Query} (h : ∀ i, q.Spares m i) (hm : m.Holds [])
    {s : q.Answer × Machine} (hs : engine q m = some s) :
    States.Matures m.property s.2.property := by
  refine engine_keeps (L := States.Matures) (C := fun q m => (∀ i, q.Spares m i) ∧ m.Holds [])
    .refl (fun h h' => h.trans h') ?_ ?_ ?_ ⟨h, hm⟩ hs
  · rintro q m q' n ⟨hspares, hm⟩ hcode hr -
    exact ⟨fun i => (hspares i).raised hr, (rule_upfront hcode m q' n hr).holds hm⟩
  · rintro q m s ⟨hspares, -⟩ hcode hs
    exact fun i => .inl (hspares i q m .self hcode s hs)
  · rintro r m p t k ⟨hspares, hm⟩ hopen hk hn i
    by_cases hi : i = r.id
    · subst hi
      refine .inr ⟨p, t, hopen, ?_, tree_of_computeFrozen hk⟩
      refine (Machine.property_setProperty_self _ _ _).trans ?_
      exact congrArg (·.commit p t) ((hspares r.id).property_of_computeFrozen hm hopen hk)
    · rw [k.property_setProperty_of_ne hi]
      exact hn i

/-- A finalization computes its value once, if nothing is chosen on the way to the producers: it then
calls the code that one strict reading calls on the same machine, and the tree that it keeps is the
one that the graph contributes when this reading starts, and still when it ends, unless user code
has changed properties. In general its calls are those of a search for the producers, followed by
those of a reading. A property that reads from no provider is finalized without a call. -/
theorem finalization_computes_once (hm : m.Holds []) (hopen : (m.property r.id).finalized = false)
    (hfin : engine (.finalize r) m = some (.ok (), n)) :
    ((m.property r.id).effective = none →
      (Query.finalize r).calls m = [] ∧
        ∃ p, n.property r.id = (m.property r.id).commit p .none ∧ p.kept? = some (.missing [])) ∧
    ∀ q, (m.property r.id).effective = some q →
      ∃ (c : m.Computation r q) (p : Provider),
        (Query.finalize r).calls m =
          (Query.producer q).calls c.walkedOn ++ (Query.ownValue q .strict).calls c.readOn ∧
        n.property r.id = (c.after.property r.id).commit p c.tree ∧
        p.kept? = some (c.value.push q.declaredName) ∧
        ∀ t, q.Contributes m.property t →
          c.tree = t ∧ c.readOn = c.walkedOn ∧
          (Query.finalize r).calls m = (Query.ownValue q .strict).calls c.walkedOn ∧
          ((∀ i, (Query.ownValue q .strict).Spares c.walkedOn i) →
            q.Contributes c.after.property t) := by
  obtain ⟨p, t, k, hk, rfl⟩ := run_computeFrozen_of_finalize_ok hopen hfin
  have hcalls := calls_finalize hopen hfin
  refine ⟨fun heff => ?_, fun q heff => ?_⟩
  · rw [heff] at hk hcalls
    cases hk
    exact ⟨hcalls, _, Machine.property_setProperty_self _ _ _, rfl⟩
  · rw [heff] at hk hcalls
    obtain ⟨c, rfl, hkept, hproperty, hquestions⟩ := exists_computation hk
    have hboth : (Query.finalize r).calls m =
        (Query.producer q).calls c.walkedOn ++ (Query.ownValue q .strict).calls c.readOn := by
      rw [hcalls, hquestions]
      exact congrArg _ (List.append_nil _)
    refine ⟨c, p, hboth, ?_, hkept, fun t ht => ?_⟩
    · rw [← hproperty]
      exact Machine.property_setProperty_self _ _ _
    · obtain ⟨htree, hon, hquiet⟩ := c.of_contributes ht
      refine ⟨htree, hon, ?_, fun hspares => ?_⟩
      · rw [hboth, hquiet, hon]
        rfl
      · have hread : engine (.ownValue q .strict) c.walkedOn = some (.ok c.value, c.after) :=
          hon ▸ c.read
        have hholds : c.walkedOn.Holds [] := (hm.enter c.opened).mono (by simp)
        exact ht.matures (engine_matures hspares hholds hread)

/-! ### Fixed sessions -/

/-- A session with a property that reads from a map of another property, which has a work node and
reads from a leaf that counts its calls. -/
def attachedSession : List Step :=
  [.newProperty "q" .int (some "q"), .property "q" (.attach "a"),
    .setProvider "q" (.produced .int (some "b") fun n => .compute fun _ =>
      .ok (some (.int (Int64.ofNat n)))),
    .newProperty "p" .int none,
    .setProvider "p" (.map (.property "q") (.compute fun x => .ok (x.add x)) .int)]

def attachedMachine : Machine := (Session.played 9 attachedSession (.fresh 8)).getD (.fresh 8)

theorem finalization_computes_once_attachedMachine :
    ∃ n q, (attachedMachine.property 3).effective = some q ∧
      engine (.finalize ⟨3, .int, none⟩) attachedMachine = some (.ok (), n) ∧
      ∃ (c : attachedMachine.Computation ⟨3, .int, none⟩ q) (p : Provider),
        c.tree = .union [.node "a", .node "b"] ∧
        n.property 3 = (c.after.property 3).commit p c.tree ∧
        (Query.finalize ⟨3, .int, none⟩).calls attachedMachine =
          (Query.ownValue q .strict).calls c.walkedOn := by
  have hrun : ∃ n, engine (.finalize ⟨3, .int, none⟩) attachedMachine = some (.ok (), n) :=
    ⟨_, engine_eq_some_iff.mpr ⟨9, rfl⟩⟩
  obtain ⟨n, hrun⟩ := hrun
  have hcontributes : Provider.Contributes attachedMachine.property
      (.map 4 (.property ⟨0, .int, some "q"⟩) ⟨.compute fun x => .ok (x.add x), none⟩ .int)
      (.union [.node "a", .node "b"]) :=
    .map _ _ _ (.held (t := .node "b") rfl rfl (.output _ _ _ _))
  obtain ⟨c, p, -, hn, -, hc⟩ :=
    (finalization_computes_once (r := ⟨3, .int, none⟩) (.of_scopes_eq_nil rfl) rfl hrun).2 _ rfl
  obtain ⟨htree, -, hcalls, -⟩ := hc _ hcontributes
  exact ⟨n, _, rfl, hrun, c, p, htree, hn, hcalls⟩

/-- A provider chosen by the number of a call: the first choice is an output of one work node, and
the others are outputs of another. -/
def waveringChoice : Recipe := .dispatch fun x =>
  if x = .int 0 then .produced .int (some "a") fun _ => .compute fun _ => .ok (some (.int 10))
  else .produced .int (some "b") fun _ => .compute fun _ => .ok (some (.int 20))

/-- A session with a property that reads from the provider chosen by the calls of a leaf. -/
def waveringSession : List Step :=
  [.newProperty "p" .int none, .setProvider "p" (.flatMap countingLeaf waveringChoice .int)]

def waveringMachine : Machine := (Session.played 9 waveringSession (.fresh 8)).getD (.fresh 8)

/-- The property is read with one call of the leaf, and would then keep a value of the first work
node. Its finalization makes two calls. It keeps a value of the second work node, and names the
first one as its producer. -/
theorem wavering_finalization :
    waveringMachine.Reached ∧ (waveringMachine.property 0).finalized = false ∧
      ∃ q s n k p, (waveringMachine.property 0).effective = some q ∧
        waveringMachine.stack.enter ⟨0, "property"⟩ = .ok s ∧
        engine (.ownValue q .strict) { waveringMachine with stack := s } =
          some (.ok (.present (.int 10) none), k) ∧
        engine (.finalize ⟨0, .int, none⟩) waveringMachine = some (.ok (), n) ∧
        k.count 2 = 1 ∧ n.count 2 = 2 ∧
        ((Query.ownValue q .strict).calls { waveringMachine with stack := s }).length <
          ((Query.finalize ⟨0, .int, none⟩).calls waveringMachine).length ∧
        (n.property 0).Keeps p (.present (.int 20) none) ∧
        (n.property 0).frozenProducer = some (.node "a") := by
  refine ⟨(Machine.Reached.fresh 8).played 9 waveringSession rfl, rfl,
    .flatMap 3 (.changing 1 .int none ⟨2, _, none⟩) waveringChoice .int, _, _, _, _,
    rfl, rfl, engine_eq_some_iff.mpr ⟨9, rfl⟩, engine_eq_some_iff.mpr ⟨9, rfl⟩, rfl, rfl, ?_,
    ⟨rfl, rfl, rfl⟩, rfl⟩
  rw [Query.calls_of_answer 9 rfl, Query.calls_of_answer 9 rfl]
  decide

end ProviderGraph
