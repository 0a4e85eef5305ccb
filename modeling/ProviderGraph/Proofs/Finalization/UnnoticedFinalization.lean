import ProviderGraph.Proofs.Effect.Execution
import ProviderGraph.Proofs.Finalization.PropertiesSideBySide

/-!
# Finalization goes unnoticed

What could be found of a provider before a property was finalized is found afterwards, unless it
comes to a property that held nothing (`finalization_goes_unnoticed`): this could be read without a
scope, and what it keeps cannot (`finalization_takes_a_scope`).
-/

namespace ProviderGraph

variable {R : Region} {m a b n : Machine} {p p' : Provider} {r : PropertyRef}

/-- What was found is found again, unless the question is hindered. -/
theorem KeepsUp.ends {α : Type} {x y : Attempt α} {q : Query} {D : Identity → Prop} {T : α → Prop}
    (h : KeepsUp m x a y b (m.Found D T a b)) (hy : ∀ q' k, y.run.Raises b q' k → q' = q ∧ k = b)
    {v : α} {o : Machine} (hrun : x.run.run engine a = some (.ok v, o)) :
    ∃ w o', y.run.run engine b = some (w, o') ∧
      (w = .ok v ∨ ∃ f, w = .error f ∧ m.Hinders q b f) := by
  rcases h v o hrun with ⟨w, o', hrun', hv⟩ | ⟨f, o', hrun', q', k, hraises, hf⟩
  · exact ⟨.ok w, o', hrun', .inl (congrArg Except.ok hv.eq)⟩
  · obtain ⟨rfl, rfl⟩ := hy q' k hraises
    exact ⟨.error f, o', hrun', .inr ⟨f, rfl, hf⟩⟩

section Graph

variable (hR : R.Computes) (hS : R.Steady) (hm : m.Minted)
  (hsettled : ∀ i, (m.property i).Settled) (hg : m.Twin R m)

include hR hS hm hsettled hg

/-- Answers keep up everywhere in the graph. The induction is on the scopes that can still be
opened, since the graph may have cycles. -/
theorem Machine.Abreast.answers (h : m.Abreast a p b p')
    (hp : (p.blur m.supply).Twin R (p.blur m.supply)) : m.Answers a p b p' := by
  generalize hroom : a.stack.room = room
  induction room using Nat.strongRecOn generalizing a p b p' with
  | _ room ih =>
    have inside {a : Machine} {p : Provider} {b : Machine} {p' : Provider}
        (hlt : a.stack.room < room) (h : m.Abreast a p b p')
        (hp : (p.blur m.supply).Twin R (p.blur m.supply)) : m.Answers a p b p' :=
      ih _ hlt h hp rfl
    have hk := Nat.le_of_eq hroom
    cases p with
    | fixed i x => exact .fixed h
    | undefined i type path => exact .undefined h
    | changing i type node calls =>
      cases hp with
      | changing _ _ _ hl => exact .changing (hS.calls hR hl) h
    | map i base f type =>
      cases hp with
      | map _ _ hbase hf => exact .map inside hk h hbase hf
    | flatMap i base choice type =>
      cases hp with
      | flatMap _ _ hbase hc => exact .flatMap inside hk hm hg h hbase hc
    | orElse i left right =>
      cases hp with
      | orElse _ hleft hright => exact .orElse inside hk h hleft hright
    | withEffect i inner e =>
      cases hp with
      | withEffect _ _ hinner => exact .withEffect inside hk h hinner
    | named i inner name =>
      cases hp with
      | named _ _ hinner => exact .named inside hk h hinner
    | property r =>
      obtain rfl := Provider.eq_property_of_blur h.looks
      cases hp with
      | property hr => exact .property inside hm hg hr h hk (hsettled r.id)
    | custom => cases hp

/-- A finalization finalizes properties, each with what the graph determines. -/
theorem Machine.matured_of_finalize (hr : R.property r.id) (hold : r.id < m.supply)
    (hfin : engine (.finalize r) m = some (.ok (), n)) : m.Matured n := by
  cases hopen : (m.property r.id).finalized with
  | true =>
    cases (run_evalFinalize_of_finalized hopen).symm.trans hfin
    exact .refl m
  | false =>
    have hself : m.Abreast m (.property r) m (.property r) :=
      .self (.start (.refl m) hold hm.frames)
    have hrun := (Eval.run_ask engine m (.finalize r)).trans hfin
    have inside {a b : Machine} {p p' : Provider} (h : m.Abreast a p b p')
        (hp : (p.blur m.supply).Twin R (p.blur m.supply)) : m.Answers a p b p' :=
      h.answers hR hS hm hsettled hg hp
    exact ((KeepsUp.finalizes (fun _ => inside) hm hg hr hself (Nat.le_refl _) hopen).of_self
      hrun).left.matured

/-- After a property was finalized without fault, each reading of a provider that found a value
before finds the same one, with the same effects or the same missing path, and its producers are the
same. An answer fails only if it comes to a property that held neither a value nor a convention
before, and is finalized now, and whose scope cannot be opened. -/
theorem finalization_goes_unnoticed (hr : R.property r.id) (hold : r.id < m.supply)
    (hfin : engine (.finalize r) m = some (.ok (), n)) (hp : p.Twin R p)
    (hminted : p.Minted m.supply) {s : ScopeStack} (hs : ∀ o ∈ s.frames, o.id < m.supply) :
    (∀ c v o, (Ask.value p c).run.run engine { m with stack := s } = some (.ok v, o) →
      ∃ x o', (Ask.value p c).run.run engine { n with stack := s } = some (x, o') ∧
        (x = .ok v ∨ ∃ f, x = .error f ∧
          m.Hinders (.ownValue p c) { n with stack := s } f)) ∧
    ∀ t o, (Ask.producer p).run.run engine { m with stack := s } = some (.ok t, o) →
      ∃ x o', (Ask.producer p).run.run engine { n with stack := s } = some (x, o') ∧
        (x = .ok t ∨ ∃ f, x = .error f ∧ m.Hinders (.producer p) { n with stack := s } f) := by
  have hn := Machine.matured_of_finalize hR hS hm hsettled hg hr hold hfin
  have hstands {k : Machine} (hk : m.Matured k) : p.Stands m { k with stack := s } :=
    .start (hk.stack s) hminted hs
  have h : m.Abreast { m with stack := s } p { n with stack := s } p :=
    { left := hstands (.refl m), right := hstands hn, final := ?final, looks := rfl, scopes := rfl }
  case final =>
    intro i hi
    rcases hn.property i with heq | ⟨q, w, t, hi'⟩
    · exact (congrArg Property.finalized heq).trans hi
    · exact hi'.final
  have hanswers := h.answers hR hS hm hsettled hg (hp.blur m.supply)
  refine ⟨fun c v o hrun => ?_, fun t o hrun => ?_⟩
  · exact (hanswers.value c).ends (fun _ _ => Eval.raises_value.mp) hrun
  · exact hanswers.producer.ends (fun _ _ => Eval.raises_ask.mp) hrun

end Graph

/-! ### Fixed graphs -/

theorem effectfulMachine_settled (i : Identity) : (effectfulMachine.property i).Settled := by
  by_cases hi : i = 0
  · subst hi
    exact ⟨(nomatch ·), fun _ => rfl⟩
  · rw [effectfulMachine, Machine.property_setProperty_of_ne _ hi]
    exact Property.settled_blank

/-- The effects behind a property are found again when it keeps its value. -/
theorem finalization_goes_unnoticed_effectful :
    effectfulRegion.Computes ∧ effectfulRegion.Steady ∧ effectfulMachine.Minted ∧
    (∀ i, (effectfulMachine.property i).Settled) ∧
    effectfulMachine.Twin effectfulRegion effectfulMachine ∧
    effectful.Twin effectfulRegion effectful ∧ effectful.Minted effectfulMachine.supply ∧
    ∃ n, engine (.finalize ⟨0, .int, some "p"⟩) effectfulMachine = some (.ok (), n) ∧
      (∃ v o o', v.delivery = some (.int 2, chosenDeeds ++ [(.record "last", .int 2)]) ∧
        (Ask.value effectful .strict).run.run engine effectfulMachine = some (.ok v, o) ∧
        (Ask.value effectful .strict).run.run engine n = some (.ok v, o')) ∧
      ∃ o o', (Ask.producer effectful).run.run engine effectfulMachine = some (.ok .none, o) ∧
        (Ask.producer effectful).run.run engine n = some (.ok .none, o') := by
  refine ⟨effectfulRegion_computes, effectfulRegion_steady, effectfulMachine_minted,
    effectfulMachine_settled, effectfulMachine_twin, effectful_twin, effectful_minted, ?_⟩
  have hruns : ∃ n v o w o' t k t' k',
      engine (.finalize ⟨0, .int, some "p"⟩) effectfulMachine = some (.ok (), n) ∧
      v.delivery = some (.int 2, chosenDeeds ++ [(.record "last", .int 2)]) ∧
      (Ask.value effectful .strict).run.run engine effectfulMachine = some (.ok v, o) ∧
      (Ask.value effectful .strict).run.run engine n = some (.ok w, o') ∧
      t = .none ∧ (Ask.producer effectful).run.run engine effectfulMachine = some (.ok t, k) ∧
      (Ask.producer effectful).run.run engine n = some (.ok t', k') ∧
      n.stack = effectfulMachine.stack :=
    ⟨_, _, _, _, _, _, _, _, _, engine_eq_some_iff.mpr ⟨9, rfl⟩, rfl,
      Eval.run_engine_of_answer 9 rfl, Eval.run_engine_of_answer 9 rfl, rfl, Eval.run_engine_of_answer 9 rfl,
      Eval.run_engine_of_answer 9 rfl, rfl⟩
  obtain ⟨n, v, o, w, o', t, k, t', k', hfin, hv, hbefore, hafter, rfl, hproducer, hproducer',
    hs⟩ := hruns
  obtain ⟨hvalues, hproducers⟩ := finalization_goes_unnoticed effectfulRegion_computes
    effectfulRegion_steady effectfulMachine_minted effectfulMachine_settled effectfulMachine_twin
    (r := ⟨0, .int, some "p"⟩) rfl (Nat.succ_pos 5) hfin effectful_twin effectful_minted
    effectfulMachine_minted.frames
  rw [show { n with stack := effectfulMachine.stack } = n by rw [← hs]] at hvalues hproducers
  obtain ⟨x, _, hvalue, hx⟩ := hvalues .strict v o hbefore
  obtain ⟨y, _, hagain, hy⟩ := hproducers .none k hproducer
  cases hafter.symm.trans hvalue
  cases hproducer'.symm.trans hagain
  rcases hx with hx | ⟨f, hx, -⟩
  · rcases hy with hy | ⟨f, hy, -⟩
    · exact ⟨n, hfin, ⟨v, o, o', hv, hbefore, hx ▸ hafter⟩, k, k', hproducer, hy ▸ hproducer'⟩
    · cases hy
  · cases hx

/-- A map of a property that holds nothing, where one scope may be open at a time. -/
def mappedUnsetSession : List Step :=
  [.newProperty "q" .int none,
    .provider (.map (.property "q") (.compute fun x => .ok (some x)) .int) (.keep "p")]

def mappedUnsetMachine : Machine :=
  (Session.played 9 mappedUnsetSession (.fresh 1)).getD (.fresh 1)

/-- To read a property that keeps no value takes a scope, though to read it before took none. -/
theorem finalization_takes_a_scope :
    mappedUnsetMachine.Reached ∧
    ∃ p n o o', mappedUnsetMachine.providerRegisters.find? "p" = some p ∧
      p.Twin ⟨(· = 0), fun _ => False, fun _ => False, fun _ _ => False⟩ p ∧
      engine (.finalize ⟨0, .int, none⟩) mappedUnsetMachine = some (.ok (), n) ∧
      (Ask.value p .lenient).run.run engine mappedUnsetMachine = some (.ok (.missing []), o) ∧
      (Ask.value p .lenient).run.run engine n = some (.error (.tooDeep 2 1), o') := by
  refine ⟨(Machine.Reached.fresh 1).played 9 mappedUnsetSession rfl, ?_⟩
  refine ⟨_, _, _, _, rfl, .map _ _ (.property rfl) (.compute _), engine_eq_some_iff.mpr ⟨9, rfl⟩,
    Eval.run_engine_of_answer 9 rfl, Eval.run_engine_of_answer 9 rfl⟩

end ProviderGraph
