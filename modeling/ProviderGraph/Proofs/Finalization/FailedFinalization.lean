import ProviderGraph.Proofs.Property.SparedProperties

/-!
# Finalizations that fail

A finalization that fails leaves the property as it found it, whatever made it fail: the search for
the producers or the value, at any depth, in a circle of properties or at the depth limit
(`failed_finalization_changes_nothing`). So the property may be given another provider, and is then
finalized if the producers and the value of that one are found.
-/

namespace ProviderGraph

variable {m n k : Machine} {r : PropertyRef} {f : Fault} {q : Provider} {v : Outcome}

/-- What reproduces a value takes new identities only. -/
theorem run_toProvider (type : PayloadType) (v : Outcome) (m : Machine) :
    ∃ p i, ((Classification.ofValue v).toProvider type).run engine m =
      some (p, { m with supply := i }) ∧ p.kept? = some v := by
  match v with
  | .missing _ | .present _ none | .present _ (some _) => exact ⟨_, _, rfl, rfl⟩

/-- A finalization that finds the producers of the provider that is held, and then its value. -/
theorem run_computeFrozen_of_parts {t : Producer} {k₁ k₂ : Machine}
    (hproducer : (within (Provider.property r).owner (Ask.producer q)).run.run engine k =
      some (.ok t, k₁))
    (hvalue : (within (Provider.property r).owner (Ask.value q .strict)).run.run engine k₁ =
      some (.ok v, k₂)) :
    ∃ p i, (computeFrozen r (some q)).run.run engine k =
      some (.ok (p, t), { k₂ with supply := i }) ∧ p.kept? = some v := by
  obtain ⟨p, i, hp, hkept⟩ := run_toProvider r.type v k₂
  refine ⟨p, i, ?_, hkept⟩
  refine (Eval.run_bind_ok hproducer _).trans ((Eval.run_bind_ok hvalue _).trans ?_)
  rw [Eval.run_lift_bind, Eval.run_bind_of hp]
  rfl

/-- The property is finalized then, and keeps this value. -/
theorem finalize_of_parts {t : Producer} {k₁ k₂ : Machine} (hm : k.Holds [])
    (hspares : (Query.finalize r).Spares k r.id) (hopen : (k.property r.id).finalized = false)
    (heff : (k.property r.id).effective = some q)
    (hproducer : (within (Provider.property r).owner (Ask.producer q)).run.run engine k =
      some (.ok t, k₁))
    (hvalue : (within (Provider.property r).owner (Ask.value q .strict)).run.run engine k₁ =
      some (.ok v, k₂)) :
    ∃ p n, engine (.finalize r) k = some (.ok (), n) ∧
      n.property r.id = (k.property r.id).commit p t ∧ p.kept? = some v := by
  obtain ⟨p, i, hfrozen, hkept⟩ := run_computeFrozen_of_parts hproducer hvalue
  rw [← heff] at hfrozen
  have hproperty := hspares.property_of_computeFrozen hm hopen hfrozen
  refine ⟨p, _, (run_evalFinalize_of_open hopen).trans (Eval.run_bind_ok hfrozen _), ?_, hkept⟩
  exact (Machine.property_setProperty_self _ _ _).trans (congrArg (·.commit p t) hproperty)

/-- A finalization that fails changes nothing of the property, if user code spares the property. A
strict reading that has to finalize it fails with the same fault. The property takes the same
changes as before; and given a provider whose producers can be found, and which then evaluates, in
the scope of the property, it is finalized and keeps that value. -/
theorem failed_finalization_changes_nothing (hm : m.Holds [])
    (hspares : (Query.finalize r).Spares m r.id)
    (hfails : engine (.finalize r) m = some (.error f, n)) :
    n.property r.id = m.property r.id ∧
    ((m.property r.id).mustFinalize .strict = true →
      (Ask.value (.property r) .strict).run.run engine m = some (.error f, n)) ∧
    (∀ g, (changeProperty r g).run.run engine n =
      if (m.property r.id).changesDisallowed then some (.error (.changesDisallowed r.label), n)
      else some (.ok (), n.setProperty r.id (g (m.property r.id)))) ∧
    ∀ (k : Machine) (q : Provider), k.property r.id = (m.property r.id).setValue q →
      k.Holds [] → (Query.finalize r).Spares k r.id →
      ∀ t k₁ v k₂,
        (within (Provider.property r).owner (Ask.producer q)).run.run engine k = some (.ok t, k₁) →
        (within (Provider.property r).owner (Ask.value q .strict)).run.run engine k₁ =
          some (.ok v, k₂) →
        ∃ p n', engine (.finalize r) k = some (.ok (), n') ∧ (n'.property r.id).Keeps p v ∧
          n'.Gives r v ((Provider.property r).owner :: p.keptScopes) := by
  have hopen := open_of_finalize_error hfails
  have hsame : n.property r.id = m.property r.id :=
    hspares.property_of_computeFrozen hm hopen (run_computeFrozen_of_finalize_error hfails)
  refine ⟨hsame, fun hmust => run_value_of_finalize_error hmust hfails, fun g => ?_, ?_⟩
  · rw [run_changeProperty, hsame, hopen, if_neg Bool.false_ne_true]
  · intro k q hk hkholds hkspares t k₁ v k₂ hproducer hvalue
    have hkopen : (k.property r.id).finalized = false := hk ▸ hopen
    have hkeff : (k.property r.id).effective = some q := by
      rw [hk]
      rfl
    obtain ⟨p, n', hfin, hn', hkept⟩ :=
      finalize_of_parts hkholds hkspares hkopen hkeff hproducer hvalue
    have hkeeps : (n'.property r.id).Keeps p v := hn' ▸ Property.keeps_commit hkopen hkept
    exact ⟨p, n', hfin, hkeeps, Machine.gives_of_keeps hkeeps⟩

/-! ### Fixed sessions -/

/-- A session with a property that reads from a map of itself. -/
def circularSession : List Step :=
  [.newProperty "p" .int none,
    .setProvider "p" (.map (.property "p") (.compute fun x => .ok (some x)) .int)]

def circularMachine : Machine := (Session.played 9 circularSession (.fresh 8)).getD (.fresh 8)

/-- The session continued: the property fails to be finalized, and is then set to what a recipe
describes. -/
def mendingSession (c : Recipe) : List Step :=
  circularSession ++ [.property "p" .finalize, .setProvider "p" c]

def mendedMachine (c : Recipe) : Machine :=
  (Session.played 9 (mendingSession c) (.fresh 8)).getD (.fresh 8)

theorem failed_finalization_changes_nothing_circularMachine :
    ∃ n p n', engine (.finalize ⟨0, .int, none⟩) circularMachine =
        some (.error (.circular ["property", "map", "property"]), n) ∧
      n.property 0 = circularMachine.property 0 ∧
      engine (.finalize ⟨0, .int, none⟩) (mendedMachine (.fixed (.int 5))) = some (.ok (), n') ∧
      (n'.property 0).Keeps p (.present (.int 5) none) := by
  have hfails : ∃ n, engine (.finalize ⟨0, .int, none⟩) circularMachine =
      some (.error (.circular ["property", "map", "property"]), n) :=
    ⟨_, engine_eq_some_iff.mpr ⟨9, rfl⟩⟩
  obtain ⟨n, hfails⟩ := hfails
  obtain ⟨hsame, -, -, hretry⟩ := failed_finalization_changes_nothing
    (.of_scopes_eq_nil rfl) (.of_trail 9 rfl rfl) hfails
  obtain ⟨p, n', hfin, hkeeps, -⟩ := hretry (mendedMachine (.fixed (.int 5))) (.fixed 2 (.int 5))
    rfl (.of_scopes_eq_nil rfl) (.of_trail 9 rfl rfl) .none _ (.present (.int 5) none) _
    (Eval.run_engine_of_answer 9 rfl) (Eval.run_engine_of_answer 9 rfl)
  exact ⟨n, p, n', hfails, hsame, hfin, hkeeps⟩

/-- A provider whose value is at hand, and which falls back on the property "p". -/
def selfFallback : Recipe := .orElse (.fixed (.int 1)) (.property "p")

/-- After a finalization has failed the property is set to a provider that evaluates, also as the
value of the property; but for a fallback that it has no need of it has no producers, and so the
next finalization fails as well. -/
theorem mended_property_is_not_finalized :
    circularMachine.Reached ∧ circularMachine.Holds [] ∧
      (Query.finalize ⟨0, .int, none⟩).Spares circularMachine 0 ∧
      (∃ n, engine (.finalize ⟨0, .int, none⟩) circularMachine =
        some (.error (.circular ["property", "map", "property"]), n)) ∧
    ∃ q, let k := mendedMachine selfFallback
      k.Reached ∧ k.property 0 = (circularMachine.property 0).setValue q ∧
      (Query.finalize ⟨0, .int, none⟩).Spares k 0 ∧
      (∃ n, (Ask.value q .strict).run.run engine k = some (.ok (.present (.int 1) none), n)) ∧
      (∃ n, (Ask.value (.property ⟨0, .int, none⟩) .strict).run.run engine k =
        some (.ok (.present (.int 1) none), n)) ∧
      ∃ n, engine (.finalize ⟨0, .int, none⟩) k =
        some (.error (.circular ["property", "or", "property"]), n) := by
  refine ⟨(Machine.Reached.fresh 8).played 9 circularSession rfl, .of_scopes_eq_nil rfl,
    .of_trail 9 rfl rfl, ⟨_, engine_eq_some_iff.mpr ⟨9, rfl⟩⟩,
    .orElse 3 (.fixed 2 (.int 1)) (.property ⟨0, .int, none⟩), ?_⟩
  exact ⟨(Machine.Reached.fresh 8).played 9 (mendingSession selfFallback) rfl, rfl, .of_trail 9 rfl rfl,
    ⟨_, Eval.run_engine_of_answer 9 rfl⟩, ⟨_, Eval.run_engine_of_answer 9 rfl⟩,
    ⟨_, engine_eq_some_iff.mpr ⟨9, rfl⟩⟩⟩

end ProviderGraph
