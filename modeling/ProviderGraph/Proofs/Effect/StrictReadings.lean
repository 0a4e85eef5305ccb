import ProviderGraph.Proofs.Effect.Rereading

/-!
# Strict readings

A strict reading of a graph whose code computes leaves the machine as it was but for new identities,
counted calls and finalized properties, and the finalized properties keep what they deliver.
`Proceeds` says so of a computation. It always ends, in a fault where the graph has a cycle.
-/

namespace ProviderGraph

open Provider (MayLookLike)

variable {R : Region} {m m₁ n : Machine} {c : Reading} {p q : Provider} {s t : ScopeStack}

theorem Provider.twin_of_kept? {w : Outcome} (h : p.kept? = some w) : p.Twin R p := by
  rcases kept?_eq_some_iff.mp h with
    ⟨i, x, rfl, rfl⟩ | ⟨i, j, x, e, rfl, rfl⟩ | ⟨i, type, path, rfl, rfl⟩
  · exact .fixed i x
  · exact .withEffect i e (.fixed j x)
  · exact .undefined i type path

/-! ### Machines that were read -/

namespace Machine.Consulted

theorem refl (m : Machine) : m.Consulted m := ⟨Nat.le_refl _, rfl, fun _ => .inl rfl⟩

theorem evolves (h : m.Consulted m₁) (hn : m₁.Evolves n) : m.Consulted n where
  supply_le := Nat.le_trans h.supply_le hn.supply_le
  eq := by
    rw [hn.eq, h.eq]
  property i := by
    rw [hn.property_eq]
    refine (h.property i).imp_right fun ⟨hmust, q, w, hkeeps, hq, hd⟩ => ?_
    exact ⟨hmust, q, w, hkeeps, hq.mono hn.supply_le, hd⟩

theorem stack (h : m.Consulted n) (s : ScopeStack) : m.Consulted { n with stack := s } :=
  h.evolves ((Machine.Evolves.refl n).stack s)

theorem sameRegisters (h : m.Consulted n) : m.SameRegisters n where
  supply_le := h.supply_le
  providerRegisters_eq := by rw [h.eq]
  propertyRegisters_eq := by rw [h.eq]

/-- The graph stays in its region. -/
theorem twin (h : m.Consulted n) (hg : m.Twin R m) : n.Twin R n where
  effective i hi := by
    rcases h.property i with heq | ⟨-, q, w, hkeeps, -, -⟩
    · rw [heq]
      exact hg.effective i hi
    · rw [hkeeps.effective]
      exact .some (Provider.twin_of_kept? hkeeps.kept)
  providers name hname := by
    rw [h.sameRegisters.providerRegisters_eq]
    exact hg.providers name hname
  properties name hname := by
    rw [h.sameRegisters.propertyRegisters_eq]
    exact hg.properties name hname

/-- What a property reads from delivers what the property does. -/
theorem delivers (h : m.Consulted n) {r : PropertyRef}
    (hq : (n.property r.id).effective = some q) {d : Delivery} (hd : q.Delivers m d) :
    (Provider.property r).Delivers m d := by
  rcases h.property r.id with heq | ⟨-, q', w, hkeeps, -, hw⟩
  · exact .property (heq ▸ hq) hd
  · obtain rfl := Option.some.inj (hkeeps.effective.symm.trans hq)
    rw [hd.eq_of_kept? hkeeps.kept]
    exact hw r rfl

/-- What a property holds after readings has identities that were handed out. -/
theorem minted (h : m.Consulted n) (hm : m.Minted) {i : Identity}
    (hq : (n.property i).effective = some q) : q.Minted n.supply := by
  rcases h.property i with heq | ⟨-, q', w, hkeeps, hq', -⟩
  · exact (hm.effective i q (heq ▸ hq)).mono h.supply_le
  · obtain rfl := Option.some.inj (hkeeps.effective.symm.trans hq)
    exact hq'

/-- A property that is to be finalized is as it was. -/
theorem property_eq (h : m.Consulted n) {i : Identity}
    (hi : (n.property i).mustFinalize .strict = true) : n.property i = m.property i := by
  rcases h.property i with heq | ⟨-, q, w, hkeeps, -, -⟩
  · exact heq
  · simp [Property.mustFinalize, hkeeps.finalized] at hi

/-- What holds nothing delivers nothing. -/
theorem unset (h : m.Consulted n) {r : PropertyRef}
    (hq : (n.property r.id).effective = none) : (Provider.property r).Delivers m none := by
  rcases h.property r.id with heq | ⟨-, q', w, hkeeps, -, -⟩
  · exact .unset (heq ▸ hq)
  · cases hkeeps.effective.symm.trans hq

/-- A property is finalized with what it delivers, unless another value was kept first. -/
theorem commit (h : m.Consulted n) {i : Identity}
    (hi : (m.property i).mustFinalize .strict = true) {w : Outcome} (hkept : p.kept? = some w)
    (hp : p.Minted n.supply) (t : Producer)
    (hw : ∀ r : PropertyRef, r.id = i → (Provider.property r).Delivers m w.delivery) :
    m.Consulted (n.setProperty i ((n.property i).commit p t)) where
  supply_le := h.supply_le
  eq := by
    rw [h.eq]
    rfl
  property j := by
    by_cases hj : j = i
    · subst hj
      rw [Machine.property_setProperty_self]
      cases hf : (n.property j).finalized with
      | true =>
        rw [Property.commit_of_finalized hf]
        exact h.property j
      | false => exact .inr ⟨hi, p, w, Property.keeps_commit hf hkept, hp, hw⟩
    · rw [Machine.property_setProperty_of_ne _ hj]
      exact h.property j

theorem ripens_commit (h : m.Consulted n) {i : Identity}
    (hi : (m.property i).mustFinalize .strict = true) (t : Producer) :
    n.Ripens (n.setProperty i ((n.property i).commit p t)) where
  toSameRegisters := ⟨Nat.le_refl _, rfl, rfl⟩
  property_eq {j} hj := by
    by_cases hji : j = i
    · subst hji
      rw [Machine.property_setProperty_self]
      rcases h.property j with heq | ⟨-, q, w, hkeeps, -, -⟩
      · rw [heq, hi] at hj
        cases hj
      · exact Property.commit_of_finalized hkeeps.finalized _ _
    · exact Machine.property_setProperty_of_ne _ hji _

end Machine.Consulted

/-! ### Computations that read -/

/-- The computation ends on a machine that was only read, with the scopes open that were open, and
what it gives has the property. -/
def Proceeds {ε α : Type} (m : Machine) (x : ExceptT ε Eval α) (m₁ : Machine)
    (P : Machine → α → Prop) : Prop :=
  ∃ r n, x.run.run engine m₁ = some (r, n) ∧ m.Consulted n ∧ m₁.Ripens n ∧ n.stack = m₁.stack ∧
    ∀ a, r = .ok a → P n a

namespace Proceeds

variable {ε α β : Type} {P : Machine → α → Prop} {Q : Machine → β → Prop}

theorem pure {a : α} (hm : m.Consulted m₁) (h : P m₁ a) :
    Proceeds m (Pure.pure a : ExceptT ε Eval α) m₁ P :=
  ⟨.ok a, m₁, rfl, hm, .refl m₁, rfl, fun _ ha => Except.ok.inj ha ▸ h⟩

theorem throw (hm : m.Consulted m₁) (e : ε) :
    Proceeds m (MonadExcept.throw e : ExceptT ε Eval α) m₁ P :=
  ⟨.error e, m₁, rfl, hm, .refl m₁, rfl, fun _ ha => nomatch ha⟩

theorem bind {x : ExceptT ε Eval α} {f : α → ExceptT ε Eval β} (hx : Proceeds m x m₁ P)
    (hf : ∀ a n, m.Consulted n → m₁.Ripens n → n.stack = m₁.stack → P n a →
      Proceeds m (f a) n Q) :
    Proceeds m (x >>= f) m₁ Q := by
  obtain ⟨r, n, hrun, hn, hm₁, hs, hP⟩ := hx
  cases r with
  | ok a =>
    obtain ⟨r, o, hrun', ho, hn', hs', hQ⟩ := hf a n hn hm₁ hs (hP a rfl)
    exact ⟨r, o, (Eval.run_bind_ok hrun f).trans hrun', ho, hm₁.trans hn', hs'.trans hs, hQ⟩
  | error e => exact ⟨.error e, n, Eval.run_bind_error hrun f, hn, hm₁, hs, fun _ ha => nomatch ha⟩

/-- A part that cannot fail. -/
theorem lift_bind {x : Eval α} {a : α} {f : α → ExceptT ε Eval β}
    (hx : x.run engine m₁ = some (a, n)) (hn : m₁.Evolves n) (hs : n.stack = m₁.stack)
    (hf : Proceeds m (f a) n Q) :
    Proceeds m ((liftM x : ExceptT ε Eval α) >>= f) m₁ Q := by
  obtain ⟨r, o, hrun, ho, hno, hs', hQ⟩ := hf
  refine ⟨r, o, ?_, ho, hn.ripens.trans hno, hs'.trans hs, hQ⟩
  rw [Eval.run_lift_bind, Eval.run_bind_of hx]
  exact hrun

theorem property_bind {i : Identity} {f : Property → ExceptT ε Eval β}
    (hf : Proceeds m (f (m₁.property i)) m₁ Q) :
    Proceeds m ((liftM (Eval.property i) : ExceptT ε Eval Property) >>= f) m₁ Q :=
  lift_bind rfl (.refl m₁) rfl hf

theorem imp {x : ExceptT ε Eval α} {P' : Machine → α → Prop} (hx : Proceeds m x m₁ P)
    (h : ∀ n a, m₁.Ripens n → P n a → P' n a) : Proceeds m x m₁ P' := by
  obtain ⟨r, n, hrun, hn, hm₁, hs, hP⟩ := hx
  exact ⟨r, n, hrun, hn, hm₁, hs, fun a ha => h n a hm₁ (hP a ha)⟩

/-- What is asked for is found by its rule. -/
theorem rule {x y : ExceptT ε Eval α} (hy : y.run.run engine m₁ = x.run.run engine m₁)
    (hx : Proceeds m x m₁ P) : Proceeds m y m₁ P := by
  obtain ⟨r, n, hrun, h⟩ := hx
  exact ⟨r, n, hy.trans hrun, h⟩

theorem within {o : Owner} {x : Attempt α} {P : ScopeStack → Machine → α → Prop}
    {Q : Machine → α → Prop} (hm : m.Consulted m₁)
    (hx : ∀ t, m₁.stack.enter o = .ok t → Proceeds m x { m₁ with stack := t } (P t))
    (hQ : ∀ t n a, m₁.stack.enter o = .ok t → P t n a → Q { n with stack := m₁.stack } a) :
    Proceeds m (within o x) m₁ Q := by
  cases ht : m₁.stack.enter o with
  | error f =>
    exact ⟨.error f, m₁, Eval.run_within_error ht rfl, hm, .refl m₁, rfl, fun _ ha => nomatch ha⟩
  | ok t =>
    obtain ⟨r, n, hrun, hn, hm₁, hs, hP⟩ := hx t ht
    have hevolves := (Machine.Evolves.refl n).stack m₁.stack
    refine ⟨r, { n with stack := m₁.stack }, Eval.run_within_of_stack ht hrun hs, hn.stack _, ?_,
      rfl, fun a ha => hQ t n a ht (hP a ha)⟩
    exact (((Machine.Evolves.refl m₁).stack t).ripens.trans hm₁).trans hevolves.ripens

/-- A rejection is told with the name of the culprit. -/
theorem settle {culprit : Eval String} {name : String} (hm : m.Consulted m₁)
    (hrun : culprit.run engine m₁ = some (name, n)) (hn : m₁.Evolves n) (hs : n.stack = m₁.stack)
    (r : Except Failure α) : Proceeds m (settle culprit r) m₁ fun _ a => r = .ok a := by
  match r with
  | .ok a => exact .pure hm rfl
  | .error (.fault f) => exact .throw hm f
  | .error (.rejected message) => exact .lift_bind hrun hn hs (.throw (hm.evolves hn) _)

end Proceeds

/-! ### Calls -/

/-- A failure of user code is not settled. -/
theorem run_settle_error {α : Type} {culprit : Eval String} {a : α} (failure : Failure) :
    (settle culprit (.error failure)).run.run engine m ≠ some (.ok a, n) := by
  intro h
  cases failure with
  | fault f => cases h
  | rejected message =>
    rw [settle, Eval.run_lift_bind, Eval.run_bind] at h
    obtain ⟨⟨name, o⟩, -, h⟩ := Option.bind_eq_some_iff.mp h
    cases h

/-- What a flat map goes on with looks like what is chosen at first. -/
theorem chosen_of_run_chooseNext (hm : m.Minted) (hreg : m.SameRegisters m₁) {choice : Recipe}
    (hc : choice.Pure) {type : PayloadType} {x : Payload} {e : Option Effect}
    (hrun : (chooseNext p choice type (.present x e)).run.run engine m₁ = some (.ok q, n)) :
    Provider.chosen m choice type x (SideEffect.boundTo x e) = .ok (q.blur m.supply) := by
  cases ht : m₁.stack.enter p.owner with
  | error f =>
    obtain ⟨a, o, hwithin, -⟩ := Eval.run_bindExcept_ok hrun
    exact nomatch (Eval.run_within_error ht rfl).symm.trans hwithin
  | ok t =>
    cases hchosen : Provider.chosen m choice type x (SideEffect.boundTo x e) with
    | ok q' =>
      obtain ⟨q'', o, hrun', -, -, hlooks⟩ := run_chooseNext_of_chosen hm hreg hc ht hchosen
      cases hrun'.symm.trans hrun
      rw [hlooks.blur_eq]
    | error failure =>
      obtain ⟨a, o, hwithin, hrest⟩ := Eval.run_bindExcept_ok hrun
      obtain ⟨q?, o', hsettle, -⟩ := Eval.run_bindExcept_ok hrest
      have hbuild : Agrees (Ask.build choice (some x)) { m₁ with stack := t }
          (choice.plan m (some x)) (MayLookLike m.supply m₁.supply) :=
        hc.agrees hm (hreg.trans ((Machine.Evolves.refl m₁).stack t).sameRegisters)
      obtain ⟨b, n', hrun', -, -, hsame⟩ := Agrees.withinLift ht hbuild
      cases hrun'.symm.trans hwithin
      rw [Provider.chosen] at hchosen
      generalize choice.plan m (some x) = plan at hsame hchosen
      cases hsame with
      | ok hsame =>
        cases hsame with
        | error failure => exact absurd hsettle (run_settle_error failure)
        | @ok _ q?' hlooks => cases q?' <;> cases hchosen

section Calls

variable (hg : m.Twin R m) (hm₁ : m.Consulted m₁) (hp : p.Twin R p)

include hg hm₁ hp

theorem Proceeds.settleText {α : Type} (r : Except Failure α) :
    Proceeds m (ProviderGraph.settle (Ask.text p) r) m₁ fun _ a => r = .ok a := by
  obtain ⟨a, -, j, hrun, -, -⟩ := hp.culprit (hm₁.twin hg) (s := m₁.stack) m₁.supply
  have hn : m₁.Evolves (m₁.moment m₁.stack (m₁.supply + j)) := ⟨Nat.le_add_right _ _, rfl⟩
  exact .settle hm₁ hrun hn rfl r

/-- A pure transform proceeds with the result of its function. -/
theorem Proceeds.applyTransform {f : Closure} (hf : f.code.Pure) (x : Payload) :
    Proceeds m (applyTransform p f x) m₁ fun _ y => f.code.result f.held x = .ok y := by
  refine .bind (P := fun _ r => r = f.code.result f.held x)
    (.within (P := fun _ _ r => r = f.code.result f.held x) hm₁ (fun t ht => ?_)
      fun _ _ _ _ h => h) fun r n hn _ _ hr => ?_
  · exact ⟨.ok _, _, Eval.run_bind_of (hf.computes f.held x _) _, hm₁.stack t, .refl _, rfl,
      fun _ h => (Except.ok.inj h).symm⟩
  · rw [← hr]
    exact .settleText hg hn hp r

/-- A flat map proceeds with what its code chooses. -/
theorem Proceeds.chooseNext (hm : m.Minted) {choice : Recipe} (hc : choice.Twin R choice)
    (type : PayloadType) (x : Payload) (e : Option Effect) :
    Proceeds m (chooseNext p choice type (.present x e)) m₁ fun _ q => q.Twin R q ∧
      Provider.chosen m choice type x (SideEffect.boundTo x e) = .ok (q.blur m.supply) := by
  obtain ⟨r, r', j, hrun, hrun', hr⟩ :=
    hp.chooseNext (hm₁.twin hg) hc type (.present x e) (s := m₁.stack) m₁.supply
  cases hrun.symm.trans hrun'
  have hn : m₁.Evolves (m₁.moment m₁.stack (m₁.supply + j)) := ⟨Nat.le_add_right _ _, rfl⟩
  refine ⟨r, _, hrun, hm₁.evolves hn, hn.ripens, rfl, ?_⟩
  rintro q rfl
  cases hr with
  | ok hq => exact ⟨hq, chosen_of_run_chooseNext hm hm₁.sameRegisters hc.pure hrun⟩

end Calls

end ProviderGraph
