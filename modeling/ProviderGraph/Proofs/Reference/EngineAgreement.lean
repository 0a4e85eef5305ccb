import ProviderGraph.Proofs.Reference.FittingProviders
import ProviderGraph.Proofs.Scope.Reentry

/-!
# The engine agrees with the engine at rest

Whatever is asked of a plain provider, on a machine that evolved from the one at rest, is answered,
and is answered as at rest. The relation is kept by every rule: each part of a rule opens the same
scopes, and what it builds is new.
-/

namespace ProviderGraph

variable {m m₁ n : Machine} {c : Reading} {p q q' : Provider} {o : Owner} {s t : ScopeStack}

open Provider (LooksLike MayLookLike)

/-- There is less room in a scope. -/
theorem ScopeStack.room_lt_of_enter (h : s.enter o = .ok t) : t.room < s.room := by
  obtain ⟨-, hd, rfl⟩ := enter_eq_ok_iff.mp h
  simp only [room, depth, List.length_cons] at hd ⊢
  omega

/-! ### Texts -/

/-- The body runs in the scope of the owner, which is closed when it ends. -/
theorem Eval.run_within_eq {α : Type} {refused : Fault → Eval α} {body : Eval α}
    (ht : m₁.stack.enter o = .ok t) :
    (Eval.within o refused body).run engine m₁ = (body.run engine { m₁ with stack := t }).map
      fun r => (r.1, { r.2 with stack := r.2.stack.leave o.id }) := by
  change (Eval.inScope o body _).run engine m₁ = _
  simp only [run, ht]
  cases body.run engine { m₁ with stack := t } <;> rfl

/-- A body that ends with the scopes open that it found. -/
theorem Eval.run_within_of_stack {α : Type} {refused : Fault → Eval α} {body : Eval α} {a : α}
    (ht : m₁.stack.enter o = .ok t) (hb : body.run engine { m₁ with stack := t } = some (a, n))
    (hn : n.stack = t) :
    (Eval.within o refused body).run engine m₁ = some (a, { n with stack := m₁.stack }) := by
  rw [run_within_eq ht, hb, Option.map_some, hn, ScopeStack.leave_of_enter _ _ ht]

/-- The run in the scope of an owner gives what its body gives, and leaves the machine as it is. -/
theorem Eval.run_within {α : Type} {refused : Fault → Eval α} {body : Eval α} {a : α}
    (hs : m₁.stack.enter o = .ok t) (hb : body.run engine { m₁ with stack := t } =
      some (a, { m₁ with stack := t })) :
    (Eval.within o refused body).run engine m₁ = some (a, m₁) := by
  rw [run_within_eq hs, hb, Option.map_some, ScopeStack.leave_of_enter _ _ hs]

/-- Where a scope cannot be opened the refusal is what is run. -/
theorem Eval.run_within_error {α : Type} {refused : Fault → Eval α} {body : Eval α} {f : Fault}
    {r : Option (α × Machine)} (hs : m₁.stack.enter o = .error f)
    (hf : (refused f).run engine m₁ = r) :
    (Eval.within o refused body).run engine m₁ = r := by
  change (Eval.inScope o body _).run engine m₁ = _
  simpa only [run, hs] using hf

/-- A text leaves the machine as it is. -/
theorem Provider.Sits.engine_text (hm : m.Minted) (h : p.Sits m.supply m₁)
    (hprop : ∀ i, m₁.property i = m.property i) (label : String) :
    engine (.text p label) m₁ =
      some (m.text (p.blur m.supply) label (m₁.stack.blur m.supply), m₁) := by
  generalize hr : m₁.stack.room = r
  induction r using Nat.strongRecOn generalizing p m₁ label with
  | ind r ih =>
    rw [engine_eq_rule, rule, render]
    have henter : m.enter (m₁.stack.blur m.supply) ⟨(p.blur m.supply).id, label⟩ =
        (m₁.stack.enter ⟨p.id, label⟩).map (ScopeStack.blur m.supply) := by
      rw [h.id_blur]
      exact ScopeStack.enter_blur (o := ⟨p.id, label⟩) h.not_isOpen
    cases ht : m₁.stack.enter ⟨p.id, label⟩ with
    | error f =>
      rw [Machine.text_of_enter_error m (henter.trans (by rw [ht]; rfl))]
      exact Eval.run_within_error ht rfl
    | ok t =>
      rw [Machine.text_of_enter m (henter.trans (by rw [ht]; rfl))]
      refine Eval.run_within ht ?_
      have text {q : Provider} (hq : q.Sits m.supply { m₁ with stack := t }) :
          (Ask.text q).run engine { m₁ with stack := t } =
            some (m.text (q.blur m.supply) (q.blur m.supply).kind (t.blur m.supply),
              { m₁ with stack := t }) := by
        rw [Provider.kind_blur]
        exact (Eval.run_ask _ _ _).trans
          (ih _ (hr ▸ ScopeStack.room_lt_of_enter ht) hq hprop q.kind rfl)
      cases p with
      | fixed | undefined | named => rfl
      | changing i type node calls => cases node <;> rfl
      | map i base f type => exact Eval.run_bind_of (text (h.part rfl ht fun _ _ h => h.2)) _
      | flatMap i base choice type =>
        exact Eval.run_bind_of (text (h.part rfl ht fun _ _ h => h.2)) _
      | orElse i left right =>
        refine (Eval.run_bind_of (text (h.part rfl ht fun _ _ h => h.2.1)) _).trans ?_
        exact Eval.run_bind_of (text (h.part rfl ht fun _ _ h => h.2.2)) _
      | withEffect i inner e => exact text (h.part rfl ht fun _ _ h => h.2)
      | property r =>
        simp only [describe, Machine.describe_property, Provider.blur]
        cases r.name with
        | some name => rfl
        | none =>
          refine (Eval.run_bind_of (Eval.run_property _ _ _) _).trans ?_
          dsimp only
          rw [show ({ m₁ with stack := t } : Machine).property r.id = m.property r.id from
            hprop r.id]
          cases hq : (m.property r.id).effective with
          | none => rfl
          | some q =>
            have hmq := hm.effective _ _ hq
            have := text (q := q) (h.built rfl (Nat.le_refl _) ht hmq.placed)
            rw [hmq.blur_eq] at this
            exact Eval.run_bind_of this _
      | custom i form =>
        simp only [describe, Machine.describe, Provider.blur]
        cases form.kind <;> rfl

/-! ### Demands -/

/-- Pose the question that a demand stands for. -/
def Ask.demand (c : Reading) : (d : Demand) → Attempt d.Answer
  | .value p => Ask.ownValue p c
  | .presence p => Ask.presence p c
  | .producer p => Ask.producer p
  | .classification p => Ask.classification p

/-- A classification and what it looks like. -/
inductive Classification.LooksLike (k lo hi : Identity) :
    Classification → Classification → Prop where
  | fixed (x : Payload) (e : Option Effect) : LooksLike k lo hi (.fixed x e) (.fixed x e)
  | changing {p q : Provider} (h : p.LooksLike k lo hi q) :
    LooksLike k lo hi (.changing p) (.changing q)
  | missing (path : List String) : LooksLike k lo hi (.missing path) (.missing path)

/-- Answers that correspond to each other. Only a classification holds something new. -/
def Demand.Same (k lo hi : Identity) : (d : Demand) → d.Answer → (d.blur k).Answer → Prop
  | .value _, v, w => v = w
  | .presence _, b, b' => b = b'
  | .producer _, t, t' => t = t'
  | .classification _, x, y => x.LooksLike k lo hi y

/-- The demand is met on the machine `m₁` as it is at rest. -/
def Faithful (m : Machine) (c : Reading) (d : Demand) (m₁ : Machine) : Prop :=
  Agrees (Ask.demand c d) m₁ (m.atRest (d.blur m.supply) (m₁.stack.blur m.supply))
    fun hi => d.Same m.supply m₁.supply hi

namespace Agrees

variable {α β : Type} {R : Identity → α → β → Prop}

/-- A part that runs in the scope of an owner, if the scope can be opened. -/
theorem within {body : Attempt α} {r : ScopeStack → Except Fault β}
    (ho : o.id < m.supply ∨ n.stack.isOpen o.id = false)
    (hb : ∀ t, n.stack.enter o = .ok t →
      Agrees body { n with stack := t } (r (t.blur m.supply)) R) :
    Agrees (ProviderGraph.within o body) n
      (do r (← m.enter (n.stack.blur m.supply) (o.blur m.supply)))
      fun hi a b => (∃ t, n.stack.enter o = .ok t) ∧ R hi a b := by
  rw [ScopeStack.enter_blur ho]
  cases ht : n.stack.enter o with
  | error f =>
    exact ⟨.error f, n, Eval.run_within_error ht rfl, .refl n, rfl, .error f⟩
  | ok t =>
    obtain ⟨a, n', hrun, hn, hs, hr⟩ := hb t ht
    refine ⟨a, { n' with stack := n.stack }, Eval.run_within_of_stack ht hrun hs,
      .trans ((Machine.Evolves.refl n).stack t) (hn.stack _), rfl, ?_⟩
    change SameResult _ a (r (t.blur m.supply))
    generalize r (t.blur m.supply) = b at hr ⊢
    cases hr with
    | ok h => exact .ok ⟨⟨t, rfl⟩, h⟩
    | error e => exact .error e

/-- A part of user code that runs in the scope of an owner, with its failure as the result. -/
theorem withinLift {x : UserCode α} {r : Except Failure β} (ht : n.stack.enter o = .ok t)
    (hx : Agrees x { n with stack := t } r R) :
    Agrees (ProviderGraph.within o (ExceptT.lift x.run)) n (.ok r)
      fun hi a b => SameResult (R hi) a b := by
  obtain ⟨a, n', hrun, hn, hs, hr⟩ := hx
  have hlift : (ExceptT.lift x.run : Attempt (Except Failure α)).run.run engine
      { n with stack := t } = some (.ok a, n') := Eval.run_bind_of hrun _
  exact ⟨.ok a, { n' with stack := n.stack }, Eval.run_within_of_stack ht hlift hs,
    .trans ((Machine.Evolves.refl n).stack t) (hn.stack _), rfl, .ok hr⟩

/-- A failure is attributed to the provider that called the code. -/
theorem settle {culprit : Eval String} {name : String} {a : Except Failure α}
    {b : Except Failure β} (hc : culprit.run engine n = some (name, n))
    (h : SameResult (R n.supply) a b) :
    Agrees (ProviderGraph.settle culprit a) n (blame name b) R := by
  match h with
  | .ok h => exact .pure h
  | .error (.fault f) => exact .throw f
  | .error (.rejected message) => exact .lift_bind hc (.refl n) rfl (.throw _)

/-- What was chosen carries the effect of the value. -/
theorem wraps {lo : Identity} {q? q?' : Option Provider} (hk : m.SameRegisters n)
    (hlo : lo ≤ n.supply) (type : PayloadType) (x : Payload) (e : Option Effect) :
    MayLookLike m.supply lo n.supply q? q?' →
    Agrees (match q? with
      | some q => liftM (wrapEffect q (Value.present x e).boundEffect)
      | none => liftM (freshUndefined type []) : Attempt Provider) n
      (.ok (match q?' with
        | some q => q.withEffect? m (SideEffect.boundTo x e)
        | none => .undefined m.supply type []))
      (LooksLike m.supply lo) := by
  intro hq
  cases hq with
  | none =>
    refine ⟨_, _, rfl, .fresh n, rfl, .ok ⟨?_, .supply hlo⟩⟩
    simp [Provider.blur, hk.min_supply]
  | @some q q' hq =>
    cases e with
    | none => exact .pure hq
    | some e =>
      refine ⟨_, _, rfl, .fresh n, rfl, .ok ⟨?_, .supply hlo, hq.placed⟩⟩
      simp [Provider.blur, hk.min_supply, hq.blur_eq, Provider.withEffect?, SideEffect.boundTo]

end Agrees

/-! ### Classifications -/

section Classifications

variable {lo lo' hi hi' : Identity} {x y : Classification}

theorem Classification.LooksLike.mono {k : Identity} (h : x.LooksLike k lo hi y) (hlo : lo' ≤ lo)
    (hhi : hi ≤ hi') : x.LooksLike k lo' hi' y := by
  cases h with
  | fixed => exact .fixed _ _
  | changing h => exact .changing (h.mono hlo hhi)
  | missing => exact .missing _

variable (hk : m.Evolves n) (hlo : lo ≤ n.supply) (hx : x.LooksLike m.supply lo n.supply y)

include hk hlo hx

theorem Agrees.addEffect (e : Effect) :
    Agrees (liftM (x.addEffect e) : Attempt Classification) n
      (.ok (Provider.withEffectOn m e y)) (Classification.LooksLike m.supply lo) := by
  cases hx with
  | fixed => exact .pure (.fixed _ _)
  | missing => exact .pure (.missing _)
  | changing h =>
    refine ⟨_, _, rfl, .fresh n, rfl, .ok (.changing ⟨?_, .supply hlo, h.placed⟩)⟩
    simp [Provider.blur, hk.min_supply, h.blur_eq]

theorem Agrees.addName (name : String) :
    Agrees (liftM (x.addName name) : Attempt Classification) n
      (.ok (Provider.nameOn m name y)) (Classification.LooksLike m.supply lo) := by
  cases hx with
  | fixed => exact .pure (.fixed _ _)
  | missing => exact .pure (.missing _)
  | changing h =>
    refine ⟨_, _, rfl, .fresh n, rfl, .ok (.changing ⟨?_, .supply hlo, h.placed⟩)⟩
    simp [Provider.blur, hk.min_supply, h.blur_eq]

/-- The provider of a classification looks like that of what the classification looks like. -/
theorem Classification.LooksLike.run_toProvider (type : PayloadType) :
    ∃ q n', (x.toProvider type).run engine n = some (q, n') ∧ n.Evolves n' ∧
      n'.stack = n.stack ∧
      q.LooksLike m.supply lo n'.supply (Provider.ofClassification m type y) := by
  cases hx with
  | changing h => exact ⟨_, _, rfl, .refl n, rfl, h⟩
  | missing =>
    refine ⟨_, _, rfl, .fresh n, rfl, ?_, .supply hlo⟩
    simp [Provider.blur, hk.min_supply, Provider.ofClassification]
  | fixed x e =>
    cases e with
    | none =>
      refine ⟨_, _, rfl, .fresh n, rfl, ?_, .supply hlo⟩
      simp [Provider.blur, hk.min_supply, Provider.ofClassification, Provider.withEffect?]
    | some e =>
      refine ⟨_, _, rfl, .trans (.fresh n) (.fresh _), rfl, ?_,
        .supply (Nat.le_succ_of_le hlo), .supply hlo⟩
      simp [Provider.blur, hk.min_supply, Provider.ofClassification, Provider.withEffect?,
        Nat.le_succ_of_le hk.supply_le]

omit hx in
/-- A fallback between the providers of two classifications. -/
theorem Agrees.orElse {l l' r r' : Classification} {s t : PayloadType}
    (hl : l.LooksLike m.supply lo n.supply l') (hr : r.LooksLike m.supply lo n.supply r') :
    Agrees (do
        let p ← l.toProvider s
        let q ← r.toProvider t
        return .changing (.orElse (← Eval.identity) p q) : Attempt Classification) n
      (.ok (.changing (.orElse m.supply (Provider.ofClassification m s l')
        (Provider.ofClassification m t r')))) (Classification.LooksLike m.supply lo) := by
  obtain ⟨p, n₁, hrun, hn₁, hs₁, hp⟩ := hl.run_toProvider hk hlo s
  have hlo₁ := Nat.le_trans hlo hn₁.supply_le
  obtain ⟨q, n₂, hrun', hn₂, hs₂, hq⟩ :=
    (hr.mono (Nat.le_refl _) hn₁.supply_le).run_toProvider (hk.trans hn₁) hlo₁ t
  refine .lift_bind hrun hn₁ hs₁ (.lift_bind hrun' hn₂ hs₂ (.identity_bind ?_))
  refine .pure (.changing ⟨?_, .supply (Nat.le_trans hlo₁ hn₂.supply_le), ?_, hq.placed⟩)
  · simp [Provider.blur, (hk.trans (hn₁.trans hn₂)).min_supply, hp.blur_eq, hq.blur_eq]
  · exact hp.placed.mono (Nat.le_refl _) hn₂.supply_le

end Classifications

/-! ### Rules -/

section Rules

variable (hm : m.Minted) (h : p.Fits m c m₁)
  (ih : ∀ (c : Reading) (d : Demand) (n : Machine), n.stack.room < m₁.stack.room →
    d.provider.Fits m c n → Faithful m c d n)

include h ih

/-- A demand to a provider that fits inside the scope of `p`. -/
theorem Provider.Fits.asks {c' : Reading} {d : Demand} (hn : m₁.Evolves n)
    (hs : n.stack = m₁.stack) (culprit : String)
    (hd : ∀ t, n.stack.enter p.owner = .ok t → d.provider.Fits m c' { n with stack := t }) :
    Agrees (within p.owner (Ask.demand c' d)) n
      (blame culprit ((Agenda.demand (d.blur m.supply)).run
        (m.asked (p.blur m.supply).owner (m₁.stack.blur m.supply))))
      fun hi a b => (∃ t, n.stack.enter p.owner = .ok t) ∧ d.Same m.supply n.supply hi a b := by
  rw [blame_run_demand, h.owner_blur, ← hs]
  refine .within (h.later hn hs).not_isOpen fun t ht => ?_
  exact ih c' d _ (hs ▸ ScopeStack.room_lt_of_enter ht) (hd t ht)

/-- Asking for a value from inside the scope does what the demand does at rest. -/
theorem Provider.Fits.asksValue {c' : Reading} (hn : m₁.Evolves n) (hs : n.stack = m₁.stack)
    (culprit : String)
    (hq : ∀ t, n.stack.enter p.owner = .ok t → q.Fits m c' { n with stack := t }) :
    Agrees (within p.owner (Ask.value q c')) n
      (blame culprit ((Agenda.askValue (q.blur m.supply)).run
        (m.asked (p.blur m.supply).owner (m₁.stack.blur m.supply))))
      fun _ v w => (∃ t, n.stack.enter p.owner = .ok t) ∧ v = w := by
  rw [h.owner_blur, ← hs, blame_run_askValue]
  simp only [Machine.asked, bind_assoc]
  refine .within (h.later hn hs).not_isOpen fun t ht => ?_
  refine .bind (ih c' (.value q) _ (hs ▸ ScopeStack.room_lt_of_enter ht) (hq t ht))
    fun v w o _ _ _ hvw => ?_
  obtain rfl : v = w := hvw
  rw [Provider.declaredName_blur]
  exact .pure rfl

/-- The text of the provider, to which failures of its code are attributed. -/
abbrev Provider.culprit (m : Machine) (p : Provider) (s : ScopeStack) : String :=
  m.text (p.blur m.supply) (p.blur m.supply).kind (s.blur m.supply)

/-- The computation does what the agenda of the provider does at rest. -/
abbrev Provider.Meets {α β : Type} (m m₁ : Machine) (p : Provider) (x : Attempt α) (y : Agenda β)
    (R : Identity → α → β → Prop) : Prop :=
  Agrees x m₁ (blame (p.culprit m m₁.stack)
    (y.run (m.asked (p.blur m.supply).owner (m₁.stack.blur m.supply)))) R

omit ih in
include hm in
/-- The text of a provider that fits is the one shown at rest, and drawing it changes nothing. -/
theorem Provider.Fits.run_text (hn : m₁.Evolves n) (hs : n.stack = m₁.stack) :
    (Ask.text p).run engine n = some (p.culprit m m₁.stack, n) := by
  rw [Provider.culprit, Provider.kind_blur, ← hs]
  have hprop (i : Identity) := (h.evolves.trans hn).property_eq i
  exact (Eval.run_ask _ _ _).trans ((h.later hn hs).toSits.engine_text hm hprop p.kind)

omit ih in
include hm in
/-- User code that is called in the scope of the provider. -/
theorem Provider.Fits.calls {α β : Type} {R : Identity → α → β → Prop} {x : UserCode α}
    {r : Except Failure β} (hn : m₁.Evolves n) (hs : n.stack = m₁.stack)
    (ht : n.stack.enter p.owner = .ok t) (hx : Agrees x { n with stack := t } r R) :
    Agrees (within p.owner (ExceptT.lift x.run) >>= settle (Ask.text p)) n
      (blame (p.culprit m m₁.stack) r) R :=
  .bind (r := .ok r) (g := blame _) (.withinLift ht hx) fun _ _ _ ho hs' _ hab =>
    .settle (h.run_text hm (hn.trans ho) (hs'.trans hs)) hab

omit ih in
include hm in
/-- A pure transform gives what its function gives, and is blamed as at rest. -/
theorem Provider.Fits.applies {f : Closure} (hf : f.code.Pure) (x : Payload)
    (hn : m₁.Evolves n) (hs : n.stack = m₁.stack) (ht : n.stack.enter p.owner = .ok t) :
    Agrees (applyTransform p f x) n
      (blame (p.culprit m m₁.stack) (f.code.result f.held x)) fun _ y z => y = z :=
  h.calls hm hn hs ht (.action hf x)

omit ih in
include hm in
/-- The provider that a flat map goes on with is the one chosen at rest. -/
theorem Provider.Fits.chooses {choice : Recipe} (hc : choice.Pure) (type : PayloadType)
    (x : Payload) (e : Option Effect) (hn : m₁.Evolves n) (hs : n.stack = m₁.stack)
    (ht : n.stack.enter p.owner = .ok t) :
    Agrees (chooseNext p choice type (.present x e)) n
      (blame (p.culprit m m₁.stack) (Provider.chosen m choice type x (SideEffect.boundTo x e)))
      (Provider.LooksLike m.supply n.supply) := by
  rw [chooseNext, ← bind_assoc, Provider.chosen, blame_bind]
  have hk := h.evolves.trans hn
  refine .bind (h.calls hm hn hs ht (hc.agrees hm (hk.stack t).sameRegisters))
    fun q? q?' o ho _ _ hq => ?_
  have hwraps := Agrees.wraps (hk.trans ho).sameRegisters ho.supply_le type x e hq
  cases q?' <;> exact hwraps

omit h ih in
/-- A call of pure code is counted, and gives its result. -/
theorem Action.Pure.run_nextCall {calls : Calls}
    (hpure : (calls.code (n.count calls.counter)).Pure) :
    (nextCall calls).run engine n = some ((calls.code (n.count calls.counter)).result calls.held
      (.int (Int64.ofNat (n.count calls.counter))), n.bump calls.counter) :=
  (Eval.run_ask _ _ _).trans (hpure.engine_act _ _ _)

omit h ih in
/-- Calls with a steady result give it each time. -/
theorem Calls.Steady.run_nextCall {calls : Calls} {r : Except Failure (Option Payload)}
    (hc : calls.Steady r) : (nextCall calls).run engine n = some (r, n.bump calls.counter) := by
  obtain ⟨hpure, hr⟩ := hc (n.count calls.counter)
  rw [← hr]
  exact hpure.run_nextCall

omit h ih in
/-- The result of a call at rest is that of the first. -/
theorem Calls.Steady.result_eq {calls : Calls} {r : Except Failure (Option Payload)}
    (hc : calls.Steady r) : (calls.code 0).result calls.held (.int 0) = r := (hc 0).2

omit h ih in
/-- A property that fits is not finalized by the reading. If it had to be, its scope is open. -/
theorem Provider.Fits.run_finalizeFor {r : PropertyRef} (h : (Provider.property r).Fits m c m₁) :
    (finalizeFor r c).run.run engine m₁ = some (.ok (), m₁) ∨
      ∃ q f, (m₁.property r.id).effective = some q ∧
        m₁.stack.enter (Provider.property r).owner = .error f ∧
        (finalizeFor r c).run.run engine m₁ = some (.error f, m₁) := by
  have hprop := h.evolves.property_eq r.id
  rcases h.plain.plain with hplain | ⟨hopen, hq⟩
  · left
    rw [← hprop] at hplain
    exact run_finalizeFor_of_not_mustFinalize hplain
  · rw [← hprop] at hq
    obtain ⟨q, hq'⟩ := Option.isSome_iff_exists.mp hq
    refine (run_finalizeFor_of_isOpen (c := c) hopen hq).imp_right fun hrun => ⟨q, _, hq', ?_, hrun⟩
    exact ScopeStack.enter_of_isOpen _ (Provider.property r).owner hopen

omit h ih in
include hm in
/-- A property reads from the same provider as at rest. -/
theorem Provider.Fits.effective_eq {r : PropertyRef} (h : (Provider.property r).Fits m c m₁) :
    (m.property r.id).effective =
      ((m₁.property r.id).effective).map (Provider.blur m.supply) := by
  rw [h.evolves.property_eq]
  cases hq : (m.property r.id).effective with
  | none => rfl
  | some q => exact congrArg some (hm.effective _ _ hq).blur_eq.symm

omit h ih in
include hm in
/-- What a property holds may be asked inside its scope. -/
theorem Provider.Fits.held {r : PropertyRef} (h : (Provider.property r).Fits m c m₁)
    (ht : m₁.stack.enter (Provider.property r).owner = .ok t)
    (hq : (m₁.property r.id).effective = some q) : q.Fits m c { m₁ with stack := t } := by
  rw [h.evolves.property_eq] at hq
  exact h.built rfl (.refl m₁) ht (hm.effective _ _ hq).looksLike (h.plain.leads (.property hq))

include hm

section Values

variable {i : Identity} {base left right : Provider} {choice : Recipe} {type : PayloadType}

omit h

/-- A flat map finds its value as its agenda does. -/
theorem Provider.Fits.evalValue_flatMap (h : (Provider.flatMap i base choice type).Fits m c m₁) :
    Provider.Meets m m₁ (.flatMap i base choice type) (evalValue (.flatMap i base choice type) c)
      (((Provider.flatMap i base choice type).blur m.supply).valueAgenda m)
      fun _ v w => v = w := by
  simp only [Provider.Meets, Provider.blur, Provider.valueAgenda, Agenda.run_bind, blame_bind]
  refine .bind (h.asksValue ih (.refl m₁) rfl _ fun t ht =>
    h.part rfl ht (fun _ _ h => h.2) .flatMap) fun v w n hn hs _ hv => ?_
  obtain ⟨⟨t, ht⟩, rfl⟩ := hv
  cases v with
  | missing path => exact .pure rfl
  | present x e =>
    simp only [Value.isMissing, Bool.false_eq_true, if_false, Agenda.run_bind, blame_bind]
    refine .bind (h.chooses hm h.plain.plain type x e hn hs (hs ▸ ht))
      fun q q' o ho hs' hq hqq' => ?_
    obtain rfl := hqq'.blur_eq
    refine (h.asksValue ih (hn.trans ho) (hs'.trans hs) _ fun t ht => ?_).right
    exact h.built rfl (hn.trans ho) (hs'.trans hs ▸ ht) (hqq'.mono hn.supply_le (Nat.le_refl _))
      (h.plain.leads (.chosen (blame_eq_ok hq)))

omit hm in
/-- A fallback finds its value as its agenda does. -/
theorem Provider.Fits.evalValue_orElse (h : (Provider.orElse i left right).Fits m c m₁) :
    Provider.Meets m m₁ (.orElse i left right) (evalValue (.orElse i left right) c)
      (((Provider.orElse i left right).blur m.supply).valueAgenda m) fun _ v w => v = w := by
  simp only [Provider.Meets, Provider.blur, Provider.valueAgenda, Agenda.run_bind, blame_bind]
  refine .bind (h.asksValue ih (.refl m₁) rfl _ fun t ht =>
    h.part rfl ht (fun _ _ h => h.2.1) .left) fun l l' n hn hs _ hl => ?_
  obtain ⟨-, rfl⟩ := hl
  cases l with
  | present x e => exact .pure rfl
  | missing path =>
    simp only [Value.isMissing_missing, if_true, Agenda.run_bind, blame_bind]
    refine .bind (h.asksValue ih hn hs _ fun t ht =>
      (h.later hn hs).part rfl ht (fun _ _ h => h.2.2) .right) fun r r' o _ _ _ hr => ?_
    obtain ⟨-, rfl⟩ := hr
    cases r <;> exact .pure rfl

/-- A property finds its value as its agenda does. -/
theorem Provider.Fits.evalValue_property {r : PropertyRef}
    (h : (Provider.property r).Fits m c m₁) :
    Provider.Meets m m₁ (.property r) (evalValue (.property r) c)
      (((Provider.property r).blur m.supply).valueAgenda m) fun _ v w => v = w := by
  rcases h.run_finalizeFor with hfin | ⟨q, f, hq, hf, hfin⟩
  · refine .ok_bind hfin (.property_bind ?_)
    rw [Provider.blur, Provider.valueAgenda, h.effective_eq hm]
    cases hq : (m₁.property r.id).effective with
    | none => exact .pure rfl
    | some q => exact (h.asksValue ih (.refl m₁) rfl _ fun t ht => h.held hm ht hq).right
  · -- the finalization would open the scope of the property, and so would the reading
    refine ⟨.error f, m₁, Eval.run_bind_error hfin _, .refl m₁, rfl, ?_⟩
    have hasked := h.asked_of_enter_error hf
    rw [Provider.blur] at hasked ⊢
    rw [Provider.valueAgenda, h.effective_eq hm, hq]
    change SameResult _ _ (blame _ ((Agenda.askValue _).run _))
    rw [blame_run_askValue, hasked]
    exact .error f

end Values

/-- The rule for values. -/
theorem Provider.Fits.evalValue :
    p.Meets m m₁ (evalValue p c) ((p.blur m.supply).valueAgenda m) fun _ v w => v = w := by
  have start := Machine.Evolves.refl m₁
  cases p with
  | fixed | undefined => exact .pure rfl
  | changing i type node calls =>
    obtain ⟨r, hc⟩ : ∃ r, calls.Steady r := h.plain.plain
    refine .lift_bind hc.run_nextCall (.bump m₁ _) rfl ?_
    rw [Provider.blur, Provider.valueAgenda_changing, Agenda.run, blame_mapError, blame_bind]
    refine .bind (R := fun _ y z => y = z) (.settle rfl ?_) fun y z o _ _ _ hy => ?_
    · change SameResult _ r ((calls.code 0).result calls.held (.int 0))
      rw [hc.result_eq]
      exact .rfl
    · subst hy
      exact .pure rfl
  | map i base f type =>
    simp only [Provider.Meets, Provider.blur, Provider.valueAgenda, Agenda.run_bind, blame_bind]
    refine .bind (h.asksValue ih start rfl _ fun t ht => h.part rfl ht (fun _ _ h => h.2) .map)
      fun v w n hn hs _ hv => ?_
    obtain ⟨⟨t, ht⟩, rfl⟩ := hv
    cases v with
    | missing path => exact .pure rfl
    | present x e =>
      simp only [Agenda.run_bind, blame_bind]
      refine .bind (h.applies hm h.plain.plain x hn hs (hs ▸ ht)) fun y z o _ _ _ hy => ?_
      subst hy
      exact .pure rfl
  | flatMap => exact Provider.Fits.evalValue_flatMap hm ih h
  | orElse => exact Provider.Fits.evalValue_orElse ih h
  | withEffect i inner e =>
    simp only [Provider.Meets, Provider.blur, Provider.valueAgenda, Agenda.run_bind, blame_bind]
    refine .bind (h.asksValue ih start rfl _ fun t ht =>
      h.part rfl ht (fun _ _ h => h.2) .withEffect) fun v w n _ _ _ hv => ?_
    obtain ⟨-, rfl⟩ := hv
    exact .pure rfl
  | named i inner name =>
    exact (h.asksValue ih start rfl _ fun t ht => h.part rfl ht (fun _ _ h => h.2) .named).right
  | property => exact Provider.Fits.evalValue_property hm ih h
  | custom => exact h.plain.plain.elim

/-- The value of the provider itself is found by its rule. -/
theorem Provider.Fits.ownValue :
    p.Meets m m₁ (Ask.ownValue p c) ((p.blur m.supply).valueAgenda m) fun _ v w => v = w :=
  .of_rule (h.evalValue hm ih) (Ask.run_rule _ _)

omit h in
/-- The provider that presence and producers of a flat map go through. -/
theorem Provider.Fits.backs {i : Identity} {base : Provider} {choice : Recipe}
    {type : PayloadType} (h : (Provider.flatMap i base choice type).Fits m c m₁) :
    Provider.Meets m m₁ (.flatMap i base choice type)
      (backing (.flatMap i base choice type) base choice type)
      (Provider.backed m (base.blur m.supply) choice type) fun hi q q' => q.LooksLike m.supply m₁.supply hi q' ∧ q'.AllPlainIn m c m₁.stack := by
  have start := Machine.Evolves.refl m₁
  rw [Provider.Meets, Provider.backed, Agenda.run_bind, blame_bind]
  refine .bind (h.asksValue ih start rfl _ fun t ht =>
    (h.part rfl ht (fun _ _ h => h.2) .flatMap).lenient) fun v w n hn hs _ hv => ?_
  obtain ⟨⟨t, ht⟩, rfl⟩ := hv
  cases v with
  | missing path =>
    refine ⟨_, _, rfl, .fresh n, rfl, .ok ⟨⟨?_, .supply hn.supply_le⟩, h.plain.leads .absent⟩⟩
    simp [Provider.blur, (h.evolves.trans hn).min_supply]
  | present x e =>
    exact (h.chooses hm h.plain.plain type x e hn hs (hs ▸ ht)).imp fun _ _ _ hr hq =>
      ⟨hq.mono hn.supply_le (Nat.le_refl _), h.plain.leads (.chosen (blame_eq_ok hr))⟩

/-- The rule for presence. -/
theorem Provider.Fits.evalPresence :
    p.Meets m m₁ (evalPresence p c) ((p.blur m.supply).presenceAgenda m) fun _ a b => a = b := by
  have start := Machine.Evolves.refl m₁
  cases p with
  | fixed | undefined => exact .pure rfl
  | changing i type node calls =>
    cases node with
    | some name => exact .pure rfl
    | none =>
      simp only [Provider.Meets, Provider.blur, Provider.presenceAgenda, Agenda.run_bind, blame_bind]
      refine .bind (h.ownValue hm ih) fun v w n _ _ _ hv => ?_
      subst hv
      exact .pure rfl
  | map i base f type =>
    simp only [Provider.Meets, Provider.blur, Provider.presenceAgenda, Agenda.run_bind, blame_bind]
    refine .bind (h.lenient.ownValue hm ih) fun v w n _ _ _ hv => ?_
    subst hv
    exact .pure rfl
  | flatMap i base choice type =>
    simp only [Provider.Meets, Provider.blur, Provider.presenceAgenda, Agenda.run_bind, blame_bind]
    refine .bind (Provider.Fits.backs hm ih h) fun q q' n hn hs _ hq => ?_
    obtain rfl := hq.1.blur_eq
    exact (h.asks ih (d := .presence q) hn hs _ fun t ht =>
      (h.built rfl hn (hs ▸ ht) hq.1 hq.2).lenient).right
  | orElse i left right =>
    simp only [Provider.Meets, Provider.blur, Provider.presenceAgenda, Agenda.run_bind, blame_bind]
    refine .bind (h.asks ih (d := .presence left) start rfl _ fun t ht =>
      h.part rfl ht (fun _ _ h => h.2.1) .left) fun l l' n hn hs _ hl => ?_
    obtain ⟨-, rfl⟩ := hl
    cases l with
    | true => exact .pure rfl
    | false =>
      exact (h.asks ih (d := .presence right) hn hs _ fun t ht =>
        (h.later hn hs).part rfl ht (fun _ _ h => h.2.2) .right).right
  | withEffect i inner e =>
    exact (h.asks ih (d := .presence inner) start rfl _ fun t ht =>
      h.part rfl ht (fun _ _ h => h.2) .withEffect).right
  | named i inner name =>
    exact (h.asks ih (d := .presence inner) start rfl _ fun t ht =>
      h.part rfl ht (fun _ _ h => h.2) .named).right
  | property r =>
    refine .property_bind ?_
    rw [Provider.blur, Provider.presenceAgenda, h.effective_eq hm]
    cases hq : (m₁.property r.id).effective with
    | none => exact .pure rfl
    | some q =>
      exact (h.asks ih (d := .presence q) start rfl _ fun t ht => h.held hm ht hq).right
  | custom => exact h.plain.plain.elim

/-- The rule for producers. -/
theorem Provider.Fits.evalProducer :
    p.Meets m m₁ (evalProducer p) ((p.blur m.supply).producerAgenda m) fun _ a b => a = b := by
  have start := Machine.Evolves.refl m₁
  cases p with
  | fixed | undefined => exact .pure rfl
  | changing i type node calls => cases node <;> exact .pure rfl
  | map i base f type =>
    exact (h.asks ih (d := .producer base) start rfl _ fun t ht =>
      h.part rfl ht (fun _ _ h => h.2) .map).right
  | flatMap i base choice type =>
    simp only [Provider.Meets, Provider.blur, Provider.producerAgenda, Agenda.run_bind, blame_bind]
    refine .bind (Provider.Fits.backs hm ih h) fun q q' n hn hs _ hq => ?_
    obtain rfl := hq.1.blur_eq
    exact (h.asks ih (d := .producer q) hn hs _ fun t ht =>
      h.built rfl hn (hs ▸ ht) hq.1 hq.2).right
  | orElse i left right =>
    simp only [Provider.Meets, Provider.blur, Provider.producerAgenda, Agenda.run_bind, blame_bind]
    refine .bind (h.asks ih (d := .producer left) start rfl _ fun t ht =>
      h.part rfl ht (fun _ _ h => h.2.1) .left) fun l l' n hn hs _ hl => ?_
    refine .bind (h.asks ih (d := .producer right) hn hs _ fun t ht =>
      (h.later hn hs).part rfl ht (fun _ _ h => h.2.2) .right) fun r r' o _ _ _ hr => ?_
    obtain ⟨⟨-, rfl⟩, ⟨-, rfl⟩⟩ := And.intro hl hr
    exact .pure rfl
  | withEffect i inner e =>
    exact (h.asks ih (d := .producer inner) start rfl _ fun t ht =>
      h.part rfl ht (fun _ _ h => h.2) .withEffect).right
  | named i inner name =>
    exact (h.asks ih (d := .producer inner) start rfl _ fun t ht =>
      h.part rfl ht (fun _ _ h => h.2) .named).right
  | property r =>
    refine .property_bind ?_
    have heff := h.effective_eq hm
    rw [Provider.blur, Provider.producerAgenda]
    dsimp only
    rw [heff, ← h.evolves.property_eq]
    cases (m₁.property r.id).frozenProducer with
    | some frozen => exact .pure rfl
    | none =>
      cases hq : (m₁.property r.id).effective with
      | none => exact .pure rfl
      | some q =>
        simp only [Option.map_some, Agenda.run_bind, blame_bind]
        refine .bind (h.asks ih (d := .producer q) start rfl _ fun t ht => h.held hm ht hq)
          fun a b n _ _ _ hab => ?_
        obtain ⟨-, rfl⟩ := hab
        exact .pure rfl
  | custom => exact h.plain.plain.elim

section Classifications

variable {i : Identity} {base left right : Provider} {f : Closure} {choice : Recipe}
  {type : PayloadType}

omit h

/-- A map is classified as its agenda tells. -/
theorem Provider.Fits.evalClassification_map (h : (Provider.map i base f type).Fits m c m₁) :
    Provider.Meets m m₁ (.map i base f type) (evalClassification (.map i base f type))
      (((Provider.map i base f type).blur m.supply).classificationAgenda m)
      (Classification.LooksLike m.supply m₁.supply) := by
  simp only [Provider.Meets, Provider.blur, Provider.classificationAgenda, Agenda.run_bind,
    blame_bind]
  refine .bind (h.asks ih (d := .classification base) (.refl m₁) rfl _ fun t ht =>
    h.part rfl ht (fun _ _ h => h.2) .map) fun x y n hn hs _ hxy => ?_
  obtain ⟨⟨t, ht⟩, hxy⟩ := hxy
  cases hxy with
  | missing => exact .pure (.missing _)
  | fixed x e =>
    simp only [Agenda.run_bind, blame_bind]
    refine .bind (h.applies hm h.plain.plain x hn hs (hs ▸ ht)) fun y z o _ _ _ hy => ?_
    subst hy
    cases y with
    | some y => exact .pure (.fixed _ _)
    | none => exact .pure (.missing _)
  | changing hq =>
    refine ⟨_, _, rfl, .fresh n, rfl, .ok (.changing ⟨?_, .supply hn.supply_le, hq.placed⟩)⟩
    simp [Provider.blur, (h.evolves.trans hn).min_supply, hq.blur_eq]

/-- A flat map is classified as its agenda tells. -/
theorem Provider.Fits.evalClassification_flatMap
    (h : (Provider.flatMap i base choice type).Fits m c m₁) :
    Provider.Meets m m₁ (.flatMap i base choice type)
      (evalClassification (.flatMap i base choice type))
      (((Provider.flatMap i base choice type).blur m.supply).classificationAgenda m)
      (Classification.LooksLike m.supply m₁.supply) := by
  simp only [Provider.Meets, Provider.blur, Provider.classificationAgenda, Agenda.run_bind,
    blame_bind]
  refine .bind (h.asks ih (d := .classification base) (.refl m₁) rfl _ fun t ht =>
    h.part rfl ht (fun _ _ h => h.2) .flatMap) fun x y n hn hs _ hxy => ?_
  obtain ⟨⟨t, ht⟩, hxy⟩ := hxy
  cases hxy with
  | missing => exact .pure (.missing _)
  | fixed x e =>
    simp only [Agenda.run_bind, blame_bind]
    refine .bind (h.chooses hm h.plain.plain type x e hn hs (hs ▸ ht))
      fun q q' o ho hs' hq hqq' => ?_
    obtain rfl := hqq'.blur_eq
    refine (h.asks ih (d := .classification q) (hn.trans ho) (hs'.trans hs) _ fun t ht =>
      h.built rfl (hn.trans ho) (hs'.trans hs ▸ ht) (hqq'.mono hn.supply_le (Nat.le_refl _))
        (h.plain.leads (.chosen (blame_eq_ok hq)))).imp fun _ _ _ _ hxy => ?_
    exact hxy.2.mono (hn.trans ho).supply_le (Nat.le_refl _)
  | changing hq =>
    refine ⟨_, _, rfl, .fresh n, rfl, .ok (.changing ⟨?_, .supply hn.supply_le, hq.placed⟩)⟩
    simp [Provider.blur, (h.evolves.trans hn).min_supply, hq.blur_eq]

omit hm in
/-- A fallback is classified as its agenda tells. -/
theorem Provider.Fits.evalClassification_orElse
    (h : (Provider.orElse i left right).Fits m c m₁) :
    Provider.Meets m m₁ (.orElse i left right) (evalClassification (.orElse i left right))
      (((Provider.orElse i left right).blur m.supply).classificationAgenda m)
      (Classification.LooksLike m.supply m₁.supply) := by
  simp only [Provider.Meets, Provider.blur, Provider.classificationAgenda, Agenda.run_bind,
    blame_bind, Provider.type_blur]
  refine .bind (h.asks ih (d := .classification left) (.refl m₁) rfl _ fun t ht =>
    h.part rfl ht (fun _ _ h => h.2.1) .left) fun l l' n hn hs _ hl => ?_
  have hright := (h.asks ih (d := .classification right) hn hs
    ((Provider.orElse i left right).culprit m m₁.stack) fun t ht =>
      (h.later hn hs).part rfl ht (fun _ _ h => h.2.2) .right).right
  replace hl : l.LooksLike m.supply m₁.supply n.supply l' := hl.2
  cases hl with
  | fixed => exact .pure (.fixed _ _)
  | missing path =>
    simp only [Classification.isFixed, Bool.false_eq_true, if_false, Agenda.run_bind, blame_bind]
    refine .bind hright fun r r' o ho _ _ hr => ?_
    exact .pure (hr.mono hn.supply_le (Nat.le_refl _))
  | changing hl =>
    simp only [Classification.isFixed, Bool.false_eq_true, if_false, Agenda.run_bind, blame_bind]
    refine .bind hright fun r r' o ho _ _ hr => ?_
    have hl := hl.mono (Nat.le_refl _) ho.supply_le
    replace hr : r.LooksLike m.supply m₁.supply o.supply r' :=
      hr.mono hn.supply_le (Nat.le_refl _)
    have horElse := Agrees.orElse (s := left.type) (t := right.type)
      (h.evolves.trans (hn.trans ho)) (hn.trans ho).supply_le (.changing hl) hr
    cases hr with
    | missing => exact .pure (.changing hl)
    | fixed => exact horElse
    | changing => exact horElse

end Classifications

/-- The rule for classifications. -/
theorem Provider.Fits.evalClassification :
    p.Meets m m₁ (evalClassification p) ((p.blur m.supply).classificationAgenda m)
      (Classification.LooksLike m.supply m₁.supply) := by
  have start := Machine.Evolves.refl m₁
  have hlo := Nat.le_refl m₁.supply
  cases p with
  | fixed => exact .pure (.fixed _ _)
  | undefined => exact .pure (.missing _)
  | changing i type node calls =>
    refine ⟨_, _, rfl, .fresh m₁, rfl, .ok (.changing ⟨?_, .supply hlo⟩)⟩
    simp [Provider.blur, h.evolves.min_supply]
  | map => exact Provider.Fits.evalClassification_map hm ih h
  | flatMap => exact Provider.Fits.evalClassification_flatMap hm ih h
  | orElse => exact Provider.Fits.evalClassification_orElse ih h
  | withEffect i inner e =>
    simp only [Provider.Meets, Provider.blur, Provider.classificationAgenda, Agenda.run_bind,
      blame_bind]
    refine .bind (h.asks ih (d := .classification inner) start rfl _ fun t ht =>
      h.part rfl ht (fun _ _ h => h.2) .withEffect) fun x y n hn _ _ hxy => ?_
    exact .addEffect (h.evolves.trans hn) hn.supply_le hxy.2 e
  | named i inner name =>
    simp only [Provider.Meets, Provider.blur, Provider.classificationAgenda, Agenda.run_bind,
      blame_bind]
    refine .bind (h.asks ih (d := .classification inner) start rfl _ fun t ht =>
      h.part rfl ht (fun _ _ h => h.2) .named) fun x y n hn _ _ hxy => ?_
    exact .addName (h.evolves.trans hn) hn.supply_le hxy.2 name
  | property r =>
    refine .property_bind ?_
    rw [Provider.blur, Provider.classificationAgenda, h.effective_eq hm]
    cases hq : (m₁.property r.id).effective with
    | none => exact .pure (.missing _)
    | some q =>
      exact (h.asks ih (d := .classification q) start rfl _ fun t ht => h.held hm ht hq).right
  | custom => exact h.plain.plain.elim

end Rules

/-- Plain providers are asked as they are asked at rest: every question has an answer. -/
theorem Provider.Fits.faithful (hm : m.Minted) {d : Demand} (h : d.provider.Fits m c m₁) :
    Faithful m c d m₁ := by
  generalize hr : m₁.stack.room = r
  induction r using Nat.strongRecOn generalizing c d m₁ with
  | ind r ih =>
    have ih (c : Reading) (d : Demand) (n : Machine) (hn : n.stack.room < m₁.stack.room)
        (h : d.provider.Fits m c n) : Faithful m c d n := ih _ (hr ▸ hn) h rfl
    rw [Faithful, Machine.atRest_eq, Demand.provider_blur]
    cases d with
    | value p => exact h.ownValue hm ih
    | presence p => exact .of_rule (h.evalPresence hm ih) (Ask.run_rule _ _)
    | producer p => exact .of_rule (h.evalProducer hm ih) (Ask.run_rule _ _)
    | classification p => exact .of_rule (h.evalClassification hm ih) (Ask.run_rule _ _)

/-- The value of a plain provider is its value at rest, behind its declared name. -/
theorem Provider.Fits.run_value (hm : m.Minted) (h : p.Fits m c m₁) :
    ∃ n, (Ask.value p c).run.run engine m₁ =
        some ((m.atRest (.value (p.blur m.supply)) (m₁.stack.blur m.supply)).map
          (·.push p.declaredName), n) ∧
      m₁.Evolves n ∧ n.stack = m₁.stack := by
  obtain ⟨v, n, hrun, hn, hs, hr⟩ := Provider.Fits.faithful (d := .value p) hm h
  refine ⟨n, ?_, hn, hs⟩
  have hr : SameResult (fun v w => v = w) v
      (m.atRest (.value (p.blur m.supply)) (m₁.stack.blur m.supply)) := hr
  rw [← hr.eq]
  cases v with
  | ok v => exact Eval.run_bind_ok hrun _
  | error f => exact Eval.run_bind_error hrun _

/-- On the machine itself, an old provider has its value at rest. -/
theorem run_value (hm : m.Minted) (hp : p.Minted m.supply) (hplain : p.AllPlain m c) :
    ∃ n, (Ask.value p c).run.run engine m =
        some ((m.atRest (.value p) m.stack).map (·.push p.declaredName), n) ∧
      m.Evolves n ∧ n.stack = m.stack := by
  obtain ⟨n, hrun, hn⟩ := Provider.Fits.run_value hm (.start hm hp hplain)
  rw [hp.blur_eq, ScopeStack.blur_eq hm.frames] at hrun
  exact ⟨n, hrun, hn⟩

end ProviderGraph
