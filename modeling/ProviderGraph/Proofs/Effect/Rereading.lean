import ProviderGraph.Proofs.Effect.Deliveries

/-!
# Reading again

A strict reading that gives a value gives it again, as long as the graph is left as the first
reading left it: what had to be finalized has been, leaves give what they gave, and what is chosen
is built again with new identities (`Provider.Rereads`). One lemma for each kind of provider says
how its second reading follows from those of its parts.
-/

namespace ProviderGraph

variable {m n N N' : Machine} {s t s' t' : ScopeStack} {K k lo hi : Identity} {p p' q q' : Provider}

/-! ### New identities -/

/-- The identity is the same or new. -/
def Identity.Renewed (K i j : Identity) : Prop := j = i ∨ K ≤ j

/-- The providers are the same but for identities, and where these differ the second one is new. -/
inductive Provider.Renewed (K : Identity) : Provider → Provider → Prop where
  | fixed {i j : Identity} (hi : Identity.Renewed K i j) (x : Payload) :
    Renewed K (.fixed i x) (.fixed j x)
  | undefined {i j : Identity} (hi : Identity.Renewed K i j) (type : PayloadType)
      (path : List String) :
    Renewed K (.undefined i type path) (.undefined j type path)
  | changing {i j : Identity} (hi : Identity.Renewed K i j) (type : PayloadType)
      (node : Option String) {calls calls' : Calls} (hcode : calls'.code = calls.code)
      (hheld : calls'.held = calls.held) :
    Renewed K (.changing i type node calls) (.changing j type node calls')
  | map {i j : Identity} (hi : Identity.Renewed K i j) {base base' : Provider} (f : Closure)
      (type : PayloadType) (h : Renewed K base base') :
    Renewed K (.map i base f type) (.map j base' f type)
  | flatMap {i j : Identity} (hi : Identity.Renewed K i j) {base base' : Provider}
      (choice : Recipe) (type : PayloadType) (h : Renewed K base base') :
    Renewed K (.flatMap i base choice type) (.flatMap j base' choice type)
  | orElse {i j : Identity} (hi : Identity.Renewed K i j) {left left' right right' : Provider}
      (hl : Renewed K left left') (hr : Renewed K right right') :
    Renewed K (.orElse i left right) (.orElse j left' right')
  | withEffect {i j : Identity} (hi : Identity.Renewed K i j) {inner inner' : Provider}
      (e : Effect) (h : Renewed K inner inner') :
    Renewed K (.withEffect i inner e) (.withEffect j inner' e)
  | named {i j : Identity} (hi : Identity.Renewed K i j) {inner inner' : Provider}
      (name : String) (h : Renewed K inner inner') :
    Renewed K (.named i inner name) (.named j inner' name)
  | property (r : PropertyRef) : Renewed K (.property r) (.property r)
  | custom {i j : Identity} (hi : Identity.Renewed K i j) (form : CustomForm)
      (producer : Producer) {calls calls' : Calls} (effect : Option Effect) :
    Renewed K (.custom i form producer calls effect) (.custom j form producer calls' effect)

namespace Provider.Renewed

theorem refl (p : Provider) : p.Renewed K p := by
  induction p with
  | fixed => exact .fixed (.inl rfl) _
  | undefined => exact .undefined (.inl rfl) _ _
  | changing => exact .changing (.inl rfl) _ _ rfl rfl
  | map _ _ _ _ ih => exact .map (.inl rfl) _ _ ih
  | flatMap _ _ _ _ ih => exact .flatMap (.inl rfl) _ _ ih
  | orElse _ _ _ ihl ihr => exact .orElse (.inl rfl) ihl ihr
  | withEffect _ _ _ ih => exact .withEffect (.inl rfl) _ ih
  | named _ _ _ ih => exact .named (.inl rfl) _ ih
  | property => exact .property _
  | custom => exact .custom (.inl rfl) _ _ _

theorem id (h : p.Renewed K p') : Identity.Renewed K p.id p'.id := by
  cases h with
  | property r => exact .inl rfl
  | _ => assumption

theorem declaredName_eq (h : p.Renewed K p') : p'.declaredName = p.declaredName := by
  cases h <;> rfl

private theorem eq_of_min_eq {i j k : Nat} (h : min i k = min j k) (hj : j < k) : j = i := by
  omega

private theorem identity_of_min {i j : Identity} (hij : min i k = min j k)
    (hj : Identity.Placed k lo hi j) (hlo : K ≤ lo) : Identity.Renewed K i j :=
  hj.imp (eq_of_min_eq hij) fun hj => Nat.le_trans hlo hj.1

/-- What looks the same, and is new where it is not old, is renewed. -/
theorem of_blur (h : p.blur k = q.blur k) (hq : q.Placed k lo hi) (hlo : K ≤ lo) :
    p.Renewed K q := by
  induction p generalizing q hi with
  | fixed i x =>
    cases q <;> simp only [Provider.blur, reduceCtorEq, Provider.fixed.injEq] at h
    obtain ⟨hi, rfl⟩ := h
    exact .fixed (identity_of_min hi hq hlo) x
  | undefined i type path =>
    cases q <;> simp only [Provider.blur, reduceCtorEq, Provider.undefined.injEq] at h
    obtain ⟨hi, rfl, rfl⟩ := h
    exact .undefined (identity_of_min hi hq hlo) type path
  | changing i type node calls =>
    cases q <;> simp only [Provider.blur, reduceCtorEq, Provider.changing.injEq] at h
    obtain ⟨hi, rfl, rfl, hcalls⟩ := h
    exact .changing (identity_of_min hi hq hlo) type node (congrArg Calls.code hcalls).symm
      (congrArg Calls.held hcalls).symm
  | map i base f type ih =>
    cases q <;> simp only [Provider.blur, reduceCtorEq, Provider.map.injEq] at h
    obtain ⟨hi, hbase, rfl, rfl⟩ := h
    exact .map (identity_of_min hi hq.1 hlo) f type (ih hbase hq.2)
  | flatMap i base choice type ih =>
    cases q <;> simp only [Provider.blur, reduceCtorEq, Provider.flatMap.injEq] at h
    obtain ⟨hi, hbase, rfl, rfl⟩ := h
    exact .flatMap (identity_of_min hi hq.1 hlo) choice type (ih hbase hq.2)
  | orElse i left right ihl ihr =>
    cases q <;> simp only [Provider.blur, reduceCtorEq, Provider.orElse.injEq] at h
    obtain ⟨hi, hl, hr⟩ := h
    exact .orElse (identity_of_min hi hq.1 hlo) (ihl hl hq.2.1) (ihr hr hq.2.2)
  | withEffect i inner e ih =>
    cases q <;> simp only [Provider.blur, reduceCtorEq, Provider.withEffect.injEq] at h
    obtain ⟨hi, hinner, rfl⟩ := h
    exact .withEffect (identity_of_min hi hq.1 hlo) e (ih hinner hq.2)
  | named i inner name ih =>
    cases q <;> simp only [Provider.blur, reduceCtorEq, Provider.named.injEq] at h
    obtain ⟨hi, hinner, rfl⟩ := h
    exact .named (identity_of_min hi hq.1 hlo) name (ih hinner hq.2)
  | property r =>
    cases q <;> simp only [Provider.blur, reduceCtorEq, Provider.property.injEq] at h
    subst h
    exact .property r
  | custom i form producer calls e =>
    cases q <;> simp only [Provider.blur, reduceCtorEq, Provider.custom.injEq] at h
    obtain ⟨hi, rfl, rfl, -, rfl⟩ := h
    exact .custom (identity_of_min hi hq hlo) form producer e

end Provider.Renewed

/-- The stacks have the same room, and what is open on the second one is new or open on the
first. -/
structure ScopeStack.Resembles (K : Identity) (s s' : ScopeStack) : Prop where
  depth_eq : s'.depth = s.depth
  limit_eq : s'.limit = s.limit
  old : ∀ o ∈ s'.frames, K ≤ o.id ∨ s.isOpen o.id = true

theorem ScopeStack.Resembles.refl (s : ScopeStack) : s.Resembles K s where
  depth_eq := rfl
  limit_eq := rfl
  old o ho := .inr (List.any_eq_true.mpr ⟨o, ho, beq_self_eq_true _⟩)

/-- A scope that could be opened on the first stack can be opened on the second one. -/
theorem ScopeStack.Resembles.enter (h : s.Resembles K s') {o o' : Owner}
    (ho : Identity.Renewed K o.id o'.id) (hnew : o'.id < K ∨ s'.isOpen o'.id = false)
    (ht : s.enter o = .ok t) : ∃ t', s'.enter o' = .ok t' ∧ t.Resembles K t' := by
  obtain ⟨hopen, hdepth, rfl⟩ := enter_eq_ok_iff.mp ht
  have hopen' : s'.isOpen o'.id = false := by
    refine hnew.elim (fun hlt => ?_) id
    have hid : o'.id = o.id := ho.resolve_right (Nat.not_le.mpr hlt)
    refine Bool.eq_false_iff.mpr fun hs' => ?_
    obtain ⟨f, hf, hfid⟩ := List.any_eq_true.mp hs'
    have hfid : f.id = o'.id := beq_iff_eq.mp hfid
    rcases h.old f hf with hK | hs
    · exact absurd (hfid ▸ hK) (Nat.not_le.mpr hlt)
    · rw [hfid, hid, hopen] at hs
      cases hs
  have hdepth' : s'.depth < s'.limit := by
    rw [h.depth_eq, h.limit_eq]
    exact hdepth
  refine ⟨{ s' with frames := o' :: s'.frames }, enter_eq_ok_iff.mpr ⟨hopen', hdepth', rfl⟩, ?_⟩
  constructor
  · exact congrArg (· + 1) h.depth_eq
  · exact h.limit_eq
  · intro f hf
    rw [isOpen, List.any_cons, Bool.or_eq_true, beq_iff_eq]
    rcases List.mem_cons.mp hf with rfl | hf
    · exact ho.elim (fun h => .inr (.inl h.symm)) .inl
    · exact (h.old f hf).imp_right .inr

/-! ### The second reading -/

/-- The computation ends with a result, and the machine has only evolved. -/
def Attempt.Finds {α : Type} (x : Attempt α) (m : Machine) (a : α) : Prop :=
  ∃ n, x.run.run engine m = some (.ok a, n) ∧ m.Evolves n ∧ n.stack = m.stack

namespace Attempt.Finds

variable {α β : Type} {x : Attempt α} {a : α} {b : β} {f : α → Attempt β}

theorem pure (a : α) : Finds (Pure.pure a) m a := ⟨m, rfl, .refl m, rfl⟩

theorem bind (hx : x.Finds m a)
    (hf : ∀ n, m.Evolves n → n.stack = m.stack → (f a).Finds n b) : (x >>= f).Finds m b := by
  obtain ⟨n, hrun, hn, hs⟩ := hx
  obtain ⟨o, hrun', ho, hs'⟩ := hf n hn hs
  exact ⟨o, (Eval.run_bind_ok hrun f).trans hrun', hn.trans ho, hs'.trans hs⟩

theorem within {o : Owner} (ht : m.stack.enter o = .ok t) (hx : x.Finds { m with stack := t } a) :
    (within o x).Finds m a := by
  obtain ⟨n, hrun, hn, hs⟩ := hx
  exact ⟨{ n with stack := m.stack }, Eval.run_within_of_stack ht hrun hs,
    .trans ((Machine.Evolves.refl m).stack t) (hn.stack _), rfl⟩

end Attempt.Finds

/-- Where its scope can be opened a flat map goes on with what it chooses, with new identities. -/
theorem run_chooseNext_of_chosen (hm : m.Minted) (hreg : m.SameRegisters N) {choice : Recipe}
    (hc : choice.Pure) (ht : N.stack.enter p.owner = .ok t) {type : PayloadType} {x : Payload}
    {e : Option Effect}
    (hq : Provider.chosen m choice type x (SideEffect.boundTo x e) = .ok q) :
    ∃ q' o, (chooseNext p choice type (.present x e)).run.run engine N = some (.ok q', o) ∧
      N.Evolves o ∧ o.stack = N.stack ∧ q'.LooksLike m.supply N.supply o.supply q := by
  cases hplan : choice.plan m (some x) with
  | error failure =>
    rw [Provider.chosen, hplan] at hq
    cases hq
  | ok q? =>
    have hbuild : Agrees (within p.owner (ExceptT.lift (Ask.build choice (some x)).run) >>=
        settle (Ask.text p)) N (.ok q?) (Provider.MayLookLike m.supply N.supply) := by
      refine .bind (r := .ok (choice.plan m (some x))) (g := fun _ => .ok q?)
        (.withinLift ht (hc.agrees hm ⟨hreg.1, hreg.2, hreg.3⟩)) fun r _ o _ _ hr hP => ?_
      obtain rfl := Except.ok.inj hr
      rw [hplan] at hP
      cases hP with
      | ok hP => exact .pure hP
    have hnext : Agrees (chooseNext p choice type (.present x e)) N (.ok q)
        (Provider.LooksLike m.supply N.supply) := by
      rw [chooseNext, ← bind_assoc]
      refine .bind (r := .ok q?) (g := fun _ => .ok q) hbuild fun a b o ho _ hb hP => ?_
      obtain rfl := Except.ok.inj hb
      have hwraps := Agrees.wraps (hreg.trans ho.sameRegisters) ho.supply_le type x e hP
      rw [Provider.chosen, hplan] at hq
      cases q? <;> cases hq <;> exact hwraps
    obtain ⟨r, o, hrun, ho, hs, hr⟩ := hnext
    cases hr with
    | ok hlooks => exact ⟨_, o, hrun, ho, hs, hlooks⟩

/-- The provider `p`, which was asked where the scopes of `s` were open, recurs as `p'`: the graph
is as `n` left it, and what is new has an identity from `K` on. -/
structure Provider.Recurs (K : Identity) (s : ScopeStack) (n : Machine) (p : Provider)
    (N : Machine) (p' : Provider) : Prop where
  ripens : n.Ripens N
  supply_le : n.supply ≤ K
  renewed : p.Renewed K p'
  stack : s.Resembles K N.stack
  sits : p'.Sits K N

/-- Where the provider recurs the question has the value as its answer again. -/
def Provider.Rereads (question : Provider → Attempt Outcome) (s : ScopeStack) (n : Machine)
    (p : Provider) (v : Outcome) : Prop :=
  ∀ K N p', p.Recurs K s n N p' → (question p').Finds N v

namespace Provider.Recurs

/-- A provider recurs as it is where everything is old. -/
theorem self (hp : p.Minted N.supply) (hf : ∀ o ∈ N.stack.frames, o.id < N.supply)
    (hN : n.Ripens N) : p.Recurs N.supply N.stack n N p where
  ripens := hN
  supply_le := hN.supply_le
  renewed := .refl p
  stack := .refl N.stack
  sits := .of_minted hp (Nat.le_refl _) hf

theorem later (h : p.Recurs K s n N p') (hN : N.Evolves N') (hs : N'.stack = N.stack) :
    p.Recurs K s n N' p' where
  ripens := h.ripens.trans hN.ripens
  supply_le := h.supply_le
  renewed := h.renewed
  stack := hs ▸ h.stack
  sits := h.sits.later hN.supply_le hs

/-- The scope that was opened can be opened again. -/
theorem enter (h : p.Recurs K s n N p') (ht : s.enter p.owner = .ok t) :
    ∃ t', N.stack.enter p'.owner = .ok t' ∧ t.Resembles K t' :=
  h.stack.enter h.renewed.id h.sits.not_isOpen ht

/-- A part recurs inside the scope. -/
theorem part (h : p.Recurs K s n N p') (ht' : N.stack.enter p'.owner = .ok t')
    (hs : t.Resembles K t') (hq : q.Renewed K q')
    (hpart : ∀ lo hi, p'.Placed K lo hi → q'.Placed K lo p'.id) :
    q.Recurs K t n { N with stack := t' } q' where
  ripens := ⟨⟨h.ripens.supply_le, h.ripens.providerRegisters_eq, h.ripens.propertyRegisters_eq⟩,
    h.ripens.property_eq⟩
  supply_le := h.supply_le
  renewed := hq
  stack := hs
  sits := h.sits.part rfl ht' hpart

/-- The value of a part is found again inside the scope. -/
theorem finds (h : p.Recurs K s n N p') (ht : s.enter p.owner = .ok t) {v : Outcome}
    (hread : q.Rereads (Ask.value · .strict) t n v) (hq : q.Renewed K q')
    (hpart : ∀ lo hi, p'.Placed K lo hi → q'.Placed K lo p'.id) :
    (within p'.owner (Ask.value q' .strict)).Finds N v := by
  obtain ⟨t', ht', hs⟩ := h.enter ht
  exact .within ht' (hread K _ q' (h.part ht' hs hq hpart))

/-- The code that was called gives the same result again. -/
theorem finds_applyTransform (h : p.Recurs K s n N p') (ht : s.enter p.owner = .ok t)
    {f : Closure} (hf : f.code.Pure) {x : Payload} {y : Option Payload}
    (hy : f.code.result f.held x = .ok y) : (applyTransform p' f x).Finds N y := by
  obtain ⟨t', ht', -⟩ := h.enter ht
  have hact : (within p'.owner (ExceptT.lift (Ask.act f.code f.held x))).Finds N (.ok y) := by
    refine .within ht' ⟨{ N with stack := t' }, ?_, .refl _, rfl⟩
    rw [← hy]
    exact Eval.run_bind_of (hf.computes f.held x _) _
  exact hact.bind fun o _ _ => .pure y

/-- What was chosen is chosen again, with new identities. -/
theorem run_chooseNext (h : p.Recurs K s n N p') (ht : s.enter p.owner = .ok t)
    (hm : m.Minted) (hreg : m.SameRegisters n) {choice : Recipe} (hc : choice.Pure)
    {type : PayloadType} {x : Payload} {e : Option Effect}
    (hq : Provider.chosen m choice type x (SideEffect.boundTo x e) = .ok q) :
    ∃ q' o, (chooseNext p' choice type (.present x e)).run.run engine N = some (.ok q', o) ∧
      N.Evolves o ∧ o.stack = N.stack ∧ q'.LooksLike m.supply N.supply o.supply q := by
  obtain ⟨t', ht', -⟩ := h.enter ht
  exact run_chooseNext_of_chosen hm (hreg.trans h.ripens.toSameRegisters) hc ht' hq

end Provider.Recurs

namespace Provider.Rereads

variable {v w : Outcome} {i : Identity} {type : PayloadType} {question : Provider → Attempt Outcome}

theorem later {n' : Machine} (h : p.Rereads question s n v) (hn : n.Ripens n') :
    p.Rereads question s n' v := by
  intro K N p' hp
  exact h K N p' { hp with
    ripens := hn.trans hp.ripens
    supply_le := Nat.le_trans hn.supply_le hp.supply_le }

/-- The rule of a provider, and its value behind the declared name. -/
theorem value (h : p.Rereads (evalValue · .strict) s n v) :
    p.Rereads (Ask.value · .strict) s n (v.push p.declaredName) := by
  intro K N p' hp
  obtain ⟨o, hrun, ho, hs⟩ := h K N p' hp
  have hown : (Ask.ownValue p' .strict).Finds N v := ⟨o, (Ask.run_rule _ _).trans hrun, ho, hs⟩
  rw [← hp.renewed.declaredName_eq]
  exact hown.bind fun _ _ _ => .pure _

theorem fixed {x : Payload} :
    (Provider.fixed i x).Rereads (evalValue · .strict) s n (.present x none) := by
  rintro K N _ ⟨-, -, ⟨⟩, -, -⟩
  exact .pure _

theorem undefined {path : List String} :
    (Provider.undefined i type path).Rereads (evalValue · .strict) s n (.missing path) := by
  rintro K N _ ⟨-, -, ⟨⟩, -, -⟩
  exact .pure _

/-- A leaf that gives the same result each time. -/
theorem changing {node : Option String} {calls : Calls} {y : Option Payload}
    (hy : calls.Steady (.ok y)) :
    (Provider.changing i type node calls).Rereads (evalValue · .strict) s n (.ofOption y) := by
  rintro K N _ ⟨-, -, hren, -, -⟩
  cases hren with
  | @changing _ _ _ _ _ _ calls' hcode hheld =>
    have hy' : calls'.Steady (.ok y) := by
      rw [Calls.Steady, hcode, hheld]
      exact hy
    have hcall : (nextCall calls').run engine N = some (.ok y, N.bump calls'.counter) :=
      hy'.run_nextCall
    refine ⟨N.bump calls'.counter, ?_, .bump N _, rfl⟩
    show (evalValue _ .strict).run.run engine N = _
    rw [evalValue, Eval.run_lift_bind, Eval.run_bind_of hcall]
    rfl

section Scoped

variable {base : Provider} {f : Closure} {choice : Recipe} {x : Payload} {e : Option Effect}

/-- A map over something missing is read as missing again. -/
theorem mapMissing {path : List String} (ht : s.enter (Provider.map i base f type).owner = .ok t)
    (h : base.Rereads (Ask.value · .strict) t n (.missing path)) :
    (Provider.map i base f type).Rereads (evalValue · .strict) s n (.missing path) := by
  intro K N p' hp
  have hren := hp.renewed
  cases hren with
  | map hid f type hbase =>
    exact (hp.finds ht h hbase fun _ _ h => h.2).bind fun _ _ _ => .pure _

theorem map (ht : s.enter (Provider.map i base f type).owner = .ok t)
    (h : base.Rereads (Ask.value · .strict) t n (.present x e)) (hf : f.code.Pure)
    {y : Option Payload} (hy : f.code.result f.held x = .ok y) :
    (Provider.map i base f type).Rereads (evalValue · .strict) s n
      ((Value.ofOption y).withEffect (SideEffect.boundTo x e)) := by
  intro K N p' hp
  have hren := hp.renewed
  cases hren with
  | map hid f type hbase =>
    refine (hp.finds ht h hbase fun _ _ h => h.2).bind fun o ho hs => ?_
    exact ((hp.later ho hs).finds_applyTransform ht hf hy).bind fun _ _ _ => .pure _

theorem flatMapMissing {path : List String}
    (ht : s.enter (Provider.flatMap i base choice type).owner = .ok t)
    (h : base.Rereads (Ask.value · .strict) t n (.missing path)) :
    (Provider.flatMap i base choice type).Rereads (evalValue · .strict) s n (.missing path) := by
  intro K N p' hp
  have hren := hp.renewed
  cases hren with
  | flatMap hid choice type hbase =>
    exact (hp.finds ht h hbase fun _ _ h => h.2).bind fun _ _ _ => .pure _

/-- What the flat map goes on with looks like what is chosen at first, and gives its value again. -/
theorem flatMap (ht : s.enter (Provider.flatMap i base choice type).owner = .ok t)
    (h : base.Rereads (Ask.value · .strict) t n (.present x e)) (hm : m.Minted)
    (hreg : m.SameRegisters n) (hc : choice.Pure)
    (hq : Provider.chosen m choice type x (SideEffect.boundTo x e) = .ok q')
    (hlooks : q.blur m.supply = q') (h' : q.Rereads (Ask.value · .strict) t n v) :
    (Provider.flatMap i base choice type).Rereads (evalValue · .strict) s n v := by
  intro K N p' hp
  have hren := hp.renewed
  cases hren with
  | @flatMap _ j _ _ base' _ _ hbase =>
    refine (hp.finds ht h hbase fun _ _ h => h.2).bind fun o ho hs => ?_
    have hpo := hp.later ho hs
    obtain ⟨q₁, o₁, hrun, ho₁, hs₁, hq₁⟩ := hpo.run_chooseNext ht hm hreg hc hq
    obtain ⟨t', ht', hst⟩ := hpo.enter ht
    have hk : m.supply ≤ K := Nat.le_trans hreg.supply_le hp.supply_le
    have hrecurs : q.Recurs K t n { o₁ with stack := t' } q₁ := {
      ripens := hpo.ripens.trans (ho₁.stack t').ripens
      supply_le := hp.supply_le
      renewed := .of_blur (hlooks.trans hq₁.blur_eq.symm) hq₁.placed hpo.sits.supply_le
      stack := hst
      sits := hpo.sits.built rfl ho₁.supply_le ht' (hq₁.placed.older hk) }
    obtain ⟨o₂, hrun₂, ho₂, hs₂⟩ := Attempt.Finds.within (hs₁ ▸ ht') (h' K _ q₁ hrecurs)
    exact ⟨o₂, (Eval.run_bind_ok hrun _).trans hrun₂, ho₁.trans ho₂, hs₂.trans hs₁⟩

variable {l r inner : Provider}

/-- A fallback is read again as its left side is. -/
theorem left (ht : s.enter (Provider.orElse i l r).owner = .ok t)
    (h : l.Rereads (Ask.value · .strict) t n v) (hv : v.isMissing = false) :
    (Provider.orElse i l r).Rereads (evalValue · .strict) s n v := by
  intro K N p' hp
  have hren := hp.renewed
  cases hren with
  | orElse hid hl hr =>
    refine (hp.finds ht h hl fun _ _ h => h.2.1).bind fun o ho hs => ?_
    rw [hv]
    exact .pure v

/-- A fallback whose left side is missing is read again as its right side is. -/
theorem right (ht : s.enter (Provider.orElse i l r).owner = .ok t)
    (h : l.Rereads (Ask.value · .strict) t n v) (hv : v.isMissing = true)
    (h' : r.Rereads (Ask.value · .strict) t n w) :
    (Provider.orElse i l r).Rereads (evalValue · .strict) s n
      (if w.isMissing then v.addPath w else w) := by
  intro K N p' hp
  have hren := hp.renewed
  cases hren with
  | orElse hid hl hr =>
    refine (hp.finds ht h hl fun _ _ h => h.2.1).bind fun o ho hs => ?_
    rw [hv]
    refine ((hp.later ho hs).finds ht h' hr fun _ _ h => h.2.2).bind fun _ _ _ => ?_
    split <;> exact .pure _

/-- An effect is found again. -/
theorem withEffect {e : Effect} (ht : s.enter (Provider.withEffect i inner e).owner = .ok t)
    (h : inner.Rereads (Ask.value · .strict) t n v) :
    (Provider.withEffect i inner e).Rereads (evalValue · .strict) s n
      (v.withEffect (some e)) := by
  intro K N p' hp
  have hren := hp.renewed
  cases hren with
  | withEffect hid e hinner =>
    exact (hp.finds ht h hinner fun _ _ h => h.2).bind fun _ _ _ => .pure _

theorem named {name : String} (ht : s.enter (Provider.named i inner name).owner = .ok t)
    (h : inner.Rereads (Ask.value · .strict) t n v) :
    (Provider.named i inner name).Rereads (evalValue · .strict) s n v := by
  intro K N p' hp
  have hren := hp.renewed
  cases hren with
  | named hid name hinner => exact hp.finds ht h hinner fun _ _ h => h.2

end Scoped

section Property

variable {r : PropertyRef} (hr : (n.property r.id).mustFinalize .strict = false)

include hr

theorem property (hq : (n.property r.id).effective = some q) (hminted : q.Minted n.supply)
    (ht : s.enter (Provider.property r).owner = .ok t)
    (h : q.Rereads (Ask.value · .strict) t n v) :
    (Provider.property r).Rereads (evalValue · .strict) s n v := by
  intro K N p' hp
  have hN := hp.ripens.property_eq hr
  have hren := hp.renewed
  cases hren with
  | property r =>
    obtain ⟨t', ht', hst⟩ := hp.enter ht
    have hrecurs : q.Recurs K t n { N with stack := t' } q := {
      ripens := hp.ripens.trans ((Machine.Evolves.refl N).stack t').ripens
      supply_le := hp.supply_le
      renewed := .refl q
      stack := hst
      sits := .of_minted (hminted.mono hp.supply_le) hp.sits.supply_le
        (hp.sits.frames_of_enter rfl ht') }
    obtain ⟨o, hrun, ho, hs⟩ := Attempt.Finds.within ht' (h K _ q hrecurs)
    refine ⟨o, ?_, ho, hs⟩
    show (evalValue _ .strict).run.run engine N = _
    rw [evalValue, Eval.run_bind_ok (run_finalizeFor_of_not_mustFinalize (hN ▸ hr)),
      Eval.run_property_bind, hN, hq]
    exact hrun

theorem unset (hq : (n.property r.id).effective = none) :
    (Provider.property r).Rereads (evalValue · .strict) s n (.missing []) := by
  intro K N p' hp
  have hN := hp.ripens.property_eq hr
  have hren := hp.renewed
  cases hren with
  | property r =>
    refine ⟨N, ?_, .refl N, rfl⟩
    show (evalValue _ .strict).run.run engine N = _
    rw [evalValue, Eval.run_bind_ok (run_finalizeFor_of_not_mustFinalize (hN ▸ hr)),
      Eval.run_property_bind, hN, hq]
    rfl

end Property

end Provider.Rereads

end ProviderGraph
