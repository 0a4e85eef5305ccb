import ProviderGraph.Proofs.Effect.MirroredCalls

/-!
# Rules without effects

The rule of each kind of provider, next to that of the provider without effects. What is asked
inside the scope of the provider is given as a hypothesis about less room (`Machine.MirrorsBelow`).
-/

namespace ProviderGraph

variable {α β γ δ : Type} {ρ σ : Pairing} {m a a' b b' : Machine} {p p' q q' : Provider}
  {o o' : Owner} {t : ScopeStack} {i j : Identity} {k : Nat}

/-- All that is asked of the second provider is answered as it is by the first one, but for
effects. -/
structure Provider.Mirrored (ρ : Pairing) (a b : Machine) (p q : Provider) : Prop where
  value (c : Reading) :
    Mirrors ρ a b (Ask.value p c) (Ask.value q c) fun _ v w => w = v.bare
  presence (c : Reading) :
    Mirrors ρ a b (Ask.presence p c) (Ask.presence q c) fun _ x y => x = y
  producer : Mirrors ρ a b (Ask.producer p) (Ask.producer q) fun _ x y => x = y
  classification :
    Mirrors ρ a b (Ask.classification p) (Ask.classification q) Classification.Strips

/-- Providers that correspond are answered alike where less room is left than `k`. -/
def Machine.MirrorsBelow (m : Machine) (k : Nat) : Prop :=
  ∀ (ρ : Pairing) (a b : Machine) (p q : Provider), a.Strips ρ b → p.Ready m a → p.Strips ρ q →
    a.stack.room < k → p.Mirrored ρ a b q

/-- Two providers with the same name are answered by rules. -/
theorem Provider.Mirrored.of_rules (hname : q.declaredName = p.declaredName)
    (hvalue : ∀ c, Mirrors ρ a b (evalValue p c) (evalValue q c) fun _ v w => w = v.bare)
    (hpresence : ∀ c, Mirrors ρ a b (evalPresence p c) (evalPresence q c) fun _ x y => x = y)
    (hproducer : Mirrors ρ a b (evalProducer p) (evalProducer q) fun _ x y => x = y)
    (hclassification :
      Mirrors ρ a b (evalClassification p) (evalClassification q) Classification.Strips) :
    p.Mirrored ρ a b q where
  value c := by
    refine .bind (Eval.Mirrors.ask (hvalue c)) fun σ a' b' v w _ hab h => ?_
    subst h
    exact .pure hab.strips (by rw [hname, Value.bare_push])
  presence c := Eval.Mirrors.ask (hpresence c)
  producer := Eval.Mirrors.ask hproducer
  classification := Eval.Mirrors.ask hclassification

/-- Presence is that of the value. -/
theorem Mirrors.presenceOfValue {c : Reading}
    (h : Mirrors ρ a b (evalValue p c) (evalValue q c) fun _ v w => w = v.bare) :
    Mirrors ρ a b (do return !(← Ask.ownValue p c).isMissing)
      (do return !(← Ask.ownValue q c).isMissing) fun _ x y => x = y := by
  refine .bind (Eval.Mirrors.ask h) fun σ a' b' v w _ hab h => ?_
  subst h
  exact .pure hab.strips (by rw [Value.isMissing_bare])

section Parts

variable (ih : m.MirrorsBelow k) (hk : a.stack.room ≤ k) (hs : a.Strips ρ b)
  (hopen : a.stack.isOpen o.id = false)
  (hready : ∀ t, a.stack.enter o = .ok t → p.Ready m { a with stack := t }) (hpq : p.Strips ρ q)
  {x : Attempt α} {y : Attempt β} {P : Pairing → α → β → Prop}

include ih hk hs hopen hready hpq

/-- What a provider leads to is asked inside its scope. -/
theorem Mirrors.part (ho : ρ o.id o'.id)
    (h : ∀ t t', p.Mirrored ρ { a with stack := t } { b with stack := t' } q →
      Mirrors ρ { a with stack := t } { b with stack := t' } x y P) :
    Mirrors ρ a b (ProviderGraph.within o x) (ProviderGraph.within o' y) P :=
  .within hs ho hopen fun t t' ht hs' => h t t' <|
    ih _ _ _ _ _ hs' (hready t ht) hpq (Nat.lt_of_lt_of_le (ScopeStack.room_lt_of_enter ht) hk)

/-- What carries an effect is asked inside a scope of the first machine. -/
theorem Mirrors.partLeft
    (h : ∀ t, p.Mirrored ρ { a with stack := t } b q → Mirrors ρ { a with stack := t } b x y P) :
    Mirrors ρ a b (ProviderGraph.within o x) y P :=
  .withinLeft hs hopen fun t ht hs' => h t <|
    ih _ _ _ _ _ hs' (hready t ht) hpq (Nat.lt_of_lt_of_le (ScopeStack.room_lt_of_enter ht) hk)

end Parts

/-- Another part is asked later. -/
theorem Mirrors.partLater {x : Attempt α} {y : Attempt β} {P : Pairing → α → β → Prop}
    (ih : m.MirrorsBelow k) (hk : a.stack.room ≤ k) (hopen : a.stack.isOpen o.id = false)
    (hab : Machine.Along ρ a b σ a' b')
    (hready : ∀ t, a'.stack.enter o = .ok t → p.Ready m { a' with stack := t })
    (hpq : p.Strips σ q) (ho : ρ o.id o'.id)
    (h : ∀ t t', p.Mirrored σ { a' with stack := t } { b' with stack := t' } q →
      Mirrors σ { a' with stack := t } { b' with stack := t' } x y P) :
    Mirrors σ a' b' (ProviderGraph.within o x) (ProviderGraph.within o' y) P :=
  .part ih (hab.left_stack ▸ hk) hab.strips (hab.left_stack ▸ hopen) hready hpq
    (hab.within _ _ ho) h

/-! ### Leaves -/

theorem Provider.mirrored_fixed (hs : a.Strips ρ b) (x : Payload) :
    (Provider.fixed i x).Mirrored ρ a b (.fixed j x) :=
  .of_rules rfl (fun _ => .pure hs rfl) (fun _ => .pure hs rfl) (.pure hs rfl)
    (.pure hs (.fixed x none))

theorem Provider.mirrored_undefined (hs : a.Strips ρ b) (type : PayloadType) (path : List String) :
    (Provider.undefined i type path).Mirrored ρ a b (.undefined j type path) :=
  .of_rules rfl (fun _ => .pure hs rfl) (fun _ => .pure hs rfl) (.pure hs rfl)
    (.pure hs (.missing path))

theorem Provider.mirrored_changing (hs : a.Strips ρ b) {c c' : Identity} {code : Nat → Action}
    {held : Option Payload} {r : Except Failure (Option Payload)}
    (hc : (⟨c, code, held⟩ : Calls).Steady r) (type : PayloadType) (node : Option String) :
    (Provider.changing i type node ⟨c, code, held⟩).Mirrored ρ a b
      (.changing j type node ⟨c', code, held⟩) := by
  have value (d : Reading) : Mirrors ρ a b (evalValue (.changing i type node ⟨c, code, held⟩) d)
      (evalValue (.changing j type node ⟨c', code, held⟩) d) fun _ v w => w = v.bare := by
    refine .liftBind (hc.mirrors hs) fun σ a' b' r r' hab h => ?_
    subst h
    refine .bind (P := fun _ x y => x = y) (.settle hab.strips .rfl (.pure hab.strips rfl))
      fun τ a'' b'' x y _ hab' h => ?_
    subst h
    exact .pure hab'.strips (Value.bare_ofOption x).symm
  refine .of_rules rfl value (fun d => ?_) ?_ ?_
  · cases node with
    | some name => exact .pure hs rfl
    | none => exact .presenceOfValue (value d)
  · cases node <;> exact .pure hs rfl
  · exact Eval.Mirrors.of_run rfl rfl (.fresh hs)
      (.ok (.changing (.changing (ρ.add_self _ _) type node c c' code held)))

/-! ### Transforms -/

section Rules

variable (hm : m.Minted) (ih : m.MirrorsBelow k) (hk : a.stack.room ≤ k) (hs : a.Strips ρ b)

include hm ih hk hs

/-- A map is mirrored by a map over the bare base. -/
theorem Provider.mirrored_map {f : Closure} {type : PayloadType}
    (hp : (Provider.map i p f type).Ready m a) (hid : ρ i j) (hpq : p.Strips ρ q) :
    (Provider.map i p f type).Mirrored ρ a b (.map j q f type) := by
  have hlives := hp.lives_of fun _ _ h => by cases h
  have hf : f.code.Pure := hlives.plain.plain
  have hopen := hp.not_isOpen
  have inside (t : ScopeStack) (ht : a.stack.enter (Provider.map i p f type).owner = .ok t) :
      p.Ready m { a with stack := t } := hp.base_map rfl ht
  have applied {σ : Pairing} {a' b' : Machine} (hab : Machine.Along ρ a b σ a' b') (x : Payload) :
      Mirrors σ a' b' (applyTransform (.map i p f type) f x)
        (applyTransform (.map j q f type) f x) fun _ y z => y = z :=
    .applyTransform hm hab.strips (hp.later hab.grows hab.left_stack)
      (.map (hab.within _ _ hid) f type (hpq.mono hab.within)) (hab.within _ _ hid) hf x
  have value (c : Reading) : Mirrors ρ a b (evalValue (.map i p f type) c)
      (evalValue (.map j q f type) c) fun _ v w => w = v.bare := by
    refine .bind (.part ih hk hs hopen inside hpq hid fun _ _ h => h.value c)
      fun σ a' b' v w _ hab h => ?_
    subst h
    cases v with
    | missing path => exact .pure hab.strips rfl
    | present x e =>
      refine .bind (applied hab x) fun τ a'' b'' y z _ hab' h => ?_
      subst h
      exact .pure hab'.strips (by cases y <;> rfl)
  refine .of_rules rfl value (fun _ => .presenceOfValue (value .lenient)) ?_ ?_
  · exact .part ih hk hs hopen inside hpq hid fun _ _ h => h.producer
  · refine .bind (.part ih hk hs hopen inside hpq hid fun _ _ h => h.classification)
      fun σ a' b' v w _ hab h => ?_
    cases h with
    | missing path => exact .pure hab.strips (.missing path)
    | fixed x e =>
      refine .bind (applied hab x) fun τ a'' b'' y z _ hab' h => ?_
      subst h
      cases y with
      | none => exact .pure hab'.strips (.missing [])
      | some y => exact .pure hab'.strips (.fixed y _)
    | changing h =>
      exact Eval.Mirrors.of_run rfl rfl (.fresh hab.strips)
        (.ok (.changing (.map (σ.add_self _ _) f type (h.mono (σ.within_add _ _)))))

/-! ### Providers that are chosen -/

section FlatMap

variable {choice : Recipe} {type : PayloadType} (hid : ρ i j) (hpq : p.Strips ρ q)

include hid hpq

omit ih hk hs in
/-- What a flat map goes on with is asked inside its scope. -/
theorem Mirrors.goOn (hp : (Provider.flatMap i p choice type).Lives m a)
    (hab : Machine.Along ρ a b σ a' b') {x : Payload} {e : Option Effect}
    {f g : Provider → Attempt γ} {P : Pairing → γ → γ → Prop}
    (hfg : ∀ τ a'' b'' r r', Machine.Along ρ a b τ a'' b'' → r.Strips τ r' →
      (∀ t, a''.stack.enter (Provider.flatMap i p choice type).owner = .ok t →
        r.Ready m { a'' with stack := t }) → Mirrors τ a'' b'' (f r) (g r') P) :
    Mirrors σ a' b'
      (ProviderGraph.chooseNext (.flatMap i p choice type) choice type (.present x e) >>= f)
      (ProviderGraph.chooseNext (.flatMap j q choice.bare type) choice.bare type
        (.present x none) >>= g) P := by
  have hc : choice.Pure := hp.plain.plain
  have hp := hp.later hab.grows hab.left_stack
  have hid := hab.within _ _ hid
  refine .bind (.chooseNext hm hab.strips (.lives hp) (.flatMap hid choice type
    (hpq.mono hab.within)) hid hc type x e) fun τ a'' b'' r r' hrun hab' h =>
      hfg τ a'' b'' r r' (hab.trans hab') h fun t ht => ?_
  have hq := chosen_of_run_chooseNext hm hp.grows.toSameRegisters hc hrun
  rw [hab'.left_stack] at ht
  obtain ⟨_, _, hrun', hev, -, hlooks⟩ :=
    run_chooseNext_of_chosen hm hp.grows.toSameRegisters hc ht hq
  cases hrun'.symm.trans hrun
  exact .lives (hp.built rfl ht hm hev hlooks.placed (.chosen hq))

/-- Presence and producers go through what a lenient reading chooses. -/
theorem Mirrors.goOnBehind (hp : (Provider.flatMap i p choice type).Lives m a)
    {f g : Provider → Attempt γ} {P : Pairing → γ → γ → Prop}
    (hfg : ∀ σ a' b' r r', Machine.Along ρ a b σ a' b' → r.Strips σ r' →
      (∀ t, a'.stack.enter (Provider.flatMap i p choice type).owner = .ok t →
        r.Ready m { a' with stack := t }) → Mirrors σ a' b' (f r) (g r') P) :
    Mirrors ρ a b (backing (.flatMap i p choice type) p choice type >>= f)
      (backing (.flatMap j q choice.bare type) q choice.bare type >>= g) P := by
  have hready : (Provider.flatMap i p choice type).Ready m a := .lives hp
  rw [backing, backing, bind_assoc, bind_assoc]
  refine .bind (.part ih hk hs hready.not_isOpen (fun t ht => hready.base_flatMap rfl ht) hpq hid
    fun _ _ h => h.value .lenient) fun σ a' b' v w _ hab h => ?_
  subst h
  cases v with
  | present x e => exact .goOn hm hid hpq hp hab hfg
  | missing path =>
    have hp' := hp.later hab.grows hab.left_stack
    refine .bind (.lift (.freshUndefined hab.strips type [])) fun τ a'' b'' r r' hrun hab' h =>
      hfg τ a'' b'' r r' (hab.trans hab') h fun t ht => ?_
    cases hrun
    refine .lives (hp'.built rfl ht hm (.fresh a') (.supply (Nat.le_refl _)) ?_)
    rw [Provider.blur, hp'.grows.min_supply]
    exact .absent

/-- A flat map is mirrored by a flat map whose choice is bare. -/
theorem Provider.mirrored_flatMap (hp : (Provider.flatMap i p choice type).Ready m a) :
    (Provider.flatMap i p choice type).Mirrored ρ a b (.flatMap j q choice.bare type) := by
  have hlives := hp.lives_of fun _ _ h => by cases h
  have hopen := hp.not_isOpen
  have inside (t : ScopeStack)
      (ht : a.stack.enter (Provider.flatMap i p choice type).owner = .ok t) :
      p.Ready m { a with stack := t } := hp.base_flatMap rfl ht
  refine .of_rules rfl (fun c => ?_) (fun _ => ?_) ?_ ?_
  · refine .bind (.part ih hk hs hopen inside hpq hid fun _ _ h => h.value c)
      fun σ a' b' v w _ hab h => ?_
    subst h
    cases v with
    | missing path => exact .pure hab.strips rfl
    | present x e =>
      refine .goOn hm hid hpq hlives hab fun τ a'' b'' r r' hab h hr => ?_
      exact .partLater ih hk hopen hab hr h hid fun _ _ h => h.value c
  · refine .goOnBehind hm ih hk hs hid hpq hlives fun τ a'' b'' r r' hab h hr => ?_
    exact .partLater ih hk hopen hab hr h hid fun _ _ h => h.presence .lenient
  · refine .goOnBehind hm ih hk hs hid hpq hlives fun τ a'' b'' r r' hab h hr => ?_
    exact .partLater ih hk hopen hab hr h hid fun _ _ h => h.producer
  · refine .bind (.part ih hk hs hopen inside hpq hid fun _ _ h => h.classification)
      fun σ a' b' v w _ hab h => ?_
    cases h with
    | missing path => exact .pure hab.strips (.missing path)
    | changing h =>
      exact Eval.Mirrors.of_run rfl rfl (.fresh hab.strips)
        (.ok (.changing (.flatMap (σ.add_self _ _) choice type (h.mono (σ.within_add _ _)))))
    | fixed x e =>
      refine .goOn hm hid hpq hlives hab fun τ a'' b'' r r' hab h hr => ?_
      exact .partLater ih hk hopen hab hr h hid fun _ _ h => h.classification

end FlatMap

/-! ### Fallbacks, effects and names -/

omit hm ih hk in
/-- A fallback is rebuilt from its classified sides. -/
theorem Mirrors.rebuildOrElse {c c' d d' : Classification} (hc : c.Strips ρ c')
    (hd : d.Strips ρ d') (type type' : PayloadType) :
    Mirrors ρ a b
      (do
        let p ← c.toProvider type
        let q ← d.toProvider type'
        return .changing (.orElse (← Eval.identity) p q) : Attempt Classification)
      (do
        let p ← c'.toProvider type
        let q ← d'.toProvider type'
        return .changing (.orElse (← Eval.identity) p q)) Classification.Strips := by
  refine .liftBind (.toProvider hs hc type) fun σ a' b' p p' hab hp => ?_
  refine .liftBind (.toProvider hab.strips (hd.mono hab.within) type')
    fun τ a'' b'' q q' hab' hq => ?_
  refine Eval.Mirrors.of_run rfl rfl (.fresh hab'.strips) (.ok (.changing ?_))
  exact .orElse (τ.add_self _ _) (hp.mono (hab'.within.trans (τ.within_add _ _)))
    (hq.mono (τ.within_add _ _))

omit hm in
/-- A fallback is mirrored by one between the bare sides. -/
theorem Provider.mirrored_orElse {left left' right right' : Provider}
    (hp : (Provider.orElse i left right).Ready m a) (hid : ρ i j) (hl : left.Strips ρ left')
    (hr : right.Strips ρ right') :
    (Provider.orElse i left right).Mirrored ρ a b (.orElse j left' right') := by
  have hopen := hp.not_isOpen
  have inside (t : ScopeStack)
      (ht : a.stack.enter (Provider.orElse i left right).owner = .ok t) :
      left.Ready m { a with stack := t } := hp.left_orElse rfl ht
  have later {σ : Pairing} {a' b' : Machine} (hab : Machine.Along ρ a b σ a' b') (t : ScopeStack)
      (ht : a'.stack.enter (Provider.orElse i left right).owner = .ok t) :
      right.Ready m { a' with stack := t } :=
    (hp.later hab.grows hab.left_stack).right_orElse rfl ht
  refine .of_rules rfl (fun c => ?_) (fun c => ?_) ?_ ?_
  · refine .bind (.part ih hk hs hopen inside hl hid fun _ _ h => h.value c)
      fun σ a' b' v w _ hab h => ?_
    subst h
    cases v with
    | present x e => exact .pure hab.strips rfl
    | missing path =>
      refine .bind (.partLater ih hk hopen hab (later hab) (hr.mono hab.within) hid
        fun _ _ h => h.value c) fun τ a'' b'' v w _ hab' h => ?_
      subst h
      cases v <;> exact .pure hab'.strips rfl
  · refine .bind (.part ih hk hs hopen inside hl hid fun _ _ h => h.presence c)
      fun σ a' b' v w _ hab h => ?_
    subst h
    cases v with
    | true => exact .pure hab.strips rfl
    | false =>
      exact .partLater ih hk hopen hab (later hab) (hr.mono hab.within) hid
        fun _ _ h => h.presence c
  · refine .bind (.part ih hk hs hopen inside hl hid fun _ _ h => h.producer)
      fun σ a' b' v w _ hab h => ?_
    subst h
    refine .bind (.partLater ih hk hopen hab (later hab) (hr.mono hab.within) hid
      fun _ _ h => h.producer) fun τ a'' b'' u u' _ hab' h => ?_
    subst h
    exact .pure hab'.strips rfl
  · refine .bind (.part ih hk hs hopen inside hl hid fun _ _ h => h.classification)
      fun σ a' b' v w _ hab hv => ?_
    have second : Mirrors σ a' b'
        (ProviderGraph.within (Provider.orElse i left right).owner (Ask.classification right))
        (ProviderGraph.within (Provider.orElse j left' right').owner (Ask.classification right'))
        Classification.Strips :=
      .partLater ih hk hopen hab (later hab) (hr.mono hab.within) hid fun _ _ h => h.classification
    cases hv with
    | fixed x e => exact .pure hab.strips (.fixed x e)
    | missing path => exact .bind second fun τ a'' b'' u u' _ hab' hu => .pure hab'.strips hu
    | changing h =>
      refine .bind second fun τ a'' b'' u u' _ hab' hu => ?_
      have h := h.mono hab'.within
      have rebuilt := Mirrors.rebuildOrElse hab'.strips (.changing h) hu left.type right.type
      rw [hl.type_eq, hr.type_eq]
      cases hu with
      | missing path => exact .pure hab'.strips (.changing h)
      | fixed x e => exact rebuilt
      | changing h' => exact rebuilt

omit hm in
/-- A provider with an effect is mirrored by the inner provider without its effects. -/
theorem Provider.mirrored_withEffect {e : Effect} (hp : (Provider.withEffect i p e).Ready m a)
    (hpq : p.Strips ρ q) : (Provider.withEffect i p e).Mirrored ρ a b q := by
  have hopen := hp.not_isOpen
  have inside (t : ScopeStack) (ht : a.stack.enter (Provider.withEffect i p e).owner = .ok t) :
      p.Ready m { a with stack := t } := hp.inner rfl ht
  constructor
  · intro c
    have value : Mirrors ρ a b (evalValue (.withEffect i p e) c) (Ask.value q c)
        fun _ v w => w = v.bare := by
      rw [← bind_pure (Ask.value q c)]
      refine .bind (.partLeft ih hk hs hopen inside hpq fun _ h => h.value c)
        fun σ a' b' v w _ hab h => ?_
      subst h
      exact .pure hab.strips (Value.bare_withEffect v (some e)).symm
    rw [← bind_pure (Ask.value q c)]
    refine .bind (Eval.Mirrors.askLeft value) fun σ a' b' v w _ hab h => ?_
    subst h
    exact .pure hab.strips (by cases v <;> rfl)
  · intro c
    exact Eval.Mirrors.askLeft
      (Mirrors.partLeft ih hk hs hopen inside hpq fun _ h => h.presence c)
  · exact Eval.Mirrors.askLeft (Mirrors.partLeft ih hk hs hopen inside hpq fun _ h => h.producer)
  · have classification : Mirrors ρ a b (evalClassification (.withEffect i p e))
        (Ask.classification q) Classification.Strips := by
      rw [← bind_pure (Ask.classification q)]
      refine .bind (.partLeft ih hk hs hopen inside hpq fun _ h => h.classification)
        fun σ a' b' v w _ hab h => ?_
      exact .lift (.addEffect hab.strips h e)
    exact Eval.Mirrors.askLeft classification

omit hm in
/-- A named provider is mirrored by the inner one under the same name. -/
theorem Provider.mirrored_named {name : String} (hp : (Provider.named i p name).Ready m a)
    (hid : ρ i j) (hpq : p.Strips ρ q) :
    (Provider.named i p name).Mirrored ρ a b (.named j q name) := by
  have hopen := hp.not_isOpen
  have inside (t : ScopeStack) (ht : a.stack.enter (Provider.named i p name).owner = .ok t) :
      p.Ready m { a with stack := t } := hp.inner_named rfl ht
  refine .of_rules rfl (fun c => ?_) (fun c => ?_) ?_ ?_
  · exact .part ih hk hs hopen inside hpq hid fun _ _ h => h.value c
  · exact .part ih hk hs hopen inside hpq hid fun _ _ h => h.presence c
  · exact .part ih hk hs hopen inside hpq hid fun _ _ h => h.producer
  · refine .bind (.part ih hk hs hopen inside hpq hid fun _ _ h => h.classification)
      fun σ a' b' v w _ hab h => ?_
    exact .lift (.addName hab.strips h name)

end Rules

end ProviderGraph
