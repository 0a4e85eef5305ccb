import ProviderGraph.Proofs.DepthLimit.Overflow
import ProviderGraph.Proofs.Effect.BareGraphs

/-!
# Runs on the bare machine

A computation on the machine with effects is mirrored by one on the bare machine that ends alike and
leaves the bare machine as the other machine without effects (`Eval.Mirrors`). Scopes and identities
that only an effect needs have no part in it. Nothing is said where the first computation meets the
depth limit, since the second one may stay below it.
-/

namespace ProviderGraph

variable {α β γ δ ε : Type} {ρ σ τ : Pairing} {a a' a'' b b' b'' n : Machine} {p q : Provider}
  {o o' : Owner} {t : ScopeStack} {i lo lo' hi hi' : Identity}

/-! ### Machines that were read -/

/-- The provider reproduces a value, with identities from `lo` up to `hi`. -/
inductive Provider.Frozen (lo hi : Identity) : Provider → Prop where
  | fixed {i : Identity} (hlo : lo ≤ i) (hhi : i < hi) (x : Payload) : Frozen lo hi (.fixed i x)
  | undefined {i : Identity} (hlo : lo ≤ i) (hhi : i < hi) (type : PayloadType)
      (path : List String) : Frozen lo hi (.undefined i type path)
  | withEffect {i j : Identity} (hlo : lo ≤ j) (hij : j < i) (hhi : i < hi) (x : Payload)
      (e : Effect) : Frozen lo hi (.withEffect i (.fixed j x) e)

theorem Provider.Frozen.mono (h : p.Frozen lo hi) (hlo : lo' ≤ lo) (hhi : hi ≤ hi') :
    p.Frozen lo' hi' := by
  cases h with
  | fixed hl hh x => exact .fixed (Nat.le_trans hlo hl) (Nat.lt_of_lt_of_le hh hhi) x
  | undefined hl hh type path =>
    exact .undefined (Nat.le_trans hlo hl) (Nat.lt_of_lt_of_le hh hhi) type path
  | withEffect hl hij hh x e =>
    exact .withEffect (Nat.le_trans hlo hl) hij (Nat.lt_of_lt_of_le hh hhi) x e

/-- Since the machine was `a` identities were handed out, and properties may have come to reproduce
values. The registers hold what they held. -/
structure Machine.Grows (a b : Machine) : Prop extends a.SameRegisters b where
  property (i : Identity) : b.property i = a.property i ∨
    ∃ q, (b.property i).effective = some q ∧ q.Frozen a.supply b.supply

namespace Machine.Grows

theorem refl (a : Machine) : a.Grows a := ⟨.refl a, fun _ => .inl rfl⟩

theorem trans (h : a.Grows b) (h' : b.Grows n) : a.Grows n where
  toSameRegisters := h.toSameRegisters.trans h'.toSameRegisters
  property i := by
    rcases h'.property i with heq | ⟨q, hq, hfrozen⟩
    · rw [heq]
      exact (h.property i).imp_right fun ⟨q, hq, hfrozen⟩ =>
        ⟨q, hq, hfrozen.mono (Nat.le_refl _) h'.supply_le⟩
    · exact .inr ⟨q, hq, hfrozen.mono h.supply_le (Nat.le_refl _)⟩

theorem of_evolves (h : a.Evolves b) : a.Grows b :=
  ⟨h.sameRegisters, fun i => .inl (h.property_eq i)⟩

/-- Whatever scopes are open. -/
theorem scopes (h : a.Grows b) (s s' : ScopeStack) :
    Machine.Grows { a with stack := s } { b with stack := s' } :=
  ⟨⟨h.supply_le, h.providerRegisters_eq, h.propertyRegisters_eq⟩, h.property⟩

/-- A property comes to reproduce a value, unless it does so already. -/
theorem commit (h : a.Grows b) (hq : q.Frozen a.supply b.supply) (i : Identity) (u : Producer) :
    a.Grows (b.setProperty i ((b.property i).commit q u)) where
  toSameRegisters := ⟨h.supply_le, h.providerRegisters_eq, h.propertyRegisters_eq⟩
  property j := by
    by_cases hj : j = i
    · subst hj
      rw [property_setProperty_self]
      by_cases hfin : (b.property j).finalized = true
      · rw [Property.commit_of_finalized hfin]
        exact h.property j
      · rw [Property.commit, if_neg hfin]
        exact .inr ⟨q, rfl, hq⟩
    · rw [property_setProperty_of_ne _ hj]
      exact h.property j

end Machine.Grows

/-- From the machines `a` and `b` to `a'` and `b'` both were read alike. -/
structure Machine.Along (ρ : Pairing) (a b : Machine) (σ : Pairing) (a' b' : Machine) : Prop where
  within : ρ.Within σ
  strips : a'.Strips σ b'
  grows : a.Grows a'
  left_stack : a'.stack = a.stack
  right_stack : b'.stack = b.stack

namespace Machine.Along

theorem refl (h : a.Strips ρ b) : Along ρ a b ρ a b := ⟨.refl ρ, h, .refl a, rfl, rfl⟩

theorem trans (h : Along ρ a b σ a' b') (h' : Along σ a' b' τ a'' b'') : Along ρ a b τ a'' b'' where
  within := h.within.trans h'.within
  strips := h'.strips
  grows := h.grows.trans h'.grows
  left_stack := h'.left_stack.trans h.left_stack
  right_stack := h'.right_stack.trans h.right_stack

/-- An identity is handed out on both machines. -/
theorem fresh (h : a.Strips ρ b) : Along ρ a b (ρ.add a.supply b.supply)
    { a with supply := a.supply + 1 } { b with supply := b.supply + 1 } where
  within := ρ.within_add _ _
  strips := h.fresh
  grows := .of_evolves (.fresh a)
  left_stack := rfl
  right_stack := rfl

/-- An identity is handed out on the first machine. -/
theorem freshLeft (h : a.Strips ρ b) : Along ρ a b ρ { a with supply := a.supply + 1 } b :=
  { refl h with strips := h.freshLeft, grows := .of_evolves (.fresh a) }

/-- A call is counted on both machines. -/
theorem bump (h : a.Strips ρ b) (i j : Identity) : Along ρ a b ρ (a.bump i) (b.bump j) :=
  { refl h with strips := h.bump i j, grows := .of_evolves (.bump a i) }

/-- The scopes that were opened first are closed at the end. -/
theorem close {t' : ScopeStack} (hs : a.Strips ρ b)
    (h : Along ρ { a with stack := t } { b with stack := t' } σ a' b') :
    Along ρ a b σ { a' with stack := a.stack } { b' with stack := b.stack } where
  within := h.within
  strips := h.strips.stack (hs.frames.mono h.within) hs.limit
  grows := h.grows.scopes _ _
  left_stack := rfl
  right_stack := rfl

/-- The scope that was opened on the first machine is closed at the end. -/
theorem closeLeft (hs : a.Strips ρ b) (h : Along ρ { a with stack := t } b σ a' b') :
    Along ρ a b σ { a' with stack := a.stack } b' where
  within := h.within
  strips := { h.strips with
    frames := h.right_stack ▸ hs.frames.mono h.within
    limit := h.right_stack ▸ hs.limit }
  grows := h.grows.scopes _ _
  left_stack := rfl
  right_stack := h.right_stack

/-- In the end a property comes to reproduce a value on both machines. -/
theorem commit (h : Along ρ a b σ a' b') (hpq : p.Strips σ q) (hp : p.Frozen a.supply a'.supply)
    (i : Identity) (u : Producer) :
    Along ρ a b σ (a'.setProperty i ((a'.property i).commit p u))
      (b'.setProperty i ((b'.property i).commit q u)) where
  within := h.within
  strips := h.strips.setProperty i ((h.strips.property i).commit hpq u)
  grows := h.grows.commit hp i u
  left_stack := h.left_stack
  right_stack := h.right_stack

end Machine.Along

/-! ### Computations that are mirrored -/

namespace Eval

/-- The first computation meets the limit, or both end with corresponding results, and the machines
still correspond. -/
def Mirrors {α β : Type} (ρ : Pairing) (a b : Machine) (x : Eval α) (y : Eval β)
    (P : Pairing → α → β → Prop) : Prop :=
  x.MeetsLimit a ∨ ∃ σ v w a' b', x.run engine a = some (v, a') ∧ y.run engine b = some (w, b') ∧
    Machine.Along ρ a b σ a' b' ∧ P σ v w

namespace Mirrors

variable {P : Pairing → α → β → Prop} {Q : Pairing → γ → δ → Prop}

theorem pure (hs : a.Strips ρ b) {v : α} {w : β} (h : P ρ v w) :
    Mirrors ρ a b (Pure.pure v) (Pure.pure w) P :=
  .inr ⟨ρ, v, w, a, b, rfl, rfl, .refl hs, h⟩

/-- Both runs end with corresponding results on machines that correspond. -/
theorem of_run {x : Eval α} {y : Eval β} {v : α} {w : β} (hx : x.run engine a = some (v, a'))
    (hy : y.run engine b = some (w, b')) (h : Machine.Along ρ a b σ a' b') (hP : P σ v w) :
    Mirrors ρ a b x y P :=
  .inr ⟨σ, v, w, a', b', hx, hy, h, hP⟩

theorem imp {P' : Pairing → α → β → Prop} {x : Eval α} {y : Eval β} (h : Mirrors ρ a b x y P)
    (hP : ∀ σ v w, ρ.Within σ → P σ v w → P' σ v w) : Mirrors ρ a b x y P' :=
  h.imp_right fun ⟨σ, v, w, a', b', hx, hy, hab, hv⟩ =>
    ⟨σ, v, w, a', b', hx, hy, hab, hP σ v w hab.within hv⟩

theorem bind {x : Eval α} {y : Eval β} {f : α → Eval γ} {g : β → Eval δ}
    (hxy : Mirrors ρ a b x y P)
    (hfg : ∀ σ a' b' v w, x.run engine a = some (v, a') → Machine.Along ρ a b σ a' b' →
      P σ v w → Mirrors σ a' b' (f v) (g w) Q) :
    Mirrors ρ a b (x >>= f) (y >>= g) Q := by
  rcases hxy with hx | ⟨σ, v, w, a', b', hx, hy, hab, hv⟩
  · exact .inl ((meetsLimit_bind x f).mpr (.inl hx))
  · rcases hfg σ a' b' v w hx hab hv with hf | ⟨τ, v', w', a'', b'', hf, hg, hab', hv'⟩
    · exact .inl ((meetsLimit_bind x f).mpr (.inr ⟨_, hx, hf⟩))
    · exact .inr ⟨τ, v', w', a'', b'', (run_bind_of hx f).trans hf, (run_bind_of hy g).trans hg,
        hab.trans hab', hv'⟩

/-- Parts that are known to end come first. -/
theorem run_bind {x : Eval α} {y : Eval β} {v : α} {w : β} {f : α → Eval γ} {g : β → Eval δ}
    (hx : x.run engine a = some (v, a')) (hy : y.run engine b = some (w, b'))
    (h : Machine.Along ρ a b σ a' b') (hfg : Mirrors σ a' b' (f v) (g w) Q) :
    Mirrors ρ a b (x >>= f) (y >>= g) Q := by
  rcases hfg with hf | ⟨τ, v', w', a'', b'', hf, hg, hab', hv'⟩
  · exact .inl ((meetsLimit_bind x f).mpr (.inr ⟨_, hx, hf⟩))
  · exact .inr ⟨τ, v', w', a'', b'', (run_bind_of hx f).trans hf, (run_bind_of hy g).trans hg,
      h.trans hab', hv'⟩

/-- A scope and its partner are opened. -/
theorem within {refused : Fault → Eval α} {refused' : Fault → Eval β} {x : Eval α} {y : Eval β}
    (hs : a.Strips ρ b) (ho : ρ o.id o'.id) (hopen : a.stack.isOpen o.id = false)
    (hxy : ∀ t t', a.stack.enter o = .ok t →
      Machine.Strips ρ { a with stack := t } { b with stack := t' } →
      Mirrors ρ { a with stack := t } { b with stack := t' } x y P) :
    Mirrors ρ a b (Eval.within o refused x) (Eval.within o' refused' y) P := by
  cases ht : a.stack.enter o with
  | error f => exact .inl (meetsLimit_of_refused hopen ht)
  | ok t =>
    obtain ⟨t', ht', hs'⟩ := hs.enter ho ht
    rcases hxy t t' ht hs' with hx | ⟨σ, v, w, a', b', hx, hy, hab, hv⟩
    · exact .inl ((meetsLimit_within ht).mpr hx)
    · exact .inr ⟨σ, v, w, _, _, run_within_of_stack ht hx hab.left_stack,
        run_within_of_stack ht' hy hab.right_stack, .close hs hab, hv⟩

/-- A scope that only the first computation needs is opened. -/
theorem withinLeft {refused : Fault → Eval α} {x : Eval α} {y : Eval β} (hs : a.Strips ρ b)
    (hopen : a.stack.isOpen o.id = false)
    (hxy : ∀ t, a.stack.enter o = .ok t → Machine.Strips ρ { a with stack := t } b →
      Mirrors ρ { a with stack := t } b x y P) :
    Mirrors ρ a b (Eval.within o refused x) y P := by
  cases ht : a.stack.enter o with
  | error f => exact .inl (meetsLimit_of_refused hopen ht)
  | ok t =>
    rcases hxy t ht (hs.enterLeft ht) with hx | ⟨σ, v, w, a', b', hx, hy, hab, hv⟩
    · exact .inl ((meetsLimit_within ht).mpr hx)
    · exact .inr ⟨σ, v, w, _, _, run_within_of_stack ht hx hab.left_stack, hy,
        .closeLeft hs hab, hv⟩

/-- The first computation asks a question, which is answered by its rule. -/
theorem askLeft {q : Query} {y : Eval β} {P : Pairing → q.Answer → β → Prop}
    (h : Mirrors ρ a b (rule q) y P) : Mirrors ρ a b (.ask q Pure.pure) y P := by
  rcases h with hx | ⟨σ, v, w, a', b', hx, h⟩
  · exact .inl (meetsLimit_ask.mpr (Query.meetsLimit_iff.mpr hx))
  · exact .inr ⟨σ, v, w, a', b', (Ask.run_rule q a).trans hx, h⟩

/-- Both computations ask a question. -/
theorem ask {q q' : Query} {P : Pairing → q.Answer → q'.Answer → Prop}
    (h : Mirrors ρ a b (rule q) (rule q') P) :
    Mirrors ρ a b (.ask q Pure.pure) (.ask q' Pure.pure) P := by
  refine askLeft (h.imp_right ?_)
  rintro ⟨σ, v, w, a', b', hx, hy, h⟩
  exact ⟨σ, v, w, a', b', hx, (Ask.run_rule q' b).trans hy, h⟩

/-- Pure code gives the same result on both machines. -/
theorem act (hs : a.Strips ρ b) {c : Action} (hc : c.Pure) (held : Option Payload) (x : Payload) :
    Mirrors ρ a b (Ask.act c held x) (Ask.act c held x) fun _ r r' => r = r' :=
  .of_run (hc.computes held x a) (hc.computes held x b) (.refl hs) rfl

end Mirrors

end Eval

/-- The same of computations that may fail: they fail alike. -/
abbrev Mirrors {ε α β : Type} (ρ : Pairing) (a b : Machine) (x : ExceptT ε Eval α)
    (y : ExceptT ε Eval β) (P : Pairing → α → β → Prop) : Prop :=
  Eval.Mirrors ρ a b x.run y.run fun σ => SameResult (P σ)

namespace Mirrors

variable {P : Pairing → α → β → Prop} {Q : Pairing → γ → δ → Prop}

theorem pure (hs : a.Strips ρ b) {v : α} {w : β} (h : P ρ v w) :
    Mirrors ρ a b (Pure.pure v : ExceptT ε Eval α) (Pure.pure w) P :=
  Eval.Mirrors.pure hs (.ok h)

theorem throw (hs : a.Strips ρ b) (e : ε) :
    Mirrors ρ a b (MonadExcept.throw e : ExceptT ε Eval α) (MonadExcept.throw e) P :=
  Eval.Mirrors.pure hs (.error e)

theorem bind {x : ExceptT ε Eval α} {y : ExceptT ε Eval β} {f : α → ExceptT ε Eval γ}
    {g : β → ExceptT ε Eval δ} (hxy : Mirrors ρ a b x y P)
    (hfg : ∀ σ a' b' v w, x.run.run engine a = some (.ok v, a') → Machine.Along ρ a b σ a' b' →
      P σ v w → Mirrors σ a' b' (f v) (g w) Q) :
    Mirrors ρ a b (x >>= f) (y >>= g) Q := by
  rw [Mirrors, ExceptT.run_bind, ExceptT.run_bind]
  refine Eval.Mirrors.bind hxy fun σ a' b' r r' hx hab hr => ?_
  cases hr with
  | ok h => exact hfg σ a' b' _ _ hx hab h
  | error e => exact Eval.Mirrors.pure hab.strips (.error e)

/-- A part that cannot fail comes first. -/
theorem liftBind {x : Eval α} {y : Eval β} {f : α → ExceptT ε Eval γ} {g : β → ExceptT ε Eval δ}
    (hxy : Eval.Mirrors ρ a b x y P)
    (hfg : ∀ σ a' b' v w, Machine.Along ρ a b σ a' b' → P σ v w → Mirrors σ a' b' (f v) (g w) Q) :
    Mirrors ρ a b ((liftM x : ExceptT ε Eval α) >>= f) ((liftM y : ExceptT ε Eval β) >>= g) Q := by
  rw [Mirrors, Eval.run_lift_bind, Eval.run_lift_bind]
  exact Eval.Mirrors.bind hxy fun σ a' b' v w _ => hfg σ a' b' v w

theorem lift {x : Eval α} {y : Eval β} (h : Eval.Mirrors ρ a b x y P) :
    Mirrors ρ a b (liftM x : ExceptT ε Eval α) (liftM y : ExceptT ε Eval β) P :=
  Eval.Mirrors.bind h fun _ _ _ _ _ _ hab hv => Eval.Mirrors.pure hab.strips (.ok hv)

theorem property_bind {i : Identity} {f : Property → ExceptT ε Eval γ}
    {g : Property → ExceptT ε Eval δ} (hs : a.Strips ρ b)
    (h : Mirrors ρ a b (f (a.property i)) (g (b.property i)) Q) :
    Mirrors ρ a b ((liftM (Eval.property i) : ExceptT ε Eval Property) >>= f)
      ((liftM (Eval.property i) : ExceptT ε Eval Property) >>= g) Q := by
  rw [Mirrors, Eval.run_lift_bind, Eval.run_lift_bind]
  exact Eval.Mirrors.run_bind (Eval.run_property _ _ _) (Eval.run_property _ _ _) (.refl hs) h

theorem within {x : Attempt α} {y : Attempt β} (hs : a.Strips ρ b) (ho : ρ o.id o'.id)
    (hopen : a.stack.isOpen o.id = false)
    (hxy : ∀ t t', a.stack.enter o = .ok t →
      Machine.Strips ρ { a with stack := t } { b with stack := t' } →
      Mirrors ρ { a with stack := t } { b with stack := t' } x y P) :
    Mirrors ρ a b (ProviderGraph.within o x) (ProviderGraph.within o' y) P :=
  Eval.Mirrors.within hs ho hopen hxy

/-- Where only the first computation opens a scope, the second one mirrors what is run in it. -/
theorem withinLeft {x : Attempt α} {y : Attempt β} (hs : a.Strips ρ b)
    (hopen : a.stack.isOpen o.id = false)
    (hxy : ∀ t, a.stack.enter o = .ok t → Machine.Strips ρ { a with stack := t } b →
      Mirrors ρ { a with stack := t } b x y P) :
    Mirrors ρ a b (ProviderGraph.within o x) y P :=
  Eval.Mirrors.withinLeft hs hopen hxy

theorem of_except (hs : a.Strips ρ b) {r : Except ε α} {r' : Except ε β}
    (h : SameResult (P ρ) r r') :
    Mirrors ρ a b (MonadExcept.ofExcept r : ExceptT ε Eval α) (MonadExcept.ofExcept r') P := by
  cases h with
  | ok h => exact .pure hs h
  | error e => exact .throw hs e

theorem same_except (hs : a.Strips ρ b) (r : Except ε α) :
    Mirrors ρ a b (MonadExcept.ofExcept r : ExceptT ε Eval α) (MonadExcept.ofExcept r)
      fun _ v w => v = w := of_except hs .rfl

/-- Failures of user code are attributed to providers that are shown alike. -/
theorem settle {culprit culprit' : Eval String} {r : Except Failure α} {r' : Except Failure β}
    (hs : a.Strips ρ b) (hr : SameResult (P ρ) r r')
    (htext : Eval.Mirrors ρ a b culprit culprit' fun _ s s' => s = s') :
    Mirrors ρ a b (ProviderGraph.settle culprit r) (ProviderGraph.settle culprit' r') P := by
  cases hr with
  | ok h => exact .pure hs h
  | error e =>
    cases e with
    | fault f => exact .throw hs f
    | rejected message =>
      refine .liftBind htext fun σ a' b' s s' hab h => ?_
      subst h
      exact .throw hab.strips _

theorem action (hs : a.Strips ρ b) {c : Action} (hc : c.Pure) (held : Option Payload)
    (x : Payload) :
    Mirrors ρ a b (Ask.action c held x) (Ask.action c held x) fun _ v w => v = w := by
  refine Eval.Mirrors.imp (.act hs hc held x) fun _ r r' _ h => ?_
  subst h
  exact .rfl

end Mirrors

end ProviderGraph
