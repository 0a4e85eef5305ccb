import ProviderGraph.Proofs.Effect.StrictReadings
import ProviderGraph.Proofs.Finalization.FinalizedMachines

/-!
# Readings side by side

Two readings of the same provider on two machines that have matured since `m`, where more is
finalized on the second one. `KeepsUp` says that the second reading succeeds where the first one
does, unless it comes to a property that held nothing and whose scope cannot be opened
(`Machine.Hinders`): while it held nothing the property could be read without a scope.
-/

namespace ProviderGraph

open Provider (LooksLike)

variable {m a a' b b' n : Machine} {p p' q q' : Provider} {t t' : ScopeStack} {f : Fault}
  {D D' : Identity → Prop} {c : Reading}

/-! ### Providers on machines that have matured -/

/-- The provider may be asked on the machine, and its new identities are not reserved. -/
structure Provider.Stands (m a : Machine) (p : Provider) : Prop extends p.Sits m.supply a where
  matured : m.Matured a
  free : ∀ o ∈ a.stack.frames, ¬ m.Reserved a o.id
  spared : ∃ lo hi, p.Placed m.supply lo hi ∧ hi ≤ a.supply ∧
    ∀ i, m.Reserved a i → lo ≤ i → hi ≤ i

namespace Provider.Stands

theorem later (h : p.Stands m a) (hr : m.Reads D a a') : p.Stands m a' where
  toSits := h.toSits.later hr.supply_le hr.stack_eq
  matured := hr.matured
  free o ho hres := by
    rw [hr.stack_eq] at ho
    rcases hr.reserved _ hres with hres | hle
    · exact h.free o ho hres
    · exact absurd (h.frames o ho) (Nat.not_lt.mpr hle)
  spared := by
    obtain ⟨lo, hi, hp, hhi, hspared⟩ := h.spared
    refine ⟨lo, hi, hp, Nat.le_trans hhi hr.supply_le, fun i hi' hlo => ?_⟩
    rcases hr.reserved i hi' with hres | hle
    · exact hspared i hres hlo
    · exact Nat.le_trans hhi hle

/-- The identity of a provider that may be asked is not reserved. -/
theorem not_reserved (h : p.Stands m a) : ¬ m.Reserved a p.id := by
  intro hres
  obtain ⟨lo, hi, hp, -, hspared⟩ := h.spared
  rcases hp.id with hid | ⟨hlo, hhi⟩
  · exact absurd hid (Nat.not_lt.mpr hres.1)
  · exact absurd hhi (Nat.not_lt.mpr (hspared _ hres hlo))

/-- No scope inside that of the provider is reserved. -/
theorem free_of_enter (h : p.Stands m a) (ht : a.stack.enter p.owner = .ok t) :
    ∀ o ∈ t.frames, ¬ m.Reserved a o.id := by
  intro o ho
  rcases ScopeStack.mem_frames_of_enter ht ho with rfl | ho
  · exact h.not_reserved
  · exact h.free o ho

/-- A part stands inside the scope. -/
theorem part (h : p.Stands m a) (ht : a.stack.enter p.owner = .ok t)
    (hpart : ∀ lo hi, p.Placed m.supply lo hi → q.Placed m.supply lo p.id) :
    q.Stands m { a with stack := t } where
  toSits := h.toSits.part rfl ht hpart
  matured := h.matured.stack t
  free := h.free_of_enter ht
  spared := by
    obtain ⟨lo, hi, hp, hhi, hspared⟩ := h.spared
    refine ⟨lo, p.id, hpart lo hi hp, Nat.le_of_lt h.toSits.id_lt, fun i hres hlo => ?_⟩
    rcases hp.id with hid | ⟨-, hid⟩
    · exact Nat.le_of_lt (Nat.lt_of_lt_of_le hid hres.1)
    · exact Nat.le_of_lt (Nat.lt_of_lt_of_le hid (hspared i hres hlo))

/-- What was built meanwhile does so as well. -/
theorem built (hm : m.Minted) (h : p.Stands m a) (ht : a.stack.enter p.owner = .ok t)
    (hn : a.Evolves a') (hq : q.Placed m.supply a.supply a'.supply) :
    q.Stands m { a' with stack := t } where
  toSits := h.toSits.built rfl hn.supply_le ht hq
  matured := (h.matured.evolves hn).stack t
  free o ho hres := h.free_of_enter ht o ho (hn.reserved_iff.mp hres)
  spared := by
    refine ⟨a.supply, a'.supply, hq, Nat.le_refl _, fun i hres hlo => ?_⟩
    exact absurd ((hn.reserved_iff.mp hres).lt hm h.matured) (Nat.not_lt.mpr hlo)

/-- An old provider stands where the scopes of old ones are open. -/
theorem start (ha : m.Matured a) (hp : p.Minted m.supply)
    (hframes : ∀ o ∈ a.stack.frames, o.id < m.supply) : p.Stands m a where
  toSits := .of_minted hp ha.supply_le fun o ho => Nat.lt_of_lt_of_le (hframes o ho) ha.supply_le
  matured := ha
  free o ho hres := absurd (hframes o ho) (Nat.not_lt.mpr hres.1)
  spared := ⟨m.supply, m.supply, hp.placed, ha.supply_le, fun _ hres _ => hres.1⟩

end Provider.Stands

/-- The provider `p` on the machine `a` and `p'` on `b` are the same but for new identities, the
same scopes are open, and all that is finalized on `a` is finalized on `b`. -/
structure Machine.Abreast (m a : Machine) (p : Provider) (b : Machine) (p' : Provider) :
    Prop where
  left : p.Stands m a
  right : p'.Stands m b
  final (i : Identity) : a.Final i → b.Final i
  looks : p'.blur m.supply = p.blur m.supply
  scopes : b.stack.blur m.supply = a.stack.blur m.supply

/-- Both machines were read on. -/
structure Machine.Both (m : Machine) (D : Identity → Prop) (a b a' b' : Machine) : Prop where
  left : m.Reads D a a'
  right : m.Reads D b b'

namespace Machine.Both

variable {a'' b'' : Machine}

theorem trans (h : m.Both D a b a' b') (h' : m.Both D' a' b' a'' b'') :
    m.Both (fun i => D i ∨ D' i) a b a'' b'' := ⟨h.left.trans h'.left, h.right.trans h'.right⟩

theorem congr (h : m.Both D a b a' b') (hD : ∀ i, D i ↔ D' i) : m.Both D' a b a' b' :=
  ⟨h.left.congr hD, h.right.congr hD⟩

theorem within {s s' : ScopeStack}
    (h : m.Both D { a with stack := s } { b with stack := s' } a' b') :
    m.Both D a b { a' with stack := a.stack } { b' with stack := b.stack } :=
  ⟨h.left.within, h.right.within⟩

end Machine.Both

/-- Since the machines were `a` and `b` what looks like `q₀` was built on both of them. -/
structure Machine.Built (m a b a' b' : Machine) (q₀ q q' : Provider) : Prop where
  left : a.Evolves a'
  right : b.Evolves b'
  left_stack : a'.stack = a.stack
  right_stack : b'.stack = b.stack
  left_looks : q.LooksLike m.supply a.supply a'.supply q₀
  right_looks : q'.LooksLike m.supply b.supply b'.supply q₀

namespace Machine.Abreast

/-- On one machine a provider is abreast with itself. -/
theorem self (h : p.Stands m a) : m.Abreast a p a p := ⟨h, h, fun _ => id, rfl, rfl⟩

theorem later (h : m.Abreast a p b p') (hr : m.Both D a b a' b') : m.Abreast a' p b' p' where
  left := h.left.later hr.left
  right := h.right.later hr.right
  final i hi := by
    rw [hr.right.final_iff]
    exact ((hr.left.final_iff i).mp hi).imp_left (h.final i)
  looks := h.looks
  scopes := by rw [hr.left.stack_eq, hr.right.stack_eq, h.scopes]

/-- Nothing was finalized meanwhile. -/
theorem both (h : m.Abreast a p b p') (ha : a.Evolves a') (hs : a'.stack = a.stack)
    (hb : b.Evolves b') (hs' : b'.stack = b.stack) (hD : ∀ i, ¬ D i) : m.Both D a b a' b' where
  left := .evolves h.left.matured ha hs fun i hi => absurd hi (hD i)
  right := .evolves h.right.matured hb hs' fun i hi => absurd hi (hD i)

/-- Machines on which nothing was read were read alike. -/
theorem rest (h : m.Abreast a p b p') (hD : ∀ i, ¬ D i) : m.Both D a b a b :=
  h.both (.refl a) rfl (.refl b) rfl hD

/-- Building the same on both machines finalizes nothing. -/
theorem bothBuilt {q₀ : Provider} (h : m.Abreast a p b p') (hq : m.Built a b a' b' q₀ q q') :
    m.Both (fun _ => False) a b a' b' :=
  h.both hq.left hq.left_stack hq.right hq.right_stack fun _ => id

/-- Both scopes can be opened, or none of them. -/
theorem enter (h : m.Abreast a p b p') (ht : a.stack.enter p.owner = .ok t) :
    ∃ t', b.stack.enter p'.owner = .ok t' ∧ t'.blur m.supply = t.blur m.supply := by
  have heq := h.right.toSits.enter_blur
  rw [h.scopes, h.looks, h.left.toSits.enter_blur, ht] at heq
  exact map_eq_ok_iff.mp heq.symm

section Scope

variable (h : m.Abreast a p b p') (ht : a.stack.enter p.owner = .ok t)
  (ht' : b.stack.enter p'.owner = .ok t') (hs : t'.blur m.supply = t.blur m.supply)

include h ht ht' hs

/-- Parts that look alike may be asked inside both scopes. -/
theorem part (hlooks : q'.blur m.supply = q.blur m.supply)
    (hpart : ∀ lo hi, p.Placed m.supply lo hi → q.Placed m.supply lo p.id)
    (hpart' : ∀ lo hi, p'.Placed m.supply lo hi → q'.Placed m.supply lo p'.id) :
    m.Abreast { a with stack := t } q { b with stack := t' } q' where
  left := h.left.part ht hpart
  right := h.right.part ht' hpart'
  final := h.final
  looks := hlooks
  scopes := hs

/-- What was built on both machines may be asked inside both scopes. -/
theorem built (hm : m.Minted) {q₀ : Provider} (hq : m.Built a b a' b' q₀ q q') :
    m.Abreast { a' with stack := t } q { b' with stack := t' } q' where
  left := h.left.built hm ht hq.left hq.left_looks.placed
  right := h.right.built hm ht' hq.right hq.right_looks.placed
  final i hi := by
    have hai : a'.Final i := hi
    show b'.Final i
    rw [Final, hq.left.property_eq] at hai
    rw [Final, hq.right.property_eq]
    exact h.final i hai
  looks := hq.right_looks.blur_eq.trans hq.left_looks.blur_eq.symm
  scopes := hs

/-- What a property has held from the start. -/
theorem held (hm : m.Minted) (hq : q.Minted m.supply) :
    m.Abreast { a with stack := t } q { b with stack := t' } q :=
  h.built ht ht' hs hm {
    left := .refl a
    right := .refl b
    left_stack := rfl
    right_stack := rfl
    left_looks := ⟨hq.blur_eq, hq.placed⟩
    right_looks := ⟨hq.blur_eq, hq.placed⟩ }

end Scope

end Machine.Abreast

/-! ### Computations side by side -/

/-- While the question is answered on the machine `k` a property is read that held nothing on `m`
and has been finalized since, and its scope cannot be opened. -/
def Machine.Hinders (m : Machine) (q : Query) (k : Machine) (f : Fault) : Prop :=
  ∃ (r : PropertyRef) (c : Reading) (n : Machine), Brings q k (.ownValue (.property r) c) n ∧
    (m.property r.id).effective = none ∧ ¬ m.Final r.id ∧ n.Final r.id ∧
    n.stack.enter (Provider.property r).owner = .error f

/-- What hinders a question that comes up hinders the one it comes from. -/
theorem Machine.Hinders.raised {q q₁ : Query} (h : (rule q).Raises a q₁ b)
    (hf : m.Hinders q₁ b f) : m.Hinders q a f := by
  obtain ⟨r, c, n, hb, hn⟩ := hf
  exact ⟨r, c, n, .raised h hb, hn⟩

/-- The computation comes to such a property. -/
def Attempt.Hindered {α : Type} (m : Machine) (x : Attempt α) (b : Machine) (f : Fault) : Prop :=
  ∃ q k, x.run.Raises b q k ∧ m.Hinders q k f

/-- Where the first computation ends without fault the second one does, with the property `P` of
both ends, or it is hindered. -/
def KeepsUp {α β : Type} (m : Machine) (x : Attempt α) (a : Machine) (y : Attempt β) (b : Machine)
    (P : Machine → Machine → α → β → Prop) : Prop :=
  ∀ v a', x.run.run engine a = some (.ok v, a') →
    (∃ w b', y.run.run engine b = some (.ok w, b') ∧ P a' b' v w) ∨
      ∃ f b', y.run.run engine b = some (.error f, b') ∧ y.Hindered m b f

namespace KeepsUp

variable {α β γ δ : Type} {x : Attempt α} {y : Attempt β} {P : Machine → Machine → α → β → Prop}

theorem pure {v : α} {w : β} (h : P a b v w) :
    KeepsUp m (Pure.pure v : Attempt α) a (Pure.pure w : Attempt β) b P := by
  intro v' a' hrun
  cases hrun
  exact .inl ⟨w, b, rfl, h⟩

theorem bind {g : α → Attempt γ} {h : β → Attempt δ} {Q : Machine → Machine → γ → δ → Prop}
    (hxy : KeepsUp m x a y b P) (hgh : ∀ a' b' v w, P a' b' v w → KeepsUp m (g v) a' (h w) b' Q) :
    KeepsUp m (x >>= g) a (y >>= h) b Q := by
  intro z a'' hrun
  obtain ⟨v, a', hx, hg⟩ := Eval.run_bindExcept_ok hrun
  rcases hxy v a' hx with ⟨w, b', hy, hP⟩ | ⟨f, b', hy, q, k, hraises, hf⟩
  · rcases hgh a' b' v w hP z a'' hg with ⟨u, b'', hh, hQ⟩ | ⟨f, b'', hh, q, k, hraises, hf⟩
    · exact .inl ⟨u, b'', (Eval.run_bind_ok hy h).trans hh, hQ⟩
    · refine .inr ⟨f, b'', (Eval.run_bind_ok hy h).trans hh, q, k, ?_, hf⟩
      exact Eval.raises_bindExcept.mpr (.inr ⟨w, b', hy, hraises⟩)
  · refine .inr ⟨f, b', Eval.run_bind_error hy h, q, k, ?_, hf⟩
    exact Eval.raises_bindExcept.mpr (.inl hraises)

theorem imp {Q : Machine → Machine → α → β → Prop} (h : KeepsUp m x a y b P)
    (hPQ : ∀ a' b' v w, P a' b' v w → Q a' b' v w) : KeepsUp m x a y b Q := by
  intro v a' hrun
  exact (h v a' hrun).imp_left fun ⟨w, b', hy, hP⟩ => ⟨w, b', hy, hPQ a' b' v w hP⟩

/-- Computations that are known to end. -/
theorem of_runs {v : α} {w : β} (hx : x.run.run engine a = some (.ok v, a'))
    (hy : y.run.run engine b = some (.ok w, b')) (h : P a' b' v w) : KeepsUp m x a y b P := by
  intro v' a'' hrun
  cases hx.symm.trans hrun
  exact .inl ⟨w, b', hy, h⟩

/-- Beside itself a computation is not hindered where it ends without fault. -/
theorem of_self {P : Machine → Machine → α → α → Prop} {v : α} (h : KeepsUp m x a x a P)
    (hx : x.run.run engine a = some (.ok v, a')) : P a' a' v v := by
  rcases h v a' hx with ⟨w, b', hrun, hP⟩ | ⟨f, b', hrun, -⟩
  · cases hx.symm.trans hrun
    exact hP
  · cases hx.symm.trans hrun

/-- The second computation is known to end. -/
theorem of_right {P : Machine → Machine → α → α → Prop} {Q : Machine → Machine → α → β → Prop}
    {w : β} (h : KeepsUp m x a x a P) (hy : y.run.run engine b = some (.ok w, b'))
    (hPQ : ∀ a' v, P a' a' v v → Q a' b' v w) : KeepsUp m x a y b Q :=
  fun v a' hx => .inl ⟨w, b', hy, hPQ a' v (h.of_self hx)⟩

/-- Parts that cannot fail. -/
theorem lift_bind {x : Eval α} {y : Eval β} {v : α} {w : β} {g : α → Attempt γ} {h : β → Attempt δ}
    {Q : Machine → Machine → γ → δ → Prop} (hx : x.run engine a = some (v, a'))
    (hy : y.run engine b = some (w, b')) (hgh : KeepsUp m (g v) a' (h w) b' Q) :
    KeepsUp m ((liftM x : Attempt α) >>= g) a ((liftM y : Attempt β) >>= h) b Q := by
  refine .bind (P := fun a₁ b₁ v₁ w₁ => a₁ = a' ∧ b₁ = b' ∧ v₁ = v ∧ w₁ = w)
    (.of_runs (Eval.run_bind_of hx _) (Eval.run_bind_of hy _) ⟨rfl, rfl, rfl, rfl⟩) ?_
  rintro _ _ _ _ ⟨rfl, rfl, rfl, rfl⟩
  exact hgh

theorem property_bind {i : Identity} {g : Property → Attempt γ} {h : Property → Attempt δ}
    {Q : Machine → Machine → γ → δ → Prop}
    (hgh : KeepsUp m (g (a.property i)) a (h (b.property i)) b Q) :
    KeepsUp m ((liftM (Eval.property i) : Attempt Property) >>= g) a
      ((liftM (Eval.property i) : Attempt Property) >>= h) b Q :=
  .lift_bind (Eval.run_property _ _ _) (Eval.run_property _ _ _) hgh

/-- Inside both scopes one computation keeps up with the other. -/
theorem inside {o o' : Owner}
    (hxy : ∀ t, a.stack.enter o = .ok t → ∃ t', b.stack.enter o' = .ok t' ∧
      KeepsUp m x { a with stack := t } y { b with stack := t' } fun a₁ b₁ v w =>
        a₁.stack = t ∧ b₁.stack = t' ∧
          P { a₁ with stack := a.stack } { b₁ with stack := b.stack } v w) :
    KeepsUp m (within o x) a (within o' y) b P := by
  intro v a' hrun
  cases ht : a.stack.enter o with
  | error f => cases (Eval.run_within_error ht rfl).symm.trans hrun
  | ok t =>
    obtain ⟨t', ht', hbody⟩ := hxy t ht
    obtain ⟨⟨r, a₁⟩, hx, hend⟩ :=
      Option.map_eq_some_iff.mp ((Eval.run_within_eq ht).symm.trans hrun)
    obtain ⟨rfl, rfl⟩ := Prod.mk.inj hend
    rcases hbody v a₁ hx with ⟨w, b₁, hy, hs, hs', hP⟩ | ⟨f, b₁, hy, q, k, hraises, hf⟩
    · refine .inl ⟨w, _, Eval.run_within_of_stack ht' hy hs', ?_⟩
      rw [show a₁.stack.leave o.id = a.stack by rw [hs, ScopeStack.leave_of_enter _ _ ht]]
      exact hP
    · refine .inr ⟨f, { b₁ with stack := b₁.stack.leave o'.id }, ?_, q, k, ?_, hf⟩
      · exact (Eval.run_within_eq ht').trans (congrArg (Option.map _) hy)
      · exact Eval.raises_within.mpr ⟨t', ht', hraises⟩

/-- What is asked for is found by its rule, and what the rule comes to the question comes to. -/
theorem asked {q : Query} {x₀ : Attempt α} {y₀ : Attempt β}
    (hx : x.run.run engine a = x₀.run.run engine a) (hy : y.run.run engine b = y₀.run.run engine b)
    (hq : y.run.Raises b q b) (hrule : ∀ q' k, y₀.run.Raises b q' k → (rule q).Raises b q' k)
    (h : KeepsUp m x₀ a y₀ b P) : KeepsUp m x a y b P := by
  intro v a' hrun
  rcases h v a' (hx.symm.trans hrun) with ⟨w, b', hy', hP⟩ | ⟨f, b', hy', q', k, hq', hf⟩
  · exact .inl ⟨w, b', hy.trans hy', hP⟩
  · exact .inr ⟨f, b', hy.trans hy', q, b, hq, hf.raised (hrule q' k hq')⟩

/-- The value is found if the rule for values finds it. -/
theorem ownValue {c c' : Reading} {P : Machine → Machine → Outcome → Outcome → Prop}
    (h : KeepsUp m (evalValue p c) a (evalValue p' c') b P) :
    KeepsUp m (Ask.ownValue p c) a (Ask.ownValue p' c') b P :=
  h.asked (Ask.run_rule _ _) (Ask.run_rule _ _) (Eval.raises_ask.mpr ⟨rfl, rfl⟩) fun _ _ => id

/-- The producers are found if the rule for producers finds them. -/
theorem producer {P : Machine → Machine → Producer → Producer → Prop}
    (h : KeepsUp m (evalProducer p) a (evalProducer p') b P) :
    KeepsUp m (Ask.producer p) a (Ask.producer p') b P :=
  h.asked (Ask.run_rule _ _) (Ask.run_rule _ _) (Eval.raises_ask.mpr ⟨rfl, rfl⟩) fun _ _ => id

/-- The property is finalized if the rule for finalizations finalizes it. -/
theorem finalize {r : PropertyRef} {P : Machine → Machine → Unit → Unit → Prop}
    (h : KeepsUp m (evalFinalize r) a (evalFinalize r) b P) :
    KeepsUp m (Ask.finalize r) a (Ask.finalize r) b P :=
  h.asked (Ask.run_rule _ _) (Ask.run_rule _ _) (Eval.raises_ask.mpr ⟨rfl, rfl⟩) fun _ _ => id

/-! ### Calls -/

/-- A result that is settled was no failure. -/
theorem settle {culprit culprit' : Eval String} (r : Except Failure α) :
    KeepsUp m (ProviderGraph.settle culprit r) a (ProviderGraph.settle culprit' r) b
      fun a' b' v w => a' = a ∧ b' = b ∧ w = v ∧ r = .ok v := by
  cases r with
  | ok v => exact .pure ⟨rfl, rfl, rfl, rfl⟩
  | error failure =>
    intro v a' hrun
    exact absurd hrun (run_settle_error failure)

section Abreast

variable (h : m.Abreast a p b p')

include h

theorem freshUndefined (type : PayloadType) (path : List String) :
    KeepsUp m (liftM (ProviderGraph.freshUndefined type path) : Attempt Provider) a
      (liftM (ProviderGraph.freshUndefined type path) : Attempt Provider) b fun a' b' q q' =>
        m.Built a b a' b' (.undefined m.supply type path) q q' := by
  have hrun (n : Machine) :
      (liftM (ProviderGraph.freshUndefined type path) : Attempt Provider).run.run engine n =
        some (.ok (.undefined n.supply type path), { n with supply := n.supply + 1 }) := rfl
  refine .of_runs (hrun a) (hrun b)
    ⟨.fresh a, .fresh b, rfl, rfl, ⟨?_, .supply (Nat.le_refl _)⟩, ⟨?_, .supply (Nat.le_refl _)⟩⟩
  · rw [Provider.blur, Nat.min_eq_right h.left.matured.supply_le]
  · rw [Provider.blur, Nat.min_eq_right h.right.matured.supply_le]

/-- A pure transform gives the same on both machines. -/
theorem applyTransform {f : Closure} (hf : f.code.Pure) (x : Payload) :
    KeepsUp m (applyTransform p f x) a (applyTransform p' f x) b
      fun a' b' y z => a' = a ∧ b' = b ∧ z = y ∧ f.code.result f.held x = .ok y := by
  have hact (n : Machine) : (ExceptT.lift (Ask.act f.code f.held x) : Attempt _).run.run engine n =
      some (.ok (f.code.result f.held x), n) := Eval.run_bind_of (hf.computes f.held x n) _
  refine .bind (P := fun a' b' r r' => a' = a ∧ b' = b ∧ r = f.code.result f.held x ∧ r' = r)
    (.inside fun t ht => ?_) ?_
  · obtain ⟨t', ht', -⟩ := h.enter ht
    exact ⟨t', ht', .of_runs (hact _) (hact _) ⟨rfl, rfl, rfl, rfl, rfl, rfl⟩⟩
  · rintro _ _ _ _ ⟨rfl, rfl, rfl, rfl⟩
    exact .settle _

/-- Both go on with what the recipe plans on `m`, with new identities. -/
theorem chooseNext (hm : m.Minted) {choice : Recipe} (hc : choice.Pure) (type : PayloadType)
    (x : Payload) (e : Option Effect) :
    KeepsUp m (chooseNext p choice type (.present x e)) a
      (chooseNext p' choice type (.present x e)) b
      fun a' b' q q' => ∃ q₀, Provider.chosen m choice type x (SideEffect.boundTo x e) = .ok q₀ ∧
        m.Built a b a' b' q₀ q q' := by
  intro q a' hrun
  have hq := chosen_of_run_chooseNext hm h.left.matured.sameRegisters hc hrun
  cases ht : a.stack.enter p.owner with
  | error f =>
    obtain ⟨r, o, hwithin, -⟩ := Eval.run_bindExcept_ok hrun
    exact nomatch (Eval.run_within_error ht rfl).symm.trans hwithin
  | ok t =>
    obtain ⟨t', ht', -⟩ := h.enter ht
    obtain ⟨_, _, hrun₁, ho, hs, hlooks⟩ :=
      run_chooseNext_of_chosen hm h.left.matured.sameRegisters hc ht hq
    cases hrun.symm.trans hrun₁
    obtain ⟨q', b', hrun', hb, hsb, hlooks'⟩ :=
      run_chooseNext_of_chosen hm h.right.matured.sameRegisters hc ht' hq
    exact .inl ⟨q', b', hrun', _, hq, ho, hb, hs, hsb, hlooks, hlooks'⟩

end Abreast

end KeepsUp

end ProviderGraph
