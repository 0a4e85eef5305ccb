import ProviderGraph.Proofs.Query.NodelessGraphs

/-!
# Presence and value

Whether a provider is present is found out by a recursion of its own, which stops earlier than that
of the value where it can. On a graph without outputs of work nodes it ends as the lenient value
does: it tells whether that is there, or fails with the same fault
(`presence_tells_of_the_value`).
-/

namespace ProviderGraph

open Provider (LooksLike)

variable {R : Region} {m n : Machine} {p q base : Provider} {s t : ScopeStack} {f : Fault}
  {c : Reading} {r : Except Fault Outcome} {v : Outcome}

/-! ### Results on drifted machines -/

/-- The computation ends with the result, on a machine that has only drifted, and with the scopes
open that were open. -/
def Attempt.Gives {α : Type} (x : Attempt α) (m : Machine) (r : Except Fault α) : Prop :=
  ∃ n, x.run.run engine m = some (r, n) ∧ m.Drifts n ∧ n.stack = m.stack

namespace Attempt.Gives

variable {α β : Type} {x y : Attempt α} {a : α} {b : Except Fault β} {g : α → Attempt β}

theorem pure (a : α) : Gives (Pure.pure a) m (.ok a) := ⟨m, rfl, .refl m, rfl⟩

/-- After a success the rest of a computation gives what it gives. -/
theorem bind_run (hx : x.run.run engine m = some (.ok a, n)) (hn : m.Drifts n)
    (hs : n.stack = m.stack) (hg : (g a).Gives n b) : (x >>= g).Gives m b := by
  obtain ⟨o, hrun, ho, hs'⟩ := hg
  exact ⟨o, (Eval.run_bind_ok hx g).trans hrun, hn.trans ho, hs'.trans hs⟩

theorem bind (hx : x.Gives m (.ok a))
    (hg : ∀ n, m.Drifts n → n.stack = m.stack → (g a).Gives n b) : (x >>= g).Gives m b := by
  obtain ⟨n, hrun, hn, hs⟩ := hx
  exact bind_run hrun hn hs (hg n hn hs)

/-- A failure is the end of a computation. -/
theorem bind_error (hx : x.Gives m (.error f)) : (x >>= g).Gives m (.error f) := by
  obtain ⟨n, hrun, hn, hs⟩ := hx
  exact ⟨n, Eval.run_bind_error hrun g, hn, hs⟩

/-- The result of a part corresponds to one that is the same wherever the part runs. -/
theorem bind_same {γ : Type} {P : Machine → α → γ → Prop} {o : Except Fault γ}
    (hx : ∃ a n, x.run.run engine m = some (a, n) ∧ m.Drifts n ∧ n.stack = m.stack ∧
      SameResult (P n) a o)
    (hf : ∀ f, o = .error f → b = .error f)
    (hg : ∀ a c n, o = .ok c → m.Drifts n → n.stack = m.stack → P n a c → (g a).Gives n b) :
    (x >>= g).Gives m b := by
  obtain ⟨a, n, hrun, hn, hs, hsame⟩ := hx
  cases hsame with
  | ok h => exact bind_run hrun hn hs (hg _ _ n rfl hn hs h)
  | error f =>
    rw [hf f rfl]
    exact bind_error ⟨n, hrun, hn, hs⟩

/-- What is found is passed on. -/
theorem map {a : Except Fault α} (hx : x.Gives m a) (h : α → β) :
    (do return h (← x) : Attempt β).Gives m (a.map h) := by
  cases a with
  | ok a => exact hx.bind fun n _ _ => .pure _
  | error f => exact hx.bind_error

theorem of_run {a : Except Fault α} (hx : x.Gives m a)
    (h : y.run.run engine m = x.run.run engine m) : y.Gives m a := by
  obtain ⟨n, hrun, hn⟩ := hx
  exact ⟨n, h.trans hrun, hn⟩

theorem of_agrees {a : Except Fault α} (hx : Agrees x m a fun _ b c => b = c) : x.Gives m a := by
  obtain ⟨b, n, hrun, hn, hs, hsame⟩ := hx
  obtain rfl := hsame.eq
  exact ⟨n, hrun, hn.drifts, hs⟩

end Attempt.Gives

/-! ### Providers that stand for others -/

/-- On the drifted machine `n` the provider `p` may be asked as `q` could be asked on `m` with the
scopes of `s` open. -/
structure Provider.StandsFor (m : Machine) (p : Provider) (n : Machine) (q : Provider)
    (s : ScopeStack) : Prop extends p.Sits m.supply n where
  drifts : m.Drifts n
  looks : p.blur m.supply = q
  scopes : n.stack.blur m.supply = s

namespace Provider.StandsFor

variable {k : Machine} {t' : ScopeStack} {p' q' : Provider} {α : Type} {x : Attempt α}

theorem later (h : p.StandsFor m n q s) (hk : n.Drifts k) (hs : k.stack = n.stack) :
    p.StandsFor m k q s where
  toSits := h.toSits.later hk.supply_le hs
  drifts := h.drifts.trans hk
  looks := h.looks
  scopes := hs ▸ h.scopes

/-- The scope can be opened on the drifted machine where it can be opened at rest. -/
theorem enter_eq (h : p.StandsFor m n q s) :
    m.enter s q.owner = (n.stack.enter p.owner).map (ScopeStack.blur m.supply) := by
  rw [← h.looks, ← h.scopes]
  exact h.toSits.enter_blur

/-- Where the scope cannot be opened at rest nothing is found in it. -/
theorem within_error (h : p.StandsFor m n q s) (ht : m.enter s q.owner = .error f) :
    (within p.owner x).Gives n (.error f) := by
  rw [h.enter_eq] at ht
  cases hs : n.stack.enter p.owner with
  | ok t =>
    rw [hs] at ht
    cases ht
  | error f' =>
    rw [hs] at ht
    cases ht
    exact ⟨n, Eval.run_within_error hs rfl, .refl n, rfl⟩

theorem exists_enter (h : p.StandsFor m n q s) (ht : m.enter s q.owner = .ok t) :
    ∃ t', n.stack.enter p.owner = .ok t' ∧ t'.blur m.supply = t := by
  rw [h.enter_eq] at ht
  exact map_eq_ok_iff.mp ht

/-- A part stands for the part at rest inside the scope. -/
theorem part (h : p.StandsFor m n q s) (ht : n.stack.enter p.owner = .ok t')
    (hlooks : p'.blur m.supply = q')
    (hpart : ∀ lo hi, p.Placed m.supply lo hi → p'.Placed m.supply lo p.id) :
    p'.StandsFor m { n with stack := t' } q' (t'.blur m.supply) where
  toSits := h.toSits.part rfl ht hpart
  drifts := h.drifts.stack t'
  looks := hlooks
  scopes := rfl

/-- What was built meanwhile does so as well. -/
theorem built (h : p.StandsFor m n q s) (ht : n.stack.enter p.owner = .ok t') (hk : n.Drifts k)
    (hp' : p'.LooksLike m.supply n.supply k.supply q') :
    p'.StandsFor m { k with stack := t' } q' (t'.blur m.supply) where
  toSits := h.toSits.built rfl hk.supply_le ht hp'.placed
  drifts := (h.drifts.trans hk).stack t'
  looks := hp'.blur_eq
  scopes := rfl

theorem within (h : p.StandsFor m n q s) (ht : m.enter s q.owner = .ok t) {a : Except Fault α}
    (hx : ∀ t', n.stack.enter p.owner = .ok t' → t'.blur m.supply = t →
      x.Gives { n with stack := t' } a) : (within p.owner x).Gives n a := by
  obtain ⟨t', ht', hblur⟩ := h.exists_enter ht
  obtain ⟨o, hrun, ho, hs⟩ := hx t' ht' hblur
  exact ⟨{ o with stack := n.stack }, Eval.run_within_of_stack ht' hrun hs,
    .trans ((Machine.Drifts.refl n).stack t') (ho.stack _), rfl⟩

variable (hm : m.Minted)

include hm

/-- The text on the drifted machine is the one at rest. -/
theorem run_text (h : p.StandsFor m n q s) :
    (Ask.text p).run engine n = some (m.text q q.kind s, n) := by
  rw [← h.looks, ← h.scopes, Provider.kind_blur]
  exact (Eval.run_ask _ _ _).trans (h.toSits.engine_text hm h.drifts.property_eq p.kind)

/-- Code that is called in the scope. -/
theorem calls {α β : Type} {P : Identity → α → β → Prop} {y : UserCode α} {b : Except Failure β}
    (h : p.StandsFor m n q s) (ht : n.stack.enter p.owner = .ok t')
    (hy : Agrees y { n with stack := t' } b P) :
    Agrees (ProviderGraph.within p.owner (ExceptT.lift y.run) >>= settle (Ask.text p)) n
      (blame (m.text q q.kind s) b) P :=
  .bind (r := .ok b) (g := blame _) (.withinLift ht hy) fun _ _ _ hk hs _ hab =>
    .settle ((h.later hk.drifts hs).run_text hm) hab

/-- A pure transform gives what it gives at rest. -/
theorem applies (h : p.StandsFor m n q s) (ht : m.enter s q.owner = .ok t) {g : Closure}
    (hg : g.code.Pure) (y : Payload) :
    (applyTransform p g y).Gives n (blame (m.text q q.kind s) (g.code.result g.held y)) := by
  obtain ⟨t', ht', -⟩ := h.exists_enter ht
  exact .of_agrees (h.calls hm ht' (.action hg y))

end Provider.StandsFor

/-! ### What a provider tells -/

/-- Asked for its value the provider gives `r`, and asked whether it is present it tells of `r`,
wherever it is asked with the scopes of `s` open. -/
def Provider.Tells (m : Machine) (q : Provider) (s : ScopeStack) (r : Except Fault Outcome) : Prop :=
  ∀ (n : Machine) (p : Provider), p.StandsFor m n q s → (Ask.ownValue p .lenient).Gives n r ∧
    ∀ c, (Ask.presence p c).Gives n (r.map fun v => !v.isMissing)

/-- The provider `q'` tells of `r` when it is asked inside the scope of `q`, if that can be
opened. -/
def Provider.TellsInside (m : Machine) (q' q : Provider) (s : ScopeStack)
    (r : Except Fault Outcome) : Prop :=
  ∀ (n : Machine) (p p' : Provider), p.StandsFor m n q s →
    (∀ t, n.stack.enter p.owner = .ok t →
      p'.StandsFor m { n with stack := t } q' (t.blur m.supply)) →
    (within p.owner (Ask.value p' .lenient)).Gives n r ∧
      ∀ c, (within p.owner (Ask.presence p' c)).Gives n (r.map fun v => !v.isMissing)

namespace Provider.Tells

/-- What is asked for is found by its rule. -/
theorem of_rules (h : ∀ n (p : Provider), p.StandsFor m n q s → (evalValue p .lenient).Gives n r ∧
    ∀ c, (evalPresence p c).Gives n (r.map fun v => !v.isMissing)) : q.Tells m s r :=
  fun n p hp => ⟨(h n p hp).1.of_run (Ask.run_rule _ _),
    fun c => ((h n p hp).2 c).of_run (Ask.run_rule _ _)⟩

/-- Presence is told by the value where it is evaluated. -/
theorem of_value (h : ∀ n (p : Provider), p.StandsFor m n q s → (evalValue p .lenient).Gives n r ∧
    ∀ c, evalPresence p c = evaluatedPresence p) : q.Tells m s r := by
  refine of_rules fun n p hp => ⟨(h n p hp).1, fun c => ?_⟩
  rw [(h n p hp).2 c]
  exact ((h n p hp).1.of_run (Ask.run_rule (.ownValue p .lenient) n)).map _

/-- What a provider tells it tells inside the scope of another one, unless that cannot be
opened. -/
theorem exists_inside {q' : Provider}
    (h : ∀ t, m.enter s q.owner = .ok t → ∃ r, q'.Tells m t r) :
    ∃ r, q'.TellsInside m q s r ∧ ∀ v, r = .ok v → ∃ t, m.enter s q.owner = .ok t := by
  cases ht : m.enter s q.owner with
  | error f =>
    refine ⟨.error f, fun n p p' hp _ => ⟨?_, fun c => ?_⟩, nofun⟩
    · exact hp.within_error ht
    · exact hp.within_error ht
  | ok t =>
    obtain ⟨r, hr⟩ := h t ht
    refine ⟨r.map (·.push q'.declaredName), fun n p p' hp hp' => ?_, fun _ _ => ⟨t, rfl⟩⟩
    have inside (t' : ScopeStack) (ht' : n.stack.enter p.owner = .ok t')
        (hblur : t'.blur m.supply = t) : p'.StandsFor m { n with stack := t' } q' t :=
      hblur ▸ hp' t' ht'
    refine ⟨hp.within ht fun t' ht' hblur => ?_, fun c => hp.within ht fun t' ht' hblur => ?_⟩
    · rw [← (inside t' ht' hblur).looks, Provider.declaredName_blur]
      exact (hr _ p' (inside t' ht' hblur)).1.map _
    · have hpresence := (hr _ p' (inside t' ht' hblur)).2 c
      cases r with
      | ok v => simpa [Except.map] using hpresence
      | error f => exact hpresence

end Provider.Tells

/-! ### Rules -/

section Rules

open Provider (Tells)

variable {i : Identity} {type : PayloadType} {rb rl rr : Except Fault Outcome}

theorem tells_fixed (x : Payload) : (Provider.fixed i x).Tells m s (.ok (.present x none)) := by
  refine .of_rules fun n p h => ?_
  obtain ⟨j, rfl⟩ := Provider.exists_fixed_of_blur h.looks
  exact ⟨.pure _, fun c => .pure _⟩

theorem tells_undefined (path : List String) :
    (Provider.undefined i type path).Tells m s (.ok (.missing path)) := by
  refine .of_rules fun n p h => ?_
  obtain ⟨j, rfl⟩ := Provider.exists_undefined_of_blur h.looks
  exact ⟨.pure _, fun c => .pure _⟩

/-- A steady call is settled alike each time. -/
theorem Calls.Steady.gives {calls : Calls} {a : Except Failure (Option Payload)}
    (hc : calls.Steady a) (name : String) {g : Option Payload → Attempt Outcome}
    {g' : Option Payload → Outcome} (hg : ∀ y, g y = pure (g' y)) :
    (do g (← settle (pure name) (← nextCall calls)) : Attempt Outcome).Gives n
      ((blame name a).map g') := by
  have hsettle : (do settle (pure name) (← nextCall calls) : Attempt (Option Payload)).Gives n
      (blame name a) :=
    .of_agrees (.lift_bind hc.run_nextCall (.bump n _) rfl (.settle rfl .rfl))
  rw [← bind_assoc, show g = fun y => pure (g' y) from funext hg]
  exact hsettle.map g'

/-- A leaf tells of the result of its calls. The reading makes no difference to it. -/
theorem tells_changing {calls : Calls} {a : Except Failure (Option Payload)}
    (hc : calls.Steady a) : (Provider.changing i type none calls).Tells m s
      ((blame "changing" a).map Value.ofOption) := by
  refine .of_rules fun n p h => ?_
  obtain ⟨j, calls', rfl, rfl⟩ := Provider.exists_changing_of_blur h.looks
  have hc' : calls'.Steady a := hc
  have hvalue (c : Reading) : (evalValue (.changing j type none calls') c).Gives n
      ((blame "changing" a).map Value.ofOption) :=
    hc'.gives "changing" fun _ => rfl
  exact ⟨hvalue .lenient, fun c => ((hvalue c).of_run (Ask.run_rule (.ownValue _ c) n)).map _⟩

/-- A custom provider that has no presence of its own. -/
theorem tells_custom {form : CustomForm} (hform : form.kind = .plain) {producer : Producer}
    {calls : Calls} {a : Except Failure (Option Payload)} (hc : calls.Steady a)
    {effect : Option Effect} : (Provider.custom i form producer calls effect).Tells m s
      ((blame form.label a).map fun
        | some x => .present x effect
        | none => .missing form.path) := by
  refine .of_value fun n p h => ?_
  obtain ⟨j, calls', rfl, rfl⟩ := Provider.exists_custom_of_blur h.looks
  have hc' : calls'.Steady a := hc
  refine ⟨?_, fun c => ?_⟩
  · refine .bind ⟨n.note _, rfl, .note n _, rfl⟩ fun k _ _ => hc'.gives _ fun y => ?_
    cases y <;> rfl
  · rw [evalPresence, hform]

/-- A map tells of the same as its base, transformed. -/
theorem exists_tells_map {g : Closure} (hg : g.code.Pure) (hm : m.Minted)
    (hb : ∀ t, m.enter s (Provider.map i base g type).owner = .ok t → ∃ r, base.Tells m t r) :
    ∃ r, (Provider.map i base g type).Tells m s r := by
  obtain ⟨rb, hrb, henter⟩ := Provider.Tells.exists_inside hb
  have inside (n : Machine) (p : Provider) (h : p.StandsFor m n (.map i base g type) s) :
      ∃ j base', p = .map j base' g type ∧
        (within p.owner (Ask.value base' .lenient)).Gives n rb := by
    obtain ⟨j, base', rfl, hbase⟩ := Provider.exists_map_of_blur h.looks
    exact ⟨j, base', rfl, (hrb n _ base' h fun t ht => h.part ht hbase fun _ _ h => h.2).1⟩
  match rb, henter with
  | .error f, _ =>
    refine ⟨.error f, .of_value fun n p h => ?_⟩
    obtain ⟨j, base', rfl, hbase⟩ := inside n p h
    exact ⟨hbase.bind_error, fun _ => rfl⟩
  | .ok (.missing path), _ =>
    refine ⟨.ok (.missing path), .of_value fun n p h => ?_⟩
    obtain ⟨j, base', rfl, hbase⟩ := inside n p h
    exact ⟨hbase.bind fun _ _ _ => .pure _, fun _ => rfl⟩
  | .ok (.present x e), henter =>
    obtain ⟨t, ht⟩ := henter _ rfl
    let culprit := m.text (.map i base g type) "map" s
    refine ⟨(blame culprit (g.code.result g.held x)).map fun y =>
      (Value.ofOption y).withEffect (SideEffect.boundTo x e), .of_value fun n p h => ?_⟩
    obtain ⟨j, base', rfl, hbase⟩ := inside n p h
    refine ⟨hbase.bind fun k hk hs => ?_, fun _ => rfl⟩
    exact ((h.later hk hs).applies hm ht hg x).map _

theorem Provider.Nodeless.withEffect? (h : q.Nodeless R) (e : Option Effect) :
    (q.withEffect? m e).Nodeless R := by
  cases e <;> exact h

/-- The provider that a flat map goes on with, by what its choice built. -/
def Machine.goesOnWith (m : Machine) (type : PayloadType) (e : Option Effect) :
    Option Provider → Provider
  | some q => q.withEffect? m e
  | none => .undefined m.supply type []

/-- What a flat map goes on with is of the graph. -/
theorem Provider.Nodeless.goesOnWith {q? : Option Provider} (h : ∀ q, q? = some q → q.Nodeless R)
    (type : PayloadType) (e : Option Effect) : (m.goesOnWith type e q?).Nodeless R := by
  cases q? with
  | none => trivial
  | some q => exact (h q rfl).withEffect? e

/-- What a flat map chooses stands for the same provider wherever the flat map stands for `q`. -/
theorem Recipe.Nodeless.chooses (hm : m.Minted) (hg : m.Nodeless R) {choice : Recipe}
    (hc : choice.Nodeless R) (ht : m.enter s q.owner = .ok t) (type : PayloadType) (x : Payload)
    (e : Option Effect) :
    ∃ o, (∀ q', o = .ok q' → q'.Nodeless R) ∧ ∀ (n : Machine) (p : Provider),
      p.StandsFor m n q s → ∃ a k,
        (chooseNext p choice type (.present x e)).run.run engine n = some (a, k) ∧ n.Drifts k ∧
          k.stack = n.stack ∧ SameResult (fun p' q' => ∀ t, k.stack.enter p.owner = .ok t →
            p'.StandsFor m { k with stack := t } q' (t.blur m.supply)) a o := by
  obtain ⟨o, ho, hbuild⟩ := hc.builds hm hg (some x)
  let next := m.goesOnWith type (SideEffect.boundTo x e)
  refine ⟨(blame (m.text q q.kind s) o).map next, fun q' hq' => ?_, fun n p h => ?_⟩
  · obtain ⟨q?, hq?, rfl⟩ := map_eq_ok_iff.mp hq'
    exact .goesOnWith (fun q hq => ho q (hq ▸ blame_eq_ok hq?)) type _
  · obtain ⟨t', ht', -⟩ := h.exists_enter ht
    have hchooses : Agrees (chooseNext p choice type (.present x e)) n
        ((blame (m.text q q.kind s) o).map next) (LooksLike m.supply n.supply) := by
      rw [chooseNext, ← bind_assoc]
      refine .bind (r := blame (m.text q q.kind s) o) (g := fun q? => .ok (next q?))
        (h.calls hm ht' (hbuild _ (h.drifts.stack t'))) fun q? q?' k hk _ _ hq => ?_
      have hregisters := h.drifts.sameRegisters.trans hk.sameRegisters
      have hwraps := Agrees.wraps hregisters hk.supply_le type x e hq
      cases q?' <;> exact hwraps
    obtain ⟨a, k, hrun, hk, hs, hsame⟩ := hchooses
    refine ⟨a, k, hrun, hk.drifts, hs, ?_⟩
    generalize (blame (m.text q q.kind s) o).map next = o' at hsame
    cases hsame with
    | ok hlooks => exact .ok fun t ht => h.built (hs ▸ ht) hk.drifts hlooks
    | error f => exact .error f

/-- A flat map tells of what its choice tells of. -/
theorem exists_tells_flatMap (hm : m.Minted) (hg : m.Nodeless R) {choice : Recipe}
    (hc : choice.Nodeless R)
    (hb : ∀ t, m.enter s (Provider.flatMap i base choice type).owner = .ok t →
      ∃ r, base.Tells m t r)
    (hnext : ∀ (q : Provider) t, q.Nodeless R →
      m.enter s (Provider.flatMap i base choice type).owner = .ok t → ∃ r, q.Tells m t r) :
    ∃ r, (Provider.flatMap i base choice type).Tells m s r := by
  obtain ⟨rb, hrb, henter⟩ := Provider.Tells.exists_inside hb
  have inside (n : Machine) (p : Provider)
      (h : p.StandsFor m n (.flatMap i base choice type) s) :
      ∃ j base', p = .flatMap j base' choice type ∧
        (within p.owner (Ask.value base' .lenient)).Gives n rb := by
    obtain ⟨j, base', rfl, hbase⟩ := Provider.exists_flatMap_of_blur h.looks
    exact ⟨j, base', rfl, (hrb n _ base' h fun t ht => h.part ht hbase fun _ _ h => h.2).1⟩
  match rb, henter with
  | .error f, _ =>
    refine ⟨.error f, .of_rules fun n p h => ?_⟩
    obtain ⟨j, base', rfl, hbase⟩ := inside n p h
    exact ⟨hbase.bind_error, fun _ => hbase.bind_error.bind_error⟩
  | .ok (.missing path), henter =>
    refine ⟨.ok (.missing path), .of_rules fun n p h => ?_⟩
    obtain ⟨j, base', rfl, hbase⟩ := inside n p h
    obtain ⟨t, ht⟩ := henter _ rfl
    refine ⟨hbase.bind fun _ _ _ => .pure _, fun c => ?_⟩
    -- presence goes on with a new provider that has no payload
    rw [evalPresence, backing, bind_assoc]
    refine hbase.bind fun k hk hs => .bind_run rfl (Machine.Evolves.fresh k).drifts rfl ?_
    have h' := h.later (hk.trans (Machine.Evolves.fresh k).drifts) hs
    exact h'.within ht fun t' _ _ => .of_run (.pure false) (Ask.run_rule (.presence _ .lenient) _)
  | .ok (.present x e), henter =>
    obtain ⟨t, ht⟩ := henter _ rfl
    obtain ⟨o, ho, hchoose⟩ := hc.chooses hm hg ht type x e
    obtain ⟨r, hf, hr⟩ : ∃ r, (∀ f, o = .error f → r = .error f) ∧
        ∀ q, o = .ok q → q.TellsInside m (.flatMap i base choice type) s r := by
      cases o with
      | error f =>
        refine ⟨.error f, fun _ h => ?_, fun _ h => ?_⟩
        · rw [Except.error.inj h]
        · cases h
      | ok q =>
        obtain ⟨r, hr, -⟩ := Provider.Tells.exists_inside fun t ht => hnext q t (ho q rfl) ht
        refine ⟨r, fun _ h => ?_, fun q' h => Except.ok.inj h ▸ hr⟩
        cases h
    refine ⟨r, .of_rules fun n p h => ?_⟩
    obtain ⟨j, base', rfl, hbase⟩ := inside n p h
    refine ⟨hbase.bind fun k hk hs => ?_, fun c => ?_⟩
    · refine .bind_same (hchoose k _ (h.later hk hs)) hf fun p' q k' hq hk' hs' hp' => ?_
      exact (hr q hq k' _ p' (h.later (hk.trans hk') (hs'.trans hs)) hp').1
    · rw [evalPresence, backing, bind_assoc]
      refine hbase.bind fun k hk hs => ?_
      refine .bind_same (hchoose k _ (h.later hk hs)) (fun f ho => ?_)
        fun p' q k' hq hk' hs' hp' => ?_
      · rw [hf f ho]
        rfl
      · exact (hr q hq k' _ p' (h.later (hk.trans hk') (hs'.trans hs)) hp').2 .lenient

/-- A fallback tells of what one of its sides tells of. -/
theorem exists_tells_orElse {left right : Provider}
    (hl : ∀ t, m.enter s (Provider.orElse i left right).owner = .ok t → ∃ r, left.Tells m t r)
    (hr : ∀ t, m.enter s (Provider.orElse i left right).owner = .ok t → ∃ r, right.Tells m t r) :
    ∃ r, (Provider.orElse i left right).Tells m s r := by
  obtain ⟨rl, hrl, -⟩ := Provider.Tells.exists_inside hl
  obtain ⟨rr, hrr, -⟩ := Provider.Tells.exists_inside hr
  match rl with
  | .error f =>
    refine ⟨.error f, .of_rules fun n p h => ?_⟩
    obtain ⟨j, left', right', rfl, hleft, -⟩ := Provider.exists_orElse_of_blur h.looks
    obtain ⟨hvalue, hpresence⟩ := hrl n _ left' h fun t ht => h.part ht hleft fun _ _ h => h.2.1
    exact ⟨hvalue.bind_error, fun c => (hpresence c).bind_error⟩
  | .ok (.present x e) =>
    refine ⟨.ok (.present x e), .of_rules fun n p h => ?_⟩
    obtain ⟨j, left', right', rfl, hleft, -⟩ := Provider.exists_orElse_of_blur h.looks
    obtain ⟨hvalue, hpresence⟩ := hrl n _ left' h fun t ht => h.part ht hleft fun _ _ h => h.2.1
    exact ⟨hvalue.bind fun _ _ _ => .pure _, fun c => (hpresence c).bind fun _ _ _ => .pure _⟩
  | .ok (.missing path) =>
    refine ⟨rr.map fun w => if w.isMissing then .missing (path ++ w.path) else w,
      .of_rules fun n p h => ?_⟩
    obtain ⟨j, left', right', rfl, hleft, hright⟩ := Provider.exists_orElse_of_blur h.looks
    obtain ⟨hvalue, hpresence⟩ := hrl n _ left' h fun t ht => h.part ht hleft fun _ _ h => h.2.1
    have later (k : Machine) (hk : n.Drifts k) (hs : k.stack = n.stack) :=
      hrr k _ right' (h.later hk hs) fun t ht =>
        (h.later hk hs).part ht hright fun _ _ h => h.2.2
    refine ⟨hvalue.bind fun k hk hs => ?_, fun c => (hpresence c).bind fun k hk hs => ?_⟩
    · have hr := (later k hk hs).1.map fun w =>
        if w.isMissing then .missing (path ++ w.path) else w
      refine hr.of_run (congrArg (fun x : Attempt Outcome => x.run.run engine k) ?_)
      refine bind_congr fun w => ?_
      cases w <;> rfl
    · have hr := (later k hk hs).2 c
      match rr, hr with
      | .error f, hr => exact hr
      | .ok (.present x e), hr => exact hr
      | .ok (.missing path'), hr => exact hr

/-- An effectful provider tells of what the inner one tells of. -/
theorem exists_tells_withEffect {inner : Provider} {e : Effect}
    (hi : ∀ t, m.enter s (Provider.withEffect i inner e).owner = .ok t → ∃ r, inner.Tells m t r) :
    ∃ r, (Provider.withEffect i inner e).Tells m s r := by
  obtain ⟨ri, hri, -⟩ := Provider.Tells.exists_inside hi
  refine ⟨ri.map (·.withEffect (some e)), .of_rules fun n p h => ?_⟩
  obtain ⟨j, inner', rfl, hinner⟩ := Provider.exists_withEffect_of_blur h.looks
  obtain ⟨hvalue, hpresence⟩ := hri n _ inner' h fun t ht => h.part ht hinner fun _ _ h => h.2
  refine ⟨hvalue.map _, fun c => ?_⟩
  have hp := hpresence c
  cases ri with
  | error f => exact hp
  | ok v =>
    rw [show (Except.ok v : Except Fault Outcome).map (·.withEffect (some e)) =
      .ok (v.withEffect (some e)) from rfl, Except.map, Value.isMissing_withEffect]
    exact hp

/-- A named provider tells of what the inner one tells of. -/
theorem exists_tells_named {inner : Provider} {name : String}
    (hi : ∀ t, m.enter s (Provider.named i inner name).owner = .ok t → ∃ r, inner.Tells m t r) :
    ∃ r, (Provider.named i inner name).Tells m s r := by
  obtain ⟨ri, hri, -⟩ := Provider.Tells.exists_inside hi
  refine ⟨ri, .of_rules fun n p h => ?_⟩
  obtain ⟨j, inner', rfl, hinner⟩ := Provider.exists_named_of_blur h.looks
  exact hri n _ inner' h fun t ht => h.part ht hinner fun _ _ h => h.2

/-- A property tells what the provider tells that it reads from. -/
theorem exists_tells_property (hm : m.Minted) {r : PropertyRef}
    (hq : ∀ q t, (m.property r.id).effective = some q →
      m.enter s (Provider.property r).owner = .ok t → ∃ a, q.Tells m t a) :
    ∃ a, (Provider.property r).Tells m s a := by
  have read (n : Machine) (p : Provider) (h : p.StandsFor m n (.property r) s) :
      p = .property r ∧ n.property r.id = m.property r.id := by
    exact ⟨Provider.eq_property_of_blur h.looks, h.drifts.property_eq _⟩
  -- a lenient reading leaves the property as it is
  have lenient (n : Machine) : (finalizeFor r .lenient).run.run engine n = some (.ok (), n) :=
    run_finalizeFor_of_not_mustFinalize rfl
  cases heff : (m.property r.id).effective with
  | none =>
    refine ⟨.ok (.missing []), .of_rules fun n p h => ?_⟩
    obtain ⟨rfl, hn⟩ := read n p h
    refine ⟨(Attempt.Gives.pure _).of_run ?_, fun c => (Attempt.Gives.pure false).of_run ?_⟩
    · rw [evalValue, Eval.run_bind_ok (lenient n), Eval.run_property_bind, hn, heff]
    · rw [evalPresence, Eval.run_property_bind, hn, heff]
  | some q =>
    obtain ⟨a, ha, -⟩ := Provider.Tells.exists_inside fun t ht => hq q t heff ht
    refine ⟨a, .of_rules fun n p h => ?_⟩
    obtain ⟨rfl, hn⟩ := read n p h
    have hold := hm.effective r.id q heff
    obtain ⟨hvalue, hpresence⟩ := ha n _ q h fun t ht =>
      { toSits := .of_minted hold h.supply_le (h.toSits.frames_of_enter rfl ht)
        drifts := h.drifts.stack t
        looks := hold.blur_eq
        scopes := rfl }
    refine ⟨hvalue.of_run ?_, fun c => (hpresence c).of_run ?_⟩
    · rw [evalValue, Eval.run_bind_ok (lenient n), Eval.run_property_bind, hn, heff]
    · rw [evalPresence, Eval.run_property_bind, hn, heff]

end Rules

/-! ### Graphs -/

section Graph

variable (hR : R.Computes) (hS : R.Steady) (hm : m.Minted) (hg : m.Nodeless R)

include hR hS hm hg

/-- Presence tells of the value everywhere in the graph. The induction is on the scopes that can
still be opened, since the graph may have cycles. -/
theorem Provider.Nodeless.exists_tells (hq : q.Nodeless R) (s : ScopeStack) :
    ∃ r, q.Tells m s r := by
  generalize hroom : s.room = room
  induction room using Nat.strongRecOn generalizing q s with
  | _ room ih =>
    have inside {q' : Provider} {o : Owner} (hq' : q'.Nodeless R) (t : ScopeStack)
        (ht : m.enter s o = .ok t) : ∃ r, q'.Tells m t r :=
      ih _ (hroom ▸ Machine.room_lt_of_enter ht) hq' t rfl
    cases q with
    | fixed i x => exact ⟨_, tells_fixed x⟩
    | undefined i type path => exact ⟨_, tells_undefined path⟩
    | changing i type node calls =>
      obtain ⟨rfl, hcalls⟩ := hq
      exact ⟨_, tells_changing (hS.calls hR hcalls)⟩
    | map i base g type => exact exists_tells_map hq.2 hm (inside hq.1)
    | flatMap i base choice type =>
      exact exists_tells_flatMap hm hg hq.2 (inside hq.1) fun _ t hq' => inside hq' t
    | orElse i left right => exact exists_tells_orElse (inside hq.1) (inside hq.2)
    | withEffect i inner e => exact exists_tells_withEffect (inside hq)
    | named i inner name => exact exists_tells_named (inside hq)
    | property r => exact exists_tells_property hm fun q' t hq' => inside (hg.effective _ q' hq hq') t
    | custom i form producer calls effect => exact ⟨_, tells_custom hq.1 (hS.calls hR hq.2)⟩

/-- Presence tells of the value: asked with either reading it tells whether the lenient value is
there, or fails as it does. -/
theorem presence_tells_of_the_value (hp : p.Nodeless R) (hminted : p.Minted m.supply) :
    ∃ r, (∃ n, (Ask.value p .lenient).run.run engine m = some (r, n)) ∧
      (∀ c, ∃ n, (Ask.presence p c).run.run engine m = some (r.map fun v => !v.isMissing, n)) ∧
      ∃ n, (Ask.isPresent p).run.run engine m = some (r.map fun v => !v.isMissing, n) := by
  obtain ⟨r, hr⟩ := hp.exists_tells hR hS hm hg m.stack
  obtain ⟨hvalue, hpresence⟩ := hr m p {
    toSits := .of_minted hminted (Nat.le_refl _) hm.frames
    drifts := .refl m
    looks := hminted.blur_eq
    scopes := ScopeStack.blur_eq hm.frames }
  have told (c : Reading) : ∃ n, (Ask.presence p c).run.run engine m =
      some ((r.map (·.push p.declaredName)).map fun v => !v.isMissing, n) := by
    obtain ⟨n, hrun, -⟩ := hpresence c
    refine ⟨n, ?_⟩
    rw [hrun]
    cases r with
    | ok v => simp [Except.map]
    | error f => rfl
  obtain ⟨n, hrun, -⟩ := hvalue.map (·.push p.declaredName)
  exact ⟨_, ⟨n, hrun⟩, told, told .lenient⟩

end Graph

/-! ### A cyclic graph -/

def emptyCalls (_ : Nat) : Action := .compute fun _ => .ok none

def emptyCustom : Provider :=
  .custom 2 ⟨.plain, .int, "c", ["far"], .none, none⟩ .none ⟨3, emptyCalls, none⟩ none

/-- A machine with one property that reads from this provider, and one that reads from itself. -/
def loopingMachine : Machine :=
  ({ Machine.fresh 8 with supply := 10 }.setProperty 0
    (Property.blank.setValue emptyCustom)).setProperty 1
      (Property.blank.setConvention (.named 4 (.property ⟨1, .int, some "loop"⟩) "again"))

def loopingRegion : Region :=
  ⟨(· ≤ 1), fun _ => False, fun _ => False, fun code code' => code = emptyCalls ∧ code' = code⟩

/-- A flat map of the first property, and a fallback. -/
def fallingBack (right : Provider) : Provider :=
  .orElse 9 (.flatMap 8 (.property ⟨0, .int, some "p"⟩) (.result .held) .int) right

theorem loopingMachine_effective {i : Identity} {q : Provider}
    (h : (loopingMachine.property i).effective = some q) :
    q = emptyCustom ∨ q = .named 4 (.property ⟨1, .int, some "loop"⟩) "again" := by
  rw [loopingMachine] at h
  by_cases h₁ : i = 1
  · subst h₁
    exact .inr (Option.some.inj h).symm
  · rw [Machine.property_setProperty_of_ne _ h₁] at h
    by_cases h₀ : i = 0
    · subst h₀
      exact .inl (Option.some.inj h).symm
    · rw [Machine.property_setProperty_of_ne _ h₀] at h
      cases h

/-- Only old identities are on the machine. -/
theorem loopingMachine_minted : loopingMachine.Minted where
  frames _ h := nomatch h
  providers _ _ h := nomatch h
  properties _ _ h := nomatch h
  effective i q h := by
    show q.Minted 10
    rcases loopingMachine_effective h with rfl | rfl <;> simp [emptyCustom, Provider.Minted]

theorem loopingMachine_nodeless : loopingMachine.Nodeless loopingRegion where
  effective i q _ h := by
    rcases loopingMachine_effective h with rfl | rfl
    · exact ⟨rfl, rfl, rfl⟩
    · exact Nat.le_refl 1
  providers _ _ h := h.elim
  properties _ _ h := h.elim

/-- Where the first property is missing the second side decides: a payload is there, and a cycle is
a fault for both questions. -/
theorem presence_tells_of_the_value_fallingBack :
    loopingRegion.Computes ∧ loopingRegion.Steady ∧ loopingMachine.Minted ∧
    loopingMachine.Nodeless loopingRegion ∧
    (∃ n n', (Ask.value (fallingBack (.fixed 5 (.int 3))) .lenient).run.run engine
        loopingMachine = some (.ok (.present (.int 3) none), n) ∧
      (Ask.presence (fallingBack (.fixed 5 (.int 3))) .strict).run.run engine
        loopingMachine = some (.ok true, n')) ∧
    ∃ f n n', (Ask.value (fallingBack (.property ⟨1, .int, some "loop"⟩)) .lenient).run.run engine
        loopingMachine = some (.error (.circular f), n) ∧
      (Ask.isPresent (fallingBack (.property ⟨1, .int, some "loop"⟩))).run.run engine
        loopingMachine = some (.error (.circular f), n') := by
  have hcomputes : loopingRegion.Computes := by
    rintro _ _ ⟨rfl, rfl⟩ n
    exact .compute _
  have hsteady : loopingRegion.Steady := by
    rintro _ _ ⟨rfl, rfl⟩ held n
    rfl
  have hleft : Provider.Nodeless loopingRegion
      (.flatMap 8 (.property ⟨0, .int, some "p"⟩) (.result .held) .int) :=
    ⟨Nat.zero_le 1, .result .held⟩
  have tells (right : Provider) (hr : right.Nodeless loopingRegion)
      (hminted : right.Minted 10) :=
    presence_tells_of_the_value hcomputes hsteady loopingMachine_minted
      loopingMachine_nodeless (p := fallingBack right) ⟨hleft, hr⟩
      ⟨Nat.lt_succ_self 9, ⟨by decide, Nat.succ_pos 9⟩, hminted⟩
  refine ⟨hcomputes, hsteady, loopingMachine_minted, loopingMachine_nodeless, ?_, ?_⟩
  · obtain ⟨r, ⟨n, hrun⟩, hpresence, -⟩ := tells (.fixed 5 (.int 3)) trivial
      (show 5 < 10 by decide)
    have hvalue : ∃ n, (Ask.value (fallingBack (.fixed 5 (.int 3))) .lenient).run.run engine
        loopingMachine = some (.ok (.present (.int 3) none), n) :=
      ⟨_, Eval.run_engine_of_answer 9 rfl⟩
    obtain ⟨n₁, hvalue⟩ := hvalue
    cases hvalue.symm.trans hrun
    obtain ⟨n', hpresence⟩ := hpresence .strict
    exact ⟨n, n', hrun, hpresence⟩
  · obtain ⟨r, ⟨n, hrun⟩, -, n', hpresence⟩ :=
      tells (.property ⟨1, .int, some "loop"⟩) (Nat.le_refl 1) (show 1 < 10 by decide)
    have hvalue : ∃ f n, (Ask.value (fallingBack (.property ⟨1, .int, some "loop"⟩))
        .lenient).run.run engine loopingMachine = some (.error (.circular f), n) :=
      ⟨_, _, Eval.run_engine_of_answer 9 rfl⟩
    obtain ⟨f, n₁, hvalue⟩ := hvalue
    cases hvalue.symm.trans hrun
    exact ⟨f, n, n', hrun, hpresence⟩

end ProviderGraph
