import ProviderGraph.Proofs.Identity.RenamedSteps
import ProviderGraph.Proofs.Session.ReachedMachines

/-!
# Identities are only names

A run on a renamed machine is the renamed run, as long as new identities are renamed as they come
(`answer_natural`). Between the steps of a session a machine knows no identity that is yet to be
handed out, so that it is the same under every renaming of such identities
(`Machine.Reached.supported`). So nothing that a session tells depends on the identity that comes
next, but for identities (`Machine.Supported.reports`).
-/

namespace ProviderGraph

variable {ρ : Renaming} {α β γ δ : Type} {answers : Answerer} {m n : Machine} {i : Identity}

/-! ### Identities that are handed out -/

/-- No change hands out an identity. -/
theorem Machine.supply_after (m : Machine) (c : Change) : (m.after c).supply = m.supply := by
  cases c with
  | closeScope name =>
    simp only [after, closeScope]
    split <;> rfl
  | _ => rfl

/-- To keep a scope open takes no new identity. -/
theorem Machine.supply_of_openScope {name : String} {o : Owner} (h : m.openScope name o = .ok n) :
    n.supply = m.supply := by
  obtain ⟨s, -, hn⟩ := exists_of_bind_eq_ok h
  cases hn
  exact supply_after { m with stack := s } (.closeScope name)

/-- Answers take no identity back. -/
def Answerer.Grows (answers : Answerer) : Prop :=
  ∀ q m a, answers q m = some a → m.supply ≤ a.2.supply

/-- A run takes no identity back. -/
theorem Eval.run_supply_le (h : answers.Grows) {x : Eval α} {a : α × Machine}
    (ha : x.run answers m = some a) (hi : i ≤ m.supply) : i ≤ a.2.supply := by
  induction x generalizing m with
  | done =>
    cases ha
    exact hi
  | ask q next ih =>
    obtain ⟨b, hb, ha⟩ := Option.bind_eq_some_iff.mp ha
    exact ih _ ha (Nat.le_trans hi (h q m b hb))
  | look next ih => exact ih _ ha hi
  | fresh next ih => exact ih _ ha (Nat.le_succ_of_le hi)
  | change c next ih => exact ih ha (m.supply_after c ▸ hi)
  | openScope name o next ih =>
    simp only [run] at ha
    split at ha
    · exact ih _ ha hi
    · next hn => exact ih _ ha (Machine.supply_of_openScope hn ▸ hi)
  | inScope o body next ihb ih =>
    simp only [run] at ha
    split at ha
    · exact ih _ ha hi
    · obtain ⟨b, hb, ha⟩ := Option.bind_eq_some_iff.mp ha
      exact ih _ ha (ihb hb hi)
  | onThread body next ihb ih | withOwnLocals body next ihb ih =>
    obtain ⟨b, hb, ha⟩ := Option.bind_eq_some_iff.mp ha
    exact ih _ ha (ihb hb hi)

/-- With any fuel questions take no identity back. -/
theorem answer_grows (fuel : Nat) : Answerer.Grows (answer fuel) := by
  induction fuel with
  | zero => exact fun _ _ _ h => absurd h (by simp)
  | succ fuel ih => exact fun _ _ _ h => Eval.run_supply_le ih h (Nat.le_refl _)

namespace Renaming

/-- The renaming renames identities as they come, from `i` on: all of them, or those that are handed
out until the end of a run. -/
def Suits (ρ : Renaming) (i : Identity) (r : Option (α × Machine)) : Prop :=
  ∀ j, i ≤ j → (∀ a, r = some a → j < a.2.supply) → ρ.Follows j

theorem Suits.later {r : Option (α × Machine)} {j : Identity} (h : ρ.Suits i r) (hij : i ≤ j) :
    ρ.Suits j r := fun k hk => h k (Nat.le_trans hij hk)

variable {r : Option (α × Machine)} {k : α × Machine → Option (γ × Machine)}

/-- A renaming that suits two runs suits the first one. -/
theorem Suits.first (h : ρ.Suits i (r.bind k))
    (hk : ∀ a b, r = some a → k a = some b → a.2.supply ≤ b.2.supply) : ρ.Suits i r := by
  intro j hj hr
  refine h j hj fun b hb => ?_
  obtain ⟨a, ha, hb⟩ := Option.bind_eq_some_iff.mp hb
  exact Nat.lt_of_lt_of_le (hr a ha) (hk a b ha hb)

/-- A renaming that suits two runs suits the second one, from where the first one ends. -/
theorem Suits.second (h : ρ.Suits i (r.bind k)) {a : α × Machine} (ha : r = some a)
    (hi : i ≤ a.2.supply) : ρ.Suits a.2.supply (k a) := by
  intro j hj hr
  refine h j (Nat.le_trans hi hj) fun b hb => ?_
  rw [ha, Option.bind_some] at hb
  exact hr b hb

end Renaming

/-- The answers on a renamed machine are the renamed answers. -/
def Answerer.Natural (ρ : Renaming) (answers : Answerer) : Prop :=
  ∀ q m, ρ.Suits m.supply (answers q m) →
    answers (q.rename ρ) (m.rename ρ) =
      (answers q m).map (Prod.map (q.carry ρ) (Machine.rename ρ))

/-- A part of a run and what follows. -/
theorem Renaming.Suits.bind {r : Option (α × Machine)} {r' : Option (β × Machine)}
    {k : α × Machine → Option (γ × Machine)} {k' : β × Machine → Option (δ × Machine)} {f : α → β}
    {g : γ → δ} (h : ρ.Suits i (r.bind k)) (hi : ∀ a, r = some a → i ≤ a.2.supply)
    (hk : ∀ a b, r = some a → k a = some b → a.2.supply ≤ b.2.supply)
    (hr : ρ.Suits i r → r' = r.map (Prod.map f (Machine.rename ρ)))
    (hnext : ∀ a, r = some a → ρ.Suits a.2.supply (k a) →
      k' (f a.1, a.2.rename ρ) = (k a).map (Prod.map g (Machine.rename ρ))) :
    r'.bind k' = (r.bind k).map (Prod.map g (Machine.rename ρ)) := by
  rw [hr (h.first hk)]
  cases r with
  | none => rfl
  | some a => exact hnext a rfl (h.second rfl (hi a rfl))

/-- A run on a renamed machine is the renamed run. -/
theorem Eval.Carries.run {f : α → β} {x : Eval α} {y : Eval β} (h : Carries ρ f x y)
    (hgrows : answers.Grows) (hans : answers.Natural ρ)
    (hs : ρ.Suits m.supply (x.run answers m)) :
    y.run answers (m.rename ρ) = (x.run answers m).map (Prod.map f (Machine.rename ρ)) := by
  induction h generalizing m with
  | done hb => exact hb ▸ rfl
  | ask q h ih =>
    exact hs.bind (hgrows q m) (fun _ _ _ hb => run_supply_le hgrows hb (Nat.le_refl _))
      (hans q m) fun a _ => ih a.1
  | look h ih => exact ih m hs
  | @fresh _ _ _ next next' h ih =>
    have hfollows : ρ.Follows m.supply := hs _ (Nat.le_refl _) fun a ha =>
      run_supply_le (x := next m.supply) hgrows ha (Nat.le_refl _)
    have hm : Machine.rename ρ { m with supply := m.supply + 1 } =
        { m.rename ρ with supply := (m.rename ρ).supply + 1 } :=
      congrArg (fun j => { m.rename ρ with supply := j }) hfollows.2
    refine Eq.trans ?_ (ih m.supply (hs.later (Nat.le_succ _)))
    rw [hm, hfollows.1]
    rfl
  | @change _ _ _ c next next' h ih =>
    have hs : ρ.Suits (m.after c).supply _ := m.supply_after c ▸ hs
    refine Eq.trans ?_ (ih hs)
    rw [← m.after_rename]
    rfl
  | @openScope _ _ _ name o next next' h ih =>
    simp only [Eval.run] at hs ⊢
    rw [m.openScope_rename]
    cases hopen : m.openScope name o with
    | error e =>
      rw [hopen] at hs
      exact ih (.error e) hs
    | ok n =>
      rw [hopen] at hs
      exact ih (.ok ()) (Machine.supply_of_openScope hopen ▸ hs)
  | @inScope _ _ _ _ _ _ o body body' next next' hbody h ihb ih =>
    simp only [Eval.run] at hs ⊢
    rw [show (m.rename ρ).stack.enter (o.rename ρ) = _ from m.stack.enter_rename ρ o]
    cases hopen : m.stack.enter o with
    | error e =>
      rw [hopen] at hs
      exact ih (.error e) hs
    | ok s =>
      rw [hopen] at hs
      refine hs.bind (fun _ ha => run_supply_le hgrows ha (Nat.le_refl _))
        (fun _ _ _ hb => run_supply_le hgrows hb (Nat.le_refl _))
        (fun hs => ihb (m := { m with stack := s }) hs) fun a _ hs => ?_
      refine Eq.trans ?_ (ih (.ok a.1) hs)
      exact congrArg (fun s => (next' (.ok _)).run answers { a.2.rename ρ with stack := s })
        (a.2.stack.leave_rename ρ o.id)
  | onThread hbody h ihb ih =>
    refine hs.bind (fun _ ha => run_supply_le hgrows ha (Nat.le_refl _))
      (fun _ _ _ hb => run_supply_le hgrows hb (Nat.le_refl _))
      (fun hs => ihb (m := newThread m) hs) fun a _ hs => ?_
    exact ih a.1 (m := { a.2 with stack := m.stack, locals := m.locals }) hs
  | withOwnLocals hbody h ihb ih =>
    refine hs.bind (fun _ ha => run_supply_le hgrows ha (Nat.le_refl _))
      (fun _ _ _ hb => run_supply_le hgrows hb (Nat.le_refl _))
      (fun hs => ihb (m := { m with locals := .empty }) hs) fun a _ hs => ?_
    refine Eq.trans ?_ (ih a.1 hs)
    rw [← m.dropLocals_rename]

/-- An answer on a renamed machine is the renamed answer. -/
theorem answer_natural (fuel : Nat) : Answerer.Natural ρ (answer fuel) := by
  induction fuel with
  | zero => exact fun _ _ _ => rfl
  | succ fuel ih => exact fun q m hs => (rule_carries q).run (answer_grows fuel) ih hs

/-! ### Sessions -/

/-- The report on a step is renamed with the machine. -/
theorem Session.report_rename {fuel : Nat} {s : Step} (hs : ∀ i, m.supply ≤ i → ρ.Follows i) :
    report fuel s (m.rename ρ) =
      (report fuel s m).map (Prod.map (Report.rename ρ) (Machine.rename ρ)) := by
  have h := answer_natural (ρ := ρ) fuel (.step s) { m with events := [] } fun i hi _ => hs i hi
  rw [report, report]
  refine (congrArg (fun r => Option.bind r _) h).trans ?_
  cases answer fuel (.step s) { m with events := [] } with
  | none => rfl
  | some a =>
    obtain ⟨r, n⟩ := a
    have hevents : (n.rename ρ).events.reverse = n.events.reverse.map (Event.rename ρ) :=
      List.map_reverse.symm
    have hdepth : (n.rename ρ).stack.depth = n.stack.depth := n.stack.depth_rename ρ
    change some (Report.mk (r.rename ρ) (n.rename ρ).events.reverse (n.rename ρ).stack.depth, _) = _
    rw [hevents, hdepth]
    rfl

/-- A step takes no identity back. -/
theorem Session.supply_le_of_report {fuel : Nat} {s : Step} {r : Report}
    (h : report fuel s m = some (r, n)) : m.supply ≤ n.supply := by
  obtain ⟨a, ha, h⟩ := Option.bind_eq_some_iff.mp h
  cases h
  exact answer_grows fuel _ { m with events := [] } a ha

/-- The reports of a session on a renamed machine are the renamed reports. -/
theorem Session.reports_rename (fuel : Nat) (ss : List Step)
    (hs : ∀ i, m.supply ≤ i → ρ.Follows i) :
    reports fuel ss (m.rename ρ) = (reports fuel ss m).map (List.map (Report.rename ρ)) := by
  induction ss generalizing m with
  | nil => rfl
  | cons s ss ih =>
    rw [reports, reports, report_rename hs]
    cases hr : report fuel s m with
    | none => rfl
    | some a =>
      obtain ⟨r, n⟩ := a
      have hle := supply_le_of_report hr
      have hrest := ih fun i hi => hs i (Nat.le_trans hle hi)
      change (reports fuel ss (n.rename ρ)).bind _ =
        ((reports fuel ss n).bind fun rs => some (r :: rs)).map _
      rw [hrest]
      cases reports fuel ss n <;> rfl

/-! ### Machines that know no identity that is yet to come -/

/-- The machine is the same under each renaming of identities that are yet to be handed out. -/
def Machine.Supported (m : Machine) : Prop :=
  ∀ ρ : Renaming, (∀ i < m.supply, ρ i = i) → m.rename ρ = { m with supply := ρ.next m.supply }

/-- A step comes to know only identities that are handed out meanwhile. -/
theorem Machine.Supported.step (hm : m.Supported) {fuel : Nat} {s : Step} {r : Reply}
    (hr : answer fuel (.step s) { m with events := [] } = some (r, n)) : n.Supported := by
  intro ρ hρ
  -- until the end of the step the renaming changes no identity that is handed out
  let σ : Renaming := { ρ with next := id }
  have hle : m.supply ≤ n.supply := answer_grows fuel _ _ _ hr
  have hstart : Machine.rename σ { m with events := [] } = { m with events := [] } :=
    congrArg (fun k => { k with events := [] })
      (hm σ fun i hi => hρ i (Nat.lt_of_lt_of_le hi hle))
  have hsuits : σ.Suits m.supply (answer fuel (.step s) { m with events := [] }) :=
    fun i _ hi => ⟨hρ i (hi _ hr), rfl⟩
  have h := answer_natural fuel (.step s) { m with events := [] } hsuits
  rw [hstart] at h
  have hn : n = n.rename σ := by
    have := hr.symm.trans (h.trans (congrArg _ hr))
    exact congrArg Prod.snd (Option.some.inj this)
  exact congrArg (fun k => { k with supply := ρ.next n.supply }) hn.symm

/-- No machine between steps refers to an identity that is yet to be handed out. -/
theorem Machine.Reached.supported (h : m.Reached) : m.Supported := by
  induction h with
  | fresh limit => exact fun _ _ => rfl
  | step _ hr ih =>
    obtain ⟨fuel, hr⟩ := engine_eq_some_iff.mp hr
    exact ih.step hr

/-- The renaming that leaves out `d` identities from `k` on. -/
def Renaming.gap (k d : Nat) : Renaming where
  apply (i : Nat) := if i < k then i else i + d
  injective (i j : Nat) (h : (if i < k then i else i + d) = if j < k then j else j + d) := by
    have hij : (i : Nat) = j := by split at h <;> split at h <;> omega
    exact hij
  next i := i + d

/-- Nothing that a session tells depends on the identity that comes next, but for identities. -/
theorem Machine.Supported.reports (hm : m.Supported) (d fuel : Nat) (ss : List Step) :
    Session.reports fuel ss { m with supply := m.supply + d } =
      (Session.reports fuel ss m).map (List.map (Report.rename (Renaming.gap m.supply d))) := by
  rw [← Session.reports_rename fuel ss fun i hi => ⟨if_neg (Nat.not_lt.mpr hi), Nat.succ_add i d⟩]
  exact congrArg _ (hm (.gap m.supply d) fun i hi => if_pos hi).symm

end ProviderGraph
