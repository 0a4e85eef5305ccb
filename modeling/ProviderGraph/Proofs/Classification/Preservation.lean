import ProviderGraph.Proofs.Classification.Retracing
import ProviderGraph.Proofs.Reference.EngineAgreement
import ProviderGraph.Proofs.Reference.Evaluator

/-!
# Classification preserves meaning

A value that is found without coming back to an open scope is found by the engine, unless there is
too little room for it. So a provider and the one that is rebuilt from its classification have the
same values.
-/

namespace ProviderGraph

open Machine (guarded)
open Provider (ofClassification)

/-- The result tells of too many scopes. -/
def TooDeep {α : Type} (r : Except Fault α) : Prop :=
  ∃ depth limit, r = .error (.tooDeep depth limit)

/-- The discipline of nesting up to some levels, where certain providers may open a scope. -/
def Machine.leveled (P : Provider → Prop) : Discipline Nat := fun n p k => P p ∧ n = k + 1

open Machine (leveled)

variable {σ α : Type} {m : Machine} {E : Discipline σ} {P : Provider → Prop} {s t : ScopeStack}
  {p q r root : Provider} {n k : Nat} {x : Agenda α} {a b : α}

namespace Agenda.Yields

/-- What is found within some levels is found within more. -/
theorem level_le (h : x.Yields m (leveled P) n p a) (hk : n ≤ k) :
    x.Yields m (leveled P) k p a := by
  refine simulate (· ≤ ·) (fun n p n' k ⟨hp, hn⟩ hk => ?_) h hk
  obtain ⟨k', rfl⟩ : ∃ k', k = k' + 1 := ⟨k - 1, by omega⟩
  exact ⟨k', ⟨hp, rfl⟩, by omega⟩

/-- A result is found within some number of levels. -/
theorem exists_level {u : Unit} (h : x.Yields m (guarded P) u p a) :
    ∃ n, x.Yields m (leveled P) n p a := by
  induction h with
  | done a => exact ⟨0, .done a⟩
  | ask hp _ _ ihd ih =>
    obtain ⟨n, hn⟩ := ihd
    obtain ⟨k, hk⟩ := ih
    refine ⟨max n k + 1, .ask ⟨hp, rfl⟩ (hn.level_le (Nat.le_max_left n k)) (hk.level_le ?_)⟩
    exact Nat.le_succ_of_le (Nat.le_max_right n k)

/-- An agenda comes to its result on a stack, if its demands do, or to too many scopes. -/
theorem run_or_tooDeep (h : x.Yields m (leveled P) n p a)
    (hd : ∀ d k b, x.Asks d → n = k + 1 → P p → m.Yields (leveled P) k d b →
      m.asked p.owner s d = .ok b ∨ TooDeep (m.asked p.owner s d)) :
    x.run (m.asked p.owner s) = .ok a ∨
      ∃ depth limit, x.run (m.asked p.owner s) = .error (.fault (.tooDeep depth limit)) := by
  induction x with
  | done r => exact .inl (yields_done_iff.mp h)
  | ask d next ih =>
    cases h with
    | @ask _ _ k _ _ _ b _ hp hb h =>
      rcases hd d k b (.inl rfl) hp.2 hp.1 hb with hok | ⟨i, l, hdeep⟩
      · rw [run_ask_ok hok]
        exact ih b h fun d' k b' hd' => hd d' k b' (.inr ⟨b, hd'⟩)
      · exact .inr ⟨i, l, run_ask_error hdeep⟩

end Agenda.Yields

/-- There is one way to go down a level. -/
theorem Machine.leveled_deterministic : (leveled P).Deterministic :=
  fun _ _ _ _ h h' => Nat.succ.inj (h.2.symm.trans h'.2)

/-- At rest the scope of a provider that is not open can be opened, or there are too many. -/
theorem Machine.nesting_or_tooDeep (h : p.id < m.supply → s.isOpen p.id = false) :
    (∃ t, m.nesting s p t) ∨ TooDeep (m.enter s p.owner) := by
  by_cases hd : s.depth < s.limit
  · exact .inl (exists_enter h hd)
  · refine .inr ⟨_, _, (if_neg fun ho => ?_).trans (if_pos (Nat.not_lt.mp hd))⟩
    exact Bool.eq_false_iff.mp (h ho.1) ho.2

/-- A demand is met as its agenda is, unless there are too many scopes. -/
theorem Machine.atRest_of_run {d : Demand} {a : d.Answer}
    (h : (d.agenda m).run (m.asked d.provider.owner s) = .ok a ∨
      ∃ depth limit, (d.agenda m).run (m.asked d.provider.owner s) =
        .error (.fault (.tooDeep depth limit))) :
    m.atRest d s = .ok a ∨ TooDeep (m.atRest d s) := by
  rw [atRest_eq]
  rcases h with h | ⟨depth, limit, h⟩
  · exact .inl (by rw [h]; rfl)
  · exact .inr ⟨depth, limit, by rw [h]; rfl⟩

/-- A value within some levels is found by the engine at rest, or too many scopes. Whatever is open
on the stack may not be opened, or has no value within these levels. -/
theorem atRest_of_yields {v : Outcome} (hroot : root.Identified m) (hp : root.Reaches m p)
    (h : m.Yields (leveled P) n (.value p) v)
    (hopen : ∀ r, root.Reaches m r → r.id < m.supply → s.isOpen r.id = true → P r →
      ∀ v, ¬ m.Yields (leveled P) n (.value r) v) :
    m.atRest (.value p) s = .ok v ∨ TooDeep (m.atRest (.value p) s) := by
  induction n generalizing p s v with
  | zero => exact Machine.atRest_of_run (h.run_or_tooDeep fun _ _ _ _ hk => nomatch hk)
  | succ n ih =>
    have hopen' (r : Provider) (hr : root.Reaches m r) (hid : r.id < m.supply)
        (ho : s.isOpen r.id = true) (hP : P r) (v : Outcome) :
        ¬ m.Yields (leveled P) n (.value r) v := fun hv =>
      hopen r hr hid ho hP v (hv.level_le (Nat.le_succ n))
    by_cases hn : ∃ w, m.Yields (leveled P) n (.value p) w
    · -- the last level is not needed
      obtain ⟨w, hw⟩ := hn
      obtain rfl := h.deterministic Machine.leveled_deterministic (hw.level_le (Nat.le_succ n))
      exact ih hp hw hopen'
    · -- what is asked for inside has a value within the levels that are left, and `p` has not
      refine Machine.atRest_of_run (h.run_or_tooDeep fun d k b hd hk hP hb => ?_)
      obtain rfl := Nat.succ.inj hk
      obtain ⟨q, rfl, hq⟩ := Provider.valueAgenda_asksOnly d hd
      have hfree : p.id < m.supply → s.isOpen p.id = false := fun hid =>
        Bool.eq_false_iff.mpr fun ho => hopen p hp hid ho hP v h
      rcases Machine.nesting_or_tooDeep hfree with ⟨t, ht⟩ | ⟨depth, limit, ht⟩
      · rw [Machine.asked_of_enter (show m.enter s (Demand.value p).provider.owner = .ok t from ht)]
        refine ih (hp.tail hq) hb fun r hr hid ho hPr => ?_
        rcases (Machine.isOpen_of_nesting ht).mp ho with heq | ho
        · obtain rfl := hroot p r hp hr heq (heq ▸ hid)
          exact not_exists.mp hn
        · exact hopen' r hr hid ho hPr
      · exact .inr ⟨depth, limit, Machine.asked_of_enter_error ht⟩

/-- A value that is found without opening what is open on a stack is found on the stack. -/
theorem atRest_of_guarded {v : Outcome} (hp : p.Identified m)
    (h : m.Yields (guarded fun r => r.id < m.supply → s.isOpen r.id = false) () (.value p) v) :
    m.atRest (.value p) s = .ok v ∨ TooDeep (m.atRest (.value p) s) := by
  obtain ⟨n, hn⟩ := h.exists_level
  refine atRest_of_yields hp (.refl p) hn fun r _ hid ho hP => ?_
  exact absurd ho (Bool.eq_false_iff.mp (hP hid))

/-- At rest a provider and what is rebuilt from its classification have similar values, where there
is room for the provider. -/
theorem Provider.Classified.atRest {c : Classification}
    (h : p.Classified m s c) (hp : p.Identified m)
    (type : PayloadType) (hroom : ¬ TooDeep (m.atRest (.value p) s)) :
    (∀ v, m.atRest (.value p) s = .ok v →
      ∃ w, m.atRest (.value (ofClassification m type c)) s = .ok w ∧ v.Similar w) ∧
    (∀ w, m.atRest (.value (ofClassification m type c)) s = .ok w →
      ∃ v, m.atRest (.value p) s = .ok v ∧ v.Similar w) := by
  refine ⟨fun v hv => ?_, fun w hw => ?_⟩
  · obtain ⟨w, hw, hvw⟩ := h.follows type v (Machine.atRest_eq_ok_iff.mp hv)
    exact ⟨w, Machine.atRest_eq_ok_iff.mpr hw, hvw⟩
  · obtain ⟨v, hv, hvw⟩ := h.retraces type s w (Machine.atRest_eq_ok_iff.mp hw)
    have hv := hv.of_guard (Q := fun r => r.id < m.supply → s.isOpen r.id = false) ?_
    · exact ⟨v, (atRest_of_guarded hp hv).resolve_right hroom, hvw⟩
    · exact fun r hr hid => Bool.eq_false_iff.mpr fun ho => Bool.eq_false_iff.mp (hr hid ho) ho

/-- The provider that reproduces a classification fits where it was built. -/
theorem Provider.Fits.of_classification {m₁ m₂ : Machine} {c c' : Classification}
    {type : PayloadType} (hm : m.Minted) (hm₁ : m.Evolves m₁) (hs₁ : m₁.stack = m.stack)
    (hc : c.LooksLike m.supply m.supply m₁.supply c')
    (hplain : (ofClassification m type c').AllPlain m .lenient)
    (hq : (c.toProvider type).run engine m₁ = some (q, m₂)) :
    q.Fits m .lenient m₂ ∧ q.blur m.supply = ofClassification m type c' ∧ m₂.stack = m.stack := by
  obtain ⟨q', n, hrun, hn, hs, hlooks⟩ := hc.run_toProvider hm₁ hm₁.supply_le type
  obtain ⟨rfl, rfl⟩ := Prod.mk.inj (Option.some.inj (hq.symm.trans hrun))
  have hstack := hs.trans hs₁
  have hle := (hm₁.trans hn).supply_le
  refine ⟨⟨⟨hle, fun o ho => ?_, ?_⟩, hm₁.trans hn, hlooks.blur_eq ▸ hplain.allPlainIn _⟩,
    hlooks.blur_eq, hstack⟩
  · exact Nat.lt_of_lt_of_le (hm.frames o (hstack ▸ ho)) hle
  · refine ⟨m.supply, m₂.supply, hlooks.placed, Nat.le_refl _, fun o ho hnew _ => ?_⟩
    exact absurd (hm.frames o (hstack ▸ ho)) (Nat.not_lt.mpr hnew)

/-- The classification of a provider is known by the rules, and the provider and what is rebuilt
have their values at rest. -/
theorem run_values_of_classification {m m₁ m₂ : Machine} {p q : Provider} {c : Classification}
    {type : PayloadType} (hm : m.Minted) (hp : p.Minted m.supply) (hplain : p.AllPlain m .lenient)
    (hc : (Ask.classification p).run.run engine m = some (.ok c, m₁))
    (hq : (c.toProvider type).run engine m₁ = some (q, m₂)) :
    ∃ c' n n', c.LooksLike m.supply m.supply m₁.supply c' ∧ p.Classified m m.stack c' ∧
      (Ask.value p .lenient).run.run engine m₂ =
        some ((m.atRest (.value p) m.stack).map (·.push p.declaredName), n) ∧
      (Ask.value q .lenient).run.run engine m₂ =
        some ((m.atRest (.value (ofClassification m type c')) m.stack).map
          (·.push (ofClassification m type c').declaredName), n') := by
  have hfit : p.Fits m .lenient m := .start hm hp hplain
  -- the classification at rest, and what is rebuilt from it
  obtain ⟨x, n, hrun, hn, hs, hx⟩ := Provider.Fits.faithful (d := .classification p) hm hfit
  obtain ⟨rfl, rfl⟩ := Prod.mk.inj (Option.some.inj (hc.symm.trans hrun))
  replace hx : SameResult (Classification.LooksLike m.supply m.supply m₁.supply) (.ok c)
    (m.atRest (.classification (p.blur m.supply)) (m.stack.blur m.supply)) := hx
  rw [hp.blur_eq, ScopeStack.blur_eq hm.frames] at hx
  generalize hc' : m.atRest (.classification p) m.stack = y at hx
  obtain @⟨_, c', hlooks⟩ := hx
  have hclassified := Provider.Classified.of_yields (Machine.atRest_eq_ok_iff.mp hc')
  obtain ⟨hfitq, hblur, hs₂⟩ := Provider.Fits.of_classification hm hn hs hlooks
    (hclassified.allPlain hplain type) hq
  -- both values at rest
  obtain ⟨n, hrunp, -⟩ := (hfit.later hfitq.evolves hs₂).run_value hm
  obtain ⟨n', hrunq, -⟩ := hfitq.run_value hm
  rw [hp.blur_eq, hs₂, ScopeStack.blur_eq hm.frames] at hrunp
  have hname : (q.blur m.supply).declaredName = q.declaredName := by simp
  rw [← hname, hblur, hs₂, ScopeStack.blur_eq hm.frames] at hrunq
  exact ⟨c', n, n', hlooks, hclassified, hrunp, hrunq⟩

/-- What is rebuilt from the classification of a provider has a value if and only if the provider
has one, where there is room for the provider. Both have a payload or none has, the payloads are the
same, and to unpack them the same deeds are done on the same payloads in the same order. -/
theorem classification_keeps_meaning {m m₁ m₂ : Machine} {p q : Provider} {c : Classification}
    {type : PayloadType} (hm : m.Minted) (hp : p.Minted m.supply) (hplain : p.AllPlain m .lenient)
    (hid : p.Identified m)
    (hc : (Ask.classification p).run.run engine m = some (.ok c, m₁))
    (hq : (c.toProvider type).run engine m₁ = some (q, m₂))
    (hroom : ∀ depth limit n, (Ask.value p .lenient).run.run engine m₂ ≠
      some (.error (.tooDeep depth limit), n)) :
    ∃ r n r' n', (Ask.value p .lenient).run.run engine m₂ = some (r, n) ∧
      (Ask.value q .lenient).run.run engine m₂ = some (r', n') ∧
      ((∃ v, r = .ok v) ↔ ∃ w, r' = .ok w) ∧
      ∀ v w, r = .ok v → r' = .ok w → v.unpack.toOption = w.unpack.toOption := by
  obtain ⟨c', n, n', -, hclassified, hrunp, hrunq⟩ :=
    run_values_of_classification hm hp hplain hc hq
  obtain ⟨hfollows, hretraces⟩ := hclassified.atRest hid type fun ⟨depth, limit, hdeep⟩ =>
    hroom depth limit n (by rw [hrunp, hdeep]; rfl)
  refine ⟨_, n, _, n', hrunp, hrunq, ?_, fun v w hv hw => ?_⟩
  · constructor
    · rintro ⟨v, hv⟩
      obtain ⟨v, hv, -⟩ := map_eq_ok_iff.mp hv
      obtain ⟨w, hw, -⟩ := hfollows v hv
      exact ⟨_, map_eq_ok_iff.mpr ⟨w, hw, rfl⟩⟩
    · rintro ⟨w, hw⟩
      obtain ⟨w, hw, -⟩ := map_eq_ok_iff.mp hw
      obtain ⟨v, hv, -⟩ := hretraces w hw
      exact ⟨_, map_eq_ok_iff.mpr ⟨v, hv, rfl⟩⟩
  · obtain ⟨v, hp, rfl⟩ := map_eq_ok_iff.mp hv
    obtain ⟨w, hq, rfl⟩ := map_eq_ok_iff.mp hw
    obtain ⟨w', hq', hvw⟩ := hfollows v hp
    obtain rfl := Except.ok.inj (hq.symm.trans hq')
    exact (hvw.push _ _).unpack

def steadyLeaf (i : Identity) : Provider :=
  .changing i .int none ⟨0, fun _ => .compute fun _ => .ok (some (.int 3)), none⟩

def doubledLeaf (i j : Identity) : Provider :=
  .map i (steadyLeaf j) ⟨.compute fun y => .ok (y.add y), none⟩ .int

theorem steadyLeaf_plain (i : Identity) : (steadyLeaf i).Plain m .lenient :=
  ⟨.ok (some (.int 3)), fun _ => ⟨.compute _, rfl⟩⟩

/-- The leaf and its double are all that may come up. -/
theorem doubledLeaf_reaches {i j : Identity} (h : (doubledLeaf i j).Reaches m q) :
    q = doubledLeaf i j ∨ q = steadyLeaf j := by
  refine h.mem (S := fun q => q = _ ∨ q = _) (.inl rfl) ?_
  rintro q r (rfl | rfl) h
  · cases h
    exact .inr rfl
  · cases h

/-- The leaf is classified as changing, and the map is rebuilt around it. -/
theorem classification_keeps_meaning_doubledLeaf :
    ∃ m₂ n, (Ask.classification (doubledLeaf 1 0)).run.run engine
        { Machine.fresh 8 with supply := 2 } = some (.ok (.changing (doubledLeaf 3 2)), m₂) ∧
      ∃ w, (Ask.value (doubledLeaf 3 2) .lenient).run.run engine m₂ = some (.ok w, n) ∧
        w.unpack.toOption = some (.int 6, []) := by
  have hclassify : (Ask.classification (doubledLeaf 1 0)).run.run engine
      { Machine.fresh 8 with supply := 2 } =
        some (.ok (.changing (doubledLeaf 3 2)), { Machine.fresh 8 with supply := 4 }) :=
    Eval.run_engine_of_answer 3 rfl
  have hvalue : (Ask.value (doubledLeaf 1 0) .lenient).run.run engine
      { Machine.fresh 8 with supply := 4 } = some (.ok (.present (.int 6) none),
        ({ Machine.fresh 8 with supply := 4 }).bump 0) :=
    Eval.run_engine_of_answer 4 rfl
  have hminted : ({ Machine.fresh 8 with supply := 2 } : Machine).Minted :=
    ⟨by simp [Machine.fresh, ScopeStack.empty], by simp [Machine.fresh], by simp [Machine.fresh],
      by simp [Machine.fresh, Machine.property]⟩
  obtain ⟨r, n, r', n', hr, hr', hiff, hsame⟩ := classification_keeps_meaning
    (p := doubledLeaf 1 0) hminted ⟨by decide, by decide, by decide⟩
    (fun q hq => by
      rcases doubledLeaf_reaches hq with rfl | rfl
      · exact .compute _
      · exact steadyLeaf_plain 0)
    (fun q r hq hr hid _ => by
      rcases doubledLeaf_reaches hq with rfl | rfl <;>
        rcases doubledLeaf_reaches hr with rfl | rfl <;> first | rfl | exact absurd hid (by decide))
    hclassify (show (Classification.toProvider .int _).run engine _ = _ from rfl) (by simp [hvalue])
  obtain ⟨rfl, rfl⟩ := Prod.mk.inj (Option.some.inj (hvalue.symm.trans hr))
  obtain ⟨w, rfl⟩ := hiff.mp ⟨_, rfl⟩
  exact ⟨_, n', hclassify, w, hr', (hsame _ w rfl rfl).symm⟩

end ProviderGraph
