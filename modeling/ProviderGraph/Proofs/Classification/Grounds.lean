import ProviderGraph.Proofs.Classification.AlikeProviders
import ProviderGraph.Proofs.Classification.SimilarValues
import ProviderGraph.Proofs.Effect.StrictReadings
import ProviderGraph.Proofs.Engine.AttemptComposition

/-!
# What providers rest on

A provider rests on the values of locked properties if these decide what it gives, without a call of
any leaf (`Provider.RestsOn`). A locked property gives one value for good, as long as the names that
recipes refer to are left alone. User code cannot change it, and a finalization keeps the value
(`Ground.sound`).
-/

namespace ProviderGraph

open Provider (Alike)

/-- The values of some properties, before their names, and a machine whose registers hold what
recipes of a region refer to. -/
structure Ground where
  region : Region
  machine : Machine
  /-- The property gives the value. -/
  Gives : Identity → Outcome → Prop

/-- The registers of the region hold what they did. -/
abbrev Ground.SameNames (g : Ground) (k : Machine) : Prop := g.region.SameNames g.machine k

variable {g g' : Ground} {α β : Type} {m k n o : Machine} {p q : Provider} {v w : Outcome}
  {i : Identity} {c : Reading} {S : States} {s s' : Property}

/-! ### Values -/

theorem Value.push_none {δ : Type} (v : Value δ) : v.push none = v := by
  cases v <;> rfl

/-- The provider gives the value, with its declared name, if properties give those of the ground.
What is transformed and chosen on the way is so by pure code, and no leaf is called. -/
inductive Provider.RestsOn (g : Ground) : Provider → Outcome → Prop where
  | fixed (i : Identity) (x : Payload) : RestsOn g (.fixed i x) (.present x none)
  | undefined (i : Identity) (type : PayloadType) (path : List String) :
    RestsOn g (.undefined i type path) (.missing path)
  | map (i : Identity) {base : Provider} {f : Closure} (type : PayloadType) {v w : Outcome}
    (h : RestsOn g base v) (hf : f.code.Pure) (hw : f.mapped v = .ok w) :
    RestsOn g (.map i base f type) w
  | flatMapMissing (i : Identity) {base : Provider} (choice : Recipe) (type : PayloadType)
    {path : List String} (h : RestsOn g base (.missing path)) :
    RestsOn g (.flatMap i base choice type) (.missing path)
  | flatMap (i : Identity) {base q : Provider} {choice : Recipe} {type : PayloadType} {x : Payload}
    {e : Option Effect} {w : Outcome} (h : RestsOn g base (.present x e))
    (hc : choice.Twin g.region choice)
    (hq : chosen g.machine choice type x (SideEffect.boundTo x e) = .ok q) (h' : RestsOn g q w) :
    RestsOn g (.flatMap i base choice type) w
  | left (i : Identity) {l : Provider} (r : Provider) {x : Payload} {e : Option Effect}
    (h : RestsOn g l (.present x e)) : RestsOn g (.orElse i l r) (.present x e)
  | right (i : Identity) {l r : Provider} {path : List String} {w : Outcome}
    (h : RestsOn g l (.missing path)) (h' : RestsOn g r w) :
    RestsOn g (.orElse i l r) (if w.isMissing then .missing (path ++ w.path) else w)
  | withEffect (i : Identity) {inner : Provider} (e : Effect) {v : Outcome}
    (h : RestsOn g inner v) : RestsOn g (.withEffect i inner e) (v.withEffect (some e))
  | named (i : Identity) {inner : Provider} (name : String) {v : Outcome} (h : RestsOn g inner v) :
    RestsOn g (.named i inner name) (v.push (some name))
  | property {r : PropertyRef} {v : Outcome} (h : g.Gives r.id v) :
    RestsOn g (.property r) (v.push r.name)

namespace Provider.RestsOn

/-- A larger ground does as well. -/
theorem mono (h : p.RestsOn g v) (hregion : g'.region = g.region)
    (hmachine : g'.machine = g.machine) (hgives : ∀ i v, g.Gives i v → g'.Gives i v) :
    p.RestsOn g' v := by
  induction h with
  | fixed i x => exact .fixed i x
  | undefined i type path => exact .undefined i type path
  | map i type _ hf hw ih => exact .map i type ih hf hw
  | flatMapMissing i choice type _ ih => exact .flatMapMissing i choice type ih
  | flatMap i _ hc hq _ ih ih' =>
    exact .flatMap i ih (by rwa [hregion]) (by rwa [hmachine]) ih'
  | left i r _ ih => exact .left i r ih
  | right i _ _ ih ih' => exact .right i ih ih'
  | withEffect i e _ ih => exact .withEffect i e ih
  | named i name _ ih => exact .named i name ih
  | property h => exact .property (hgives _ _ h)

/-- Identities do not matter. -/
theorem alike (h : p.RestsOn g v) (hq : p.Alike q) : q.RestsOn g v := by
  have hblur := hq.symm
  rw [Alike] at hblur
  induction h generalizing q with
  | fixed i x =>
    obtain ⟨j, rfl⟩ := exists_fixed_of_blur hblur
    exact .fixed j x
  | undefined i type path =>
    obtain ⟨j, rfl⟩ := exists_undefined_of_blur hblur
    exact .undefined j type path
  | map i type _ hf hw ih =>
    obtain ⟨j, base, rfl, hbase⟩ := exists_map_of_blur hblur
    exact .map j type (ih hbase.symm hbase) hf hw
  | flatMapMissing i choice type _ ih =>
    obtain ⟨j, base, rfl, hbase⟩ := exists_flatMap_of_blur hblur
    exact .flatMapMissing j choice type (ih hbase.symm hbase)
  | flatMap i _ hc hchosen h' ih _ =>
    obtain ⟨j, base, rfl, hbase⟩ := exists_flatMap_of_blur hblur
    exact .flatMap j (ih hbase.symm hbase) hc hchosen h'
  | left i r _ ih =>
    obtain ⟨j, l, r, rfl, hl, -⟩ := exists_orElse_of_blur hblur
    exact .left j r (ih hl.symm hl)
  | right i _ _ ih ih' =>
    obtain ⟨j, l, r, rfl, hl, hr⟩ := exists_orElse_of_blur hblur
    exact .right j (ih hl.symm hl) (ih' hr.symm hr)
  | withEffect i e _ ih =>
    obtain ⟨j, inner, rfl, hinner⟩ := exists_withEffect_of_blur hblur
    exact .withEffect j e (ih hinner.symm hinner)
  | named i name _ ih =>
    obtain ⟨j, inner, rfl, hinner⟩ := exists_named_of_blur hblur
    exact .named j name (ih hinner.symm hinner)
  | property h =>
    obtain rfl := eq_property_of_blur hblur
    exact .property h

/-- What was made for a value gives it on any ground. -/
theorem of_kept? (h : p.kept? = some w) : p.RestsOn g w := by
  rcases kept?_eq_some_iff.mp h with
    ⟨i, x, rfl, rfl⟩ | ⟨i, j, x, e, rfl, rfl⟩ | ⟨i, type, path, rfl, rfl⟩
  · exact .fixed i x
  · exact .withEffect i e (.fixed j x)
  · exact .undefined i type path

end Provider.RestsOn

/-- What a flat map goes on with is what is chosen on the machine of the ground, if the recipe is
built alike. -/
theorem alike_of_run_chooseNext {choice : Recipe} {type : PayloadType} {x : Payload}
    {e : Option Effect}
    (hbuild : ∀ t a o, k.stack.enter p.owner = .ok t →
      engine (.build choice (some x)) { k with stack := t } = some (a, o) →
      SameResult (Option.Rel Alike) a (choice.plan m (some x)))
    (hrun : (chooseNext p choice type (.present x e)).run.run engine k = some (.ok q, n)) :
    ∃ q', Provider.chosen m choice type x (SideEffect.boundTo x e) = .ok q' ∧ q.Alike q' := by
  obtain ⟨a, k₁, hwithin, hrest⟩ := Eval.run_bindExcept_ok hrun
  obtain ⟨t, k₂, ht, hbody, -⟩ := Eval.run_within_ok hwithin
  -- the recipe is built in the scope, and what it builds is settled outside
  have hlift : (liftM (Ask.build choice (some x)).run : Attempt _).run.run engine
      { k with stack := t } = some (.ok a, k₂) := hbody
  obtain ⟨⟨b, k₃⟩, hask, hb⟩ :=
    Option.bind_eq_some_iff.mp ((Eval.run_bind _ _ _ _).symm.trans hlift)
  cases hb
  have hsame := hbuild t _ _ ht ((Eval.run_ask _ _ _).symm.trans hask)
  obtain ⟨q?, k₄, hsettle, hlast⟩ := Eval.run_bindExcept_ok hrest
  rw [Provider.chosen]
  generalize choice.plan m (some x) = plan at hsame ⊢
  cases hsame with
  | error failure => exact absurd hsettle (run_settle_error failure)
  | ok hq =>
    cases hsettle
    cases hq with
    | none =>
      cases hlast
      exact ⟨_, rfl, .undefined []⟩
    | some hq =>
      cases e with
      | none =>
        cases hlast
        exact ⟨_, rfl, hq⟩
      | some e =>
        cases hlast
        exact ⟨_, rfl, hq.withEffect _⟩

/-- What pure code is called for is its result. -/
theorem result_of_run_applyTransform {f : Closure} {x : Payload} {y : Option Payload}
    (hf : f.code.Pure) (hrun : (applyTransform p f x).run.run engine k = some (.ok y, n)) :
    f.code.result f.held x = .ok y := by
  obtain ⟨a, k₁, hwithin, hsettle⟩ := Eval.run_bindExcept_ok hrun
  obtain ⟨t, k₂, -, hbody, -⟩ := Eval.run_within_ok hwithin
  cases hbody.symm.trans (Eval.run_bind_of (hf.computes f.held x _) _)
  cases hr : f.code.result f.held x with
  | error failure =>
    rw [hr] at hsettle
    exact absurd hsettle (run_settle_error failure)
  | ok y' =>
    rw [hr] at hsettle
    cases hsettle
    rfl

/-! ### Properties -/

/-- The property is finalized, or closed to changes. -/
def Property.Locked (s : Property) : Prop := s.finalized = true ∨ s.changesDisallowed = true

/-- The property is locked and gives the value. -/
structure Property.Upholds (g : Ground) (s : Property) (v : Outcome) : Prop where
  locked : s.Locked
  gives : (s.effective = none ∧ v = .missing []) ∨ ∃ q, s.effective = some q ∧ q.RestsOn g v

/-- The properties give the values of the ground. -/
def Ground.Stands (g : Ground) (S : States) : Prop := ∀ i v, g.Gives i v → (S i).Upholds g v

/-- The value is the one that the property gives on the ground, if there is one. -/
def Ground.Allows (g : Ground) (i : Identity) (w : Outcome) : Prop := ∀ v, g.Gives i v → w = v

/-- User code does not change what a locked property gives. -/
theorem Property.Upholds.turn (h : s.Upholds g v) (hs : s.Turn s') : s'.Upholds g v := by
  have refused (hf : s.finalized = false) (hd : s.changesDisallowed = false) : False := by
    rcases h.locked with hlocked | hlocked
    · exact absurd (hlocked.symm.trans hf) (by decide)
    · exact absurd (hlocked.symm.trans hd) (by decide)
  cases hs with
  | put v hf hd => exact (refused hf hd).elim
  | convention q hf hd => exact (refused hf hd).elim
  | attach node => exact ⟨h.locked, h.gives⟩
  | markFinalizeOnRead => exact ⟨h.locked, h.gives⟩
  | disallowChanges => exact ⟨.inr rfl, h.gives⟩

/-- A finalization with the value of the ground does not either. -/
theorem Property.Upholds.settles (h : s.Upholds g v) (hv : g.Gives i v)
    (hs : s.Settles (g.Allows i) s') : s'.Upholds g v := by
  obtain ⟨frozen, t, w, hw, hkept, rfl⟩ := hs
  cases hf : s.finalized with
  | true =>
    rw [Property.commit_of_finalized hf]
    exact h
  | false =>
    have hkeeps : (s.commit frozen t).Keeps frozen w := Property.keeps_commit hf hkept
    obtain rfl := hw v hv
    exact ⟨.inl hkeeps.finalized, .inr ⟨frozen, hkeeps.effective, .of_kept? hkept⟩⟩

/-- The ground stands after each change that is licensed by it. -/
theorem Ground.Stands.update (h : g.Stands S) {own : Option Query}
    (hs : License g.Allows own i (S i) s) : g.Stands (Function.update S i s) := by
  intro j v hv
  by_cases hj : j = i
  · subst hj
    rw [Function.update_self]
    rcases hs with hturn | ⟨r, -, -, hsettles⟩
    · exact (h j v hv).turn hturn
    · exact (h j v hv).settles hv hsettles
  · rw [Function.update_of_ne hj]
    exact h j v hv

theorem Property.Upholds.mono (h : s.Upholds g v) (hregion : g'.region = g.region)
    (hmachine : g'.machine = g.machine) (hgives : ∀ i v, g.Gives i v → g'.Gives i v) :
    s.Upholds g' v where
  locked := h.locked
  gives := h.gives.imp_right fun ⟨q, hq, hrests⟩ => ⟨q, hq, hrests.mono hregion hmachine hgives⟩

/-! ### The largest ground -/

/-- All that locked properties give for good on the machine. -/
def Ground.largest (R : Region) (m : Machine) : Ground where
  region := R
  machine := m
  Gives i v := ∃ G, Ground.Stands ⟨R, m, G⟩ m.property ∧ G i v

/-- A machine gives what its locked properties give. -/
theorem Ground.largest_stands (R : Region) (m : Machine) : (largest R m).Stands m.property := by
  rintro i v ⟨G, hG, hv⟩
  exact (hG i v hv).mono rfl rfl fun _ _ hj => ⟨G, hG, hj⟩

/-- What a locked property gives on the largest ground is a part of it. -/
theorem Ground.largest_gives {R : Region} (h : (m.property i).Upholds (largest R m) v) :
    (largest R m).Gives i v := by
  refine ⟨fun j w => (j = i ∧ w = v) ∨ (largest R m).Gives j w, ?_, .inl ⟨rfl, rfl⟩⟩
  rintro j w (⟨rfl, rfl⟩ | hw)
  · exact h.mono rfl rfl fun _ _ => .inr
  · exact (largest_stands R m j w hw).mono rfl rfl fun _ _ => .inr

/-! ### Answers -/

/-- What a question is answered where the ground stands and names are left alone. -/
def Ground.Right (g : Ground) : Trust
  | .ownValue p _, a => ∀ u, a = .ok u → ∀ v, p.RestsOn g v → u.push p.declaredName = v
  | .act a held x, r => a.Pure → r = a.result held x
  | .build r held, a => r.Twin g.region r →
    SameResult (Option.Rel Alike) a (r.plan g.machine held)
  | _, _ => True

/-- Where the question comes up the names are left alone, and its answer is right and leaves the
ground standing if the ground stands. -/
def Ground.Sound (g : Ground) (q : Query) (k : Machine) : Prop :=
  g.SameNames k ∧ (g.Stands k.property → ∀ r, engine q k = some r →
    g.Stands r.2.property ∧ g.Right q r.1)

/-- The rule of a question changes properties as the ground licenses it. -/
theorem Ground.Stands.rule_abides (h : g.Stands S) (q : Query) :
    (rule q).Abides (License g.Allows (some q)) g.Right S fun _ _ => True := by
  by_cases hq : ∃ r, q = .finalize r
  · -- what is committed was read from what the property holds
    obtain ⟨r, rfl⟩ := hq
    apply evalFinalize_abides r
    · intro _ hnone v hv
      rcases (h r.id v hv).gives with ⟨-, rfl⟩ | ⟨q, hq, -⟩
      · rfl
      · cases hnone.symm.trans hq
    · intro q u _ hsome hu v hv
      rcases (h r.id v hv).gives with ⟨hnone, -⟩ | ⟨q', hq', hrests⟩
      · cases hnone.symm.trans hsome
      · obtain rfl := Option.some.inj (hq'.symm.trans hsome)
        exact hu u rfl v hrests
  · apply (rule_tame q fun r hr => hq ⟨r, hr⟩).abides
    exact fun _ _ _ hturn => .inl hturn

/-- A tame part leaves the ground standing. -/
theorem Ground.Stands.of_tame {x : Eval α} (hx : x.Tame) (h : g.Stands k.property)
    (hask : ∀ q n, x.Raises k q n → g.Sound q n) {r : α × Machine} (hr : x.run engine k = some r) :
    g.Stands r.2.property := by
  have habides : x.Abides (License g.Allows none) g.Right k.property fun _ _ => True :=
    hx.abides (fun _ _ _ hturn => .inl hturn) _ _
  exact (habides.run (J := g.Stands) (fun _ _ _ hS hs => hS.update hs) h
    (fun q n hq hn r hr => (hask q n hq).2 hn r hr) hr).1

/-! ### Readings -/

/-- Where the ground stands, and what is raised is sound, a result is as told by `P`. -/
def Attempt.Shows (g : Ground) (x : Attempt α) (P : α → Prop) : Prop :=
  ∀ k a n, g.Stands k.property → (∀ q o, x.run.Raises k q o → g.Sound q o) →
    x.run.run engine k = some (.ok a, n) → g.Stands n.property ∧ P a

namespace Attempt.Shows

variable {P : α → Prop} {Q : β → Prop}

theorem pure {a : α} (h : P a) : Shows g (Pure.pure a) P := by
  intro k b n hk _ hrun
  cases hrun
  exact ⟨hk, h⟩

theorem bind {x : Attempt α} {f : α → Attempt β} (hx : x.Shows g P)
    (hf : ∀ a, P a → (f a).Shows g Q) : (x >>= f).Shows g Q := by
  intro k b n hk hask hrun
  obtain ⟨a, k₁, hrun, hrun'⟩ := Eval.run_bindExcept_ok hrun
  obtain ⟨hk₁, ha⟩ :=
    hx k a k₁ hk (fun q o h => hask q o (Eval.raises_bindExcept.mpr (.inl h))) hrun
  exact hf a ha k₁ b n hk₁
    (fun q o h => hask q o (Eval.raises_bindExcept.mpr (.inr ⟨a, k₁, hrun, h⟩))) hrun'

theorem within {o : Owner} {x : Attempt α} (hx : x.Shows g P) :
    (ProviderGraph.within o x).Shows g P := by
  intro k a n hk hask hrun
  obtain ⟨t, k₁, ht, hbody, rfl⟩ := Eval.run_within_ok hrun
  exact hx { k with stack := t } a k₁ hk
    (fun q o h => hask q o (Eval.raises_within.mpr ⟨t, ht, h⟩)) hbody

/-- A provider that rests on the ground is read as what it gives. -/
theorem value (hp : p.RestsOn g v) (c : Reading) : (Ask.value p c).Shows g (· = v) := by
  intro k a n hk hask hrun
  have hsound := hask _ _ (Eval.raises_value.mpr ⟨rfl, rfl⟩)
  obtain ⟨u, k₁, hrun, hrun'⟩ := Eval.run_bindExcept_ok hrun
  cases hrun'
  obtain ⟨hn, hu⟩ := hsound.2 hk _ ((Eval.run_ask _ _ _).symm.trans hrun)
  exact ⟨hn, hu u rfl v hp⟩

/-- What a tame part raises is enough to know of its result. -/
theorem of_tame {x : Attempt α} (hx : x.run.Tame)
    (h : ∀ k a n, g.Stands k.property → (∀ q o, x.run.Raises k q o → g.Sound q o) →
      x.run.run engine k = some (.ok a, n) → P a) : x.Shows g P :=
  fun k a n hk hask hrun => ⟨hk.of_tame hx hask hrun, h k a n hk hask hrun⟩

/-- A pure transform gives the result of its function. -/
theorem applyTransform {f : Closure} (hf : f.code.Pure) (x : Payload) :
    (ProviderGraph.applyTransform p f x).Shows g fun y => f.code.result f.held x = .ok y := by
  apply of_tame (Eval.Tame.parts.applyTransform p f x)
  intro k y n _ _ hrun
  exact result_of_run_applyTransform hf hrun

/-- A flat map goes on with what its code chooses on the ground. -/
theorem chooseNext {choice : Recipe} (hc : choice.Twin g.region choice) (type : PayloadType)
    (x : Payload) (e : Option Effect) :
    (ProviderGraph.chooseNext p choice type (.present x e)).Shows g fun q =>
      ∃ q', Provider.chosen g.machine choice type x (SideEffect.boundTo x e) = .ok q' ∧
        q.Alike q' := by
  apply of_tame (Eval.Tame.parts.chooseNext p choice type _)
  intro k q n hk hask hrun
  refine alike_of_run_chooseNext (fun t a o ht hbuild => ?_) hrun
  have hraised : (ProviderGraph.chooseNext p choice type (.present x e)).run.Raises k
      (.build choice (some x)) { k with stack := t } := by
    apply Eval.raises_bindExcept.mpr
    exact .inl (Eval.raises_within.mpr ⟨t, ht, .inl ⟨rfl, rfl⟩⟩)
  exact ((hask _ _ hraised).2 hk _ hbuild).2 hc

/-- What is computed from the result is a part of it. -/
theorem imp {x : Attempt α} {P' : α → Prop} (hx : x.Shows g P) (h : ∀ a, P a → P' a) :
    x.Shows g P' := by
  intro k a n hk hask hrun
  exact (hx k a n hk hask hrun).imp_right (h a)

/-- What is read from a property that the ground tells of is read as told. -/
theorem property {r : PropertyRef} (hv : g.Gives r.id v) {f : Property → Attempt α}
    (hf : ∀ s, s.Upholds g v → (f s).Shows g P) : (liftM (Eval.property r.id) >>= f).Shows g P := by
  intro k a n hk hask hrun
  exact hf _ (hk r.id v hv) k a n hk (fun q o h => hask q o (Eval.raises_property_bind.mpr h))
    (Eval.run_property_bind.symm.trans hrun)

/-- The rule of a provider that rests on the ground gives what it gives. -/
theorem evalValue (hp : p.RestsOn g v) (c : Reading) :
    (ProviderGraph.evalValue p c).Shows g fun u => u.push p.declaredName = v := by
  cases hp with
  | fixed i x => exact .pure rfl
  | undefined i type path => exact .pure rfl
  | map i type h hf hw =>
    apply bind (within (value h c))
    rintro u rfl
    cases u with
    | missing path =>
      cases hw
      exact .pure rfl
    | present x e =>
      apply bind (applyTransform hf x)
      intro y hy
      rw [Closure.mapped, hy] at hw
      cases hw
      exact .pure (Value.push_none _)
  | flatMapMissing i choice type h =>
    apply bind (within (value h c))
    rintro _ rfl
    exact .pure rfl
  | flatMap i h hc hq h' =>
    apply bind (within (value h c))
    rintro _ rfl
    apply bind (chooseNext hc _ _ _)
    rintro q ⟨q', hq', halike⟩
    obtain rfl := Except.ok.inj (hq'.symm.trans hq)
    apply (within (value (h'.alike halike.symm) c)).imp
    rintro _ rfl
    exact Value.push_none _
  | left i r h =>
    apply bind (within (value h c))
    rintro _ rfl
    exact .pure rfl
  | right i h h' =>
    apply bind (within (value h c))
    rintro _ rfl
    apply bind (within (value h' c))
    rintro w rfl
    cases w with
    | present x e => exact .pure rfl
    | missing path' => exact .pure rfl
  | withEffect i e h =>
    apply bind (within (value h c))
    rintro _ rfl
    exact .pure (Value.push_none _)
  | named i name h =>
    apply (within (value h c)).imp
    rintro _ rfl
    rfl
  | @property r _ h =>
    apply bind (of_tame (Eval.Tame.parts.finalizeFor r c) fun _ _ _ _ _ _ => trivial)
    rintro _ -
    apply property h
    intro s hs
    rcases hs.gives with ⟨hnone, rfl⟩ | ⟨q, hq, hrests⟩
    · rw [hnone]
      exact .pure rfl
    · rw [hq]
      apply (within (value hrests c)).imp
      rintro _ rfl
      rfl

end Attempt.Shows

/-! ### Soundness -/

/-- Where names are left alone, answers are right, and a ground that stands goes on to stand. -/
theorem Ground.sound {q : Query} (hnames : ∀ q' k', Brings q k q' k' → g.SameNames k') :
    g.Sound q k := by
  refine ⟨hnames q k .self, fun hk r hr => ?_⟩
  rw [engine_eq_some_iff] at hr
  obtain ⟨fuel, hr⟩ := hr
  -- what is raised on the way is answered with less fuel, and so it is sound
  induction fuel generalizing q k with
  | zero => exact absurd hr (by simp)
  | succ fuel ih =>
    have hrun : (rule q).run (answer fuel) k = some r := hr
    have hraised q' k' (h : (rule q).Raises k q' k') : g.Sound q' k' := by
      refine ⟨hnames q' k' (.raised h .self), fun hk' s hs => ?_⟩
      obtain ⟨s', hs'⟩ := h.answered hrun
      obtain rfl := Option.some.inj ((engine_of_answer hs').symm.trans hs)
      exact ih (fun q'' k'' h' => hnames q'' k'' (.raised h h')) hk' _ hs'
    have hrun := Eval.run_engine_of_answer fuel hrun
    refine ⟨((hk.rule_abides q).run (fun _ _ _ hS hs => hS.update hs) hk
      (fun q' k' h hk' s hs => (hraised q' k' h).2 hk' s hs) hrun).1, ?_⟩
    cases q with
    | ownValue p c =>
      intro u hu v hv
      obtain ⟨a, n⟩ := r
      cases hu
      exact (Attempt.Shows.evalValue hv c k u n hk hraised hrun).2
    | act a held x =>
      intro ha
      exact congrArg Prod.fst (Option.some.inj
        ((engine_of_answer hr).symm.trans (ha.engine_act held x k)))
    | build recipe held =>
      intro htwin
      exact htwin.sameResult_of_engine (hnames _ _ .self) (engine_of_answer hr)
    | _ => trivial

/-- A ground that stands does so wherever something comes up. -/
theorem Ground.Stands.brings {q q' : Query} (h : Brings q k q' n)
    (hnames : ∀ q'' k', Brings q k q'' k' → g.SameNames k') (hk : g.Stands k.property) :
    g.Stands n.property := by
  induction h with
  | self => exact hk
  | raised hr _ ih =>
    apply ih fun q'' k' h' => hnames q'' k' (.raised hr h')
    apply (hk.rule_abides _).raises (fun _ _ _ hS hs => hS.update hs) hk _ hr
    exact fun q₂ k₂ h₂ => (Ground.sound fun q₃ k₃ h₃ => hnames q₃ k₃ (.raised h₂ h₃)).2

/-- What rests on a ground that stands is read as what it gives. -/
theorem Provider.RestsOn.eq_of_run (h : p.RestsOn g v) (hk : g.Stands k.property)
    (hnames : ∀ q k', Brings (.ownValue p c) k q k' → g.SameNames k')
    (hrun : (Ask.value p c).run.run engine k = some (.ok w, n)) : w = v := by
  refine (Attempt.Shows.value h c k w n hk (fun q o hq => ?_) hrun).2
  obtain ⟨rfl, rfl⟩ := Eval.raises_value.mp hq
  exact Ground.sound hnames

end ProviderGraph
