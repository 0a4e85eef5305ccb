import ProviderGraph.Proofs.Classification.Grounds
import ProviderGraph.Proofs.Classification.Repetition

/-!
# Fixed for good

A provider that is classified as fixed keeps its value, whatever is asked for afterwards, if each
property that was looked at is locked (`fixed_for_good`). What is decided then rests on what these
properties give (`Provider.Twin.restsWith`). A property that is open to changes is classified by
what it holds as well, so that its value may be called fixed and change (`fixed_payload_changes`).
-/

namespace ProviderGraph

variable {R : Region} {m n o : Machine} {s : ScopeStack} {k : Identity} {p : Provider}
  {x y : Payload} {e : Option Effect} {path : List String} {α : Type}

/-! ### What is decided rests on locked properties -/

/-- If the question is how a property is classified, then the property is locked. -/
def Query.OfLocked (m : Machine) (q : Query) : Prop :=
  ∀ r, q = .classification (.property r) → (m.property r.id).Locked

/-- Where the classification decides, the provider rests on what locked properties give, and what
it gives is what was decided. -/
def Classification.RestsWith (R : Region) (m : Machine) (p : Provider) (c : Classification) :
    Prop :=
  c.isChanging = false → ∃ v, c.Settles v ∧ p.RestsOn (.largest R m) v

/-- A declared name changes nothing about what was decided. -/
theorem Classification.Settles.push {d : Classification} {v : Outcome} (h : d.Settles v)
    (name : Option String) : d.Settles (v.push name) := by
  cases h with
  | fixed x e => exact .fixed x e
  | missing path path' => exact .missing path _

namespace Classification.RestsWith

theorem changing (q : Provider) : RestsWith R m p (.changing q) := nofun

theorem fixed (h : p.RestsOn (.largest R m) (.present x e)) : RestsWith R m p (.fixed x e) :=
  fun _ => ⟨_, .fixed x e, h⟩

theorem missing {path' : List String} (h : p.RestsOn (.largest R m) (.missing path')) :
    RestsWith R m p (.missing path) := fun _ => ⟨_, .missing path path', h⟩

/-- What is classified as fixed rests on locked properties. -/
theorem restsOn_of_fixed (h : RestsWith R m p (.fixed x e)) :
    p.RestsOn (.largest R m) (.present x e) := by
  obtain ⟨v, hv, hrests⟩ := h rfl
  cases hv
  exact hrests

/-- What is classified as missing rests on locked properties. -/
theorem restsOn_of_missing (h : RestsWith R m p (.missing path)) :
    ∃ path', p.RestsOn (.largest R m) (.missing path') := by
  obtain ⟨v, hv, hrests⟩ := h rfl
  cases hv
  exact ⟨_, hrests⟩

end Classification.RestsWith

open Classification (RestsWith)

/-- What is known of the result of a run. -/
theorem Attempt.Comes.and_run {C : Query → Prop} {P : Identity → α → Prop} {Q : α → Prop}
    {x : Attempt α} (hx : x.Comes C m s k P)
    (h : ∀ a n, x.run.run engine (m.moment s k) = some (.ok a, n) → Q a) :
    x.Comes C m s k fun k' a => P k' a ∧ Q a := by
  intro hC a n hrun
  obtain ⟨k', hk, hn, ha⟩ := hx hC a n hrun
  exact ⟨k', hk, hn, ha, h a n hrun⟩

section Rules

variable (hm : m.Twin R m) {i : Identity}
  (inside : ∀ {o : Owner} {q : Provider} {k : Identity}, q.Twin R q →
    (within o (Ask.classification q)).Comes (Query.OfLocked m) m s k fun _ c => c.RestsWith R m q)

include hm inside

/-- The classification of a map rests on what that of its base rests on. -/
theorem Provider.Twin.restsWith_map {base : Provider} {f : Closure} {type : PayloadType}
    (hbase : base.Twin R base) (hf : f.code.Pure) :
    (evalClassification (.map i base f type)).Comes (Query.OfLocked m) m s k fun _ c =>
      c.RestsWith R m (.map i base f type) := by
  apply Attempt.Comes.bind (inside hbase)
  rintro k' c - hc
  cases c with
  | changing q => exact .bind .identity fun _ _ _ _ => .pure (.changing _)
  | missing path =>
    obtain ⟨path', hrests⟩ := hc.restsOn_of_missing
    exact .pure (.missing (.map i type hrests hf rfl))
  | fixed x e =>
    have htwin : (Provider.map i base f type).Twin R (.map i base f type) := .map i type hbase hf
    apply Attempt.Comes.bind ((Attempt.Comes.of_sideBySide
      (htwin.applyTransform hm hf x)).and_run fun _ _ => result_of_run_applyTransform hf)
    rintro k'' y - ⟨-, hy⟩
    have hmapped : f.mapped (.present x e) =
        .ok ((Value.ofOption y).withEffect (SideEffect.boundTo x e)) := by
      rw [Closure.mapped, hy]
      rfl
    have hrests := Provider.RestsOn.map i type hc.restsOn_of_fixed hf hmapped
    cases y with
    | none => exact .pure (.missing hrests)
    | some y => exact .pure (.fixed hrests)

/-- What a flat map goes on with is chosen again when it is read, but for identities. -/
theorem Provider.Twin.restsWith_flatMap {base : Provider} {choice : Recipe} {type : PayloadType}
    (hbase : base.Twin R base) (hchoice : choice.Twin R choice) :
    (evalClassification (.flatMap i base choice type)).Comes (Query.OfLocked m) m s k fun _ c =>
      c.RestsWith R m (.flatMap i base choice type) := by
  apply Attempt.Comes.bind (inside hbase)
  rintro k' c - hc
  cases c with
  | changing q => exact .bind .identity fun _ _ _ _ => .pure (.changing _)
  | missing path =>
    obtain ⟨path', hrests⟩ := hc.restsOn_of_missing
    exact .pure (.missing (.flatMapMissing i choice type hrests))
  | fixed x e =>
    have htwin : (Provider.flatMap i base choice type).Twin R (.flatMap i base choice type) :=
      .flatMap i type hbase hchoice
    apply Attempt.Comes.bind ((Attempt.Comes.of_sideBySide
      (htwin.chooseNext hm hchoice type (.present x e))).and_run fun q n =>
        alike_of_run_chooseNext fun t _ _ _ => hchoice.sameResult_of_engine (.moment R m t k'))
    rintro k'' q - ⟨hq, q', hq', halike⟩
    apply (inside hq).imp
    rintro _ c - hnext hdecided
    obtain ⟨v, hv, hrests⟩ := hnext hdecided
    exact ⟨v, hv, .flatMap i hc.restsOn_of_fixed hchoice hq' (hrests.alike halike)⟩

/-- The classification of a property rests on the property, if it is locked. -/
theorem Provider.Twin.restsWith_property {r : PropertyRef} (hr : R.property r.id)
    (hlocked : (m.property r.id).Locked) :
    (evalClassification (.property r)).Comes (Query.OfLocked m) m s k fun _ c =>
      c.RestsWith R m (.property r) := by
  have heff := hm.effective r.id hr
  refine .property (fun hnone => ?_) fun q hq => ?_
  · exact .missing (.property (Ground.largest_gives ⟨hlocked, .inl ⟨hnone, rfl⟩⟩))
  · rw [hq] at heff
    cases heff with
    | some htwin =>
      apply (inside htwin).imp
      rintro _ c - hc hdecided
      obtain ⟨v, hv, hrests⟩ := hc hdecided
      exact ⟨v.push r.name, hv.push r.name,
        .property (Ground.largest_gives ⟨hlocked, .inr ⟨_, hq, hrests⟩⟩)⟩

omit hm

/-- The classification of a fallback rests on what those of its sides rest on. -/
theorem Provider.Twin.restsWith_orElse {l r : Provider} (hl : l.Twin R l) (hr : r.Twin R r) :
    (evalClassification (.orElse i l r)).Comes (Query.OfLocked m) m s k fun _ c =>
      c.RestsWith R m (.orElse i l r) := by
  apply Attempt.Comes.bind (inside hl)
  rintro k₁ cl - hcl
  cases cl with
  | fixed x e => exact .pure (.fixed (.left i r hcl.restsOn_of_fixed))
  | missing path =>
    obtain ⟨path', hrests⟩ := hcl.restsOn_of_missing
    apply Attempt.Comes.bind (inside hr)
    rintro k₂ cr - hcr
    cases cr with
    | changing qr => exact .pure (.changing qr)
    | fixed x e => exact .pure (.fixed (.right i hrests hcr.restsOn_of_fixed))
    | missing path =>
      obtain ⟨path'', hrests'⟩ := hcr.restsOn_of_missing
      exact .pure (.missing (.right i hrests hrests'))
  | changing ql =>
    apply Attempt.Comes.bind (inside hr)
    rintro k₂ cr - -
    cases cr with
    | missing path => exact .pure (.changing ql)
    | changing qr =>
      apply Attempt.Comes.bind .identity
      exact fun _ _ _ _ => .pure (RestsWith.changing _)
    | fixed x e =>
      apply Attempt.Comes.bind (.toProvider (fun _ => Nat.one_pos) x r.type)
      exact fun _ _ _ _ => .bind .identity fun _ _ _ _ => .pure (RestsWith.changing _)

/-- The classification of an effectful provider rests on what that of its inner one rests on. -/
theorem Provider.Twin.restsWith_withEffect {inner : Provider} (e : Effect)
    (hinner : inner.Twin R inner) :
    (evalClassification (.withEffect i inner e)).Comes (Query.OfLocked m) m s k fun _ c =>
      c.RestsWith R m (.withEffect i inner e) := by
  apply Attempt.Comes.bind (inside hinner)
  rintro k' c - hc
  cases c with
  | changing q => exact .bind .identity fun _ _ _ _ => .pure (.changing _)
  | fixed x old => exact .pure (.fixed (.withEffect i e hc.restsOn_of_fixed))
  | missing path =>
    obtain ⟨path', hrests⟩ := hc.restsOn_of_missing
    exact .pure (.missing (.withEffect i e hrests))

/-- The classification of a named provider rests on what that of its inner one rests on. -/
theorem Provider.Twin.restsWith_named {inner : Provider} (name : String)
    (hinner : inner.Twin R inner) :
    (evalClassification (.named i inner name)).Comes (Query.OfLocked m) m s k fun _ c =>
      c.RestsWith R m (.named i inner name) := by
  apply Attempt.Comes.bind (inside hinner)
  rintro k' c - hc
  cases c with
  | changing q => exact .bind .identity fun _ _ _ _ => .pure (.changing _)
  | fixed x e => exact .pure (.fixed (.named i name hc.restsOn_of_fixed))
  | missing path =>
    obtain ⟨path', hrests⟩ := hc.restsOn_of_missing
    exact .pure (.missing (.named i name hrests))

end Rules

/-- What is decided by a look at locked properties rests on them. -/
theorem Provider.Twin.restsWith (hm : m.Twin R m) (hp : p.Twin R p) :
    (Ask.classification p).Comes (Query.OfLocked m) m s k fun _ c => c.RestsWith R m p := by
  generalize hr : s.room = room
  induction room using Nat.strongRecOn generalizing p s k with
  | ind room ih =>
    have inside {o : Owner} {q : Provider} {k : Identity} (hq : q.Twin R q) :
        (within o (Ask.classification q)).Comes (Query.OfLocked m) m s k fun _ c =>
          c.RestsWith R m q :=
      .within fun t ht => ih t.room (hr ▸ ScopeStack.room_lt_of_enter ht) hq rfl
    refine .classification fun hlocked => ?_
    cases hp with
    | fixed i x => exact .pure (.fixed (.fixed i x))
    | undefined i type path => exact .pure (.missing (.undefined i type path))
    | changing i type node hl => exact .bind .identity fun _ _ _ _ => .pure (.changing _)
    | map i type hbase hf => exact restsWith_map hm inside hbase hf
    | flatMap i type hbase hchoice => exact restsWith_flatMap hm inside hbase hchoice
    | orElse i hl hr => exact restsWith_orElse inside hl hr
    | withEffect i e hinner => exact restsWith_withEffect inside e hinner
    | named i name hinner => exact restsWith_named inside name hinner
    | property hr' => exact restsWith_property hm inside hr' (hlocked _ _ .self _ rfl)

/-! ### Whatever is asked for afterwards -/

/-- The machine comes of `m`, when questions are asked, one after the other or in the middle of one
another, that leave the names of the region alone. -/
inductive Machine.Becomes (R : Region) (m : Machine) : Machine → Prop where
  | start : Becomes R m m
  | quiet {n : Machine} (h : Becomes R m n) : Becomes R m { n with events := [] }
  | answered {n o : Machine} {q : Query} {a : q.Answer} (h : Becomes R m n)
    (hnames : ∀ q' k, Brings q n q' k → R.SameNames m k) (ha : engine q n = some (a, o)) :
    Becomes R m o
  | raised {n o : Machine} {q q' : Query} (h : Becomes R m n)
    (hnames : ∀ q' k, Brings q n q' k → R.SameNames m k) (hq : Brings q n q' o) : Becomes R m o

/-- A ground goes on to stand, whatever the machine becomes. -/
theorem Ground.Stands.becomes {g : Ground} (hm : g.Stands m.property) (hsame : g.SameNames m)
    (h : m.Becomes g.region n) : g.Stands n.property := by
  induction h with
  | start => exact hm
  | quiet _ ih => exact ih
  | answered _ hnames ha ih =>
    exact ((Ground.sound fun q k hq => hsame.trans (hnames q k hq)).2 ih _ ha).1
  | raised _ hnames hq ih => exact ih.brings hq fun q k hq => hsame.trans (hnames q k hq)

/-- The payload of a value is what is unpacked. -/
theorem eq_of_run_unpack (h : (unpack (.present x e)).run.run engine m = some (.ok y, n)) :
    y = x := by
  obtain ⟨_, _, -, hrun⟩ := Eval.run_bindExcept_ok h
  cases hrun
  rfl

/-- A provider that is fixed when it is classified is fixed for good, if each property that was
looked at is locked. Whatever is asked for afterwards, each reading that succeeds gives the payload
and the effect of the classification, and each request for the payload gives it. -/
theorem fixed_for_good (hm : m.Twin R m) (hp : p.Twin R p)
    (hlocked : ∀ r k, Brings (.classification p) m (.classification (.property r)) k →
      (m.property r.id).Locked)
    (h : (Ask.classification p).run.run engine m = some (.ok (.fixed x e), n))
    (ho : n.Becomes R o)
    (hnames : ∀ c q k, Brings (.ownValue p c) o q k → R.SameNames n k) :
    (∀ c v k, (Ask.value p c).run.run engine o = some (.ok v, k) → v = .present x e) ∧
      (∀ y k, (Ask.get p).run.run engine o = some (.ok y, k) → y = x) ∧
      ∀ y k, (Ask.get? p).run.run engine o = some (.ok y, k) → y = some x := by
  have hbrings : (Ask.classification p).run.BringsOnly (Query.OfLocked m) m := by
    intro q k q' k' hq hq'
    obtain ⟨rfl, rfl⟩ := Eval.raises_ask.mp hq
    exact fun r hr => hlocked r k' (hr ▸ hq')
  obtain ⟨j, -, rfl, hrests⟩ := hp.restsWith (s := m.stack) (k := m.supply) hm hbrings _ n h
  -- the classification took identities only, so that the ground is that of `m`
  have hstands : (Ground.largest R m).Stands o.property :=
    Ground.Stands.becomes (m := m.moment m.stack j) (Ground.largest_stands R m)
      (.moment R m m.stack j) ho
  have hvalue c v k (hv : (Ask.value p c).run.run engine o = some (.ok v, k)) :
      v = .present x e :=
    hrests.restsOn_of_fixed.eq_of_run hstands
      (fun q k hq => .trans (.moment R m m.stack j) (hnames c q k hq)) hv
  refine ⟨hvalue, fun y k hy => ?_, fun y k hy => ?_⟩
  · obtain ⟨v, k₁, hv, hy⟩ := Eval.run_bindExcept_ok hy
    obtain rfl := hvalue .strict v k₁ hv
    exact eq_of_run_unpack hy
  · obtain ⟨v, k₁, hv, hy⟩ := Eval.run_bindExcept_ok hy
    obtain rfl := hvalue .strict v k₁ hv
    have hy : (some <$> unpack (.present x e)).run.run engine k₁ = some (.ok y, k) := hy
    rw [map_eq_pure_bind] at hy
    obtain ⟨z, _, hz, hy⟩ := Eval.run_bindExcept_ok hy
    cases hy
    rw [eq_of_run_unpack hz]

def openMachine : Machine :=
  (Session.played 9 [.newProperty "p" .int none, .property "p" (.set (.int 5))]
    (.fresh 8)).getD (.fresh 8)

def lockedMachine : Machine :=
  (Session.played 9 [.property "p" .disallowChanges] openMachine).getD (.fresh 8)

/-- What the property gives, or else a leaf. -/
def lockedFallback : Provider :=
  .orElse 4 (.property ⟨0, .int, none⟩) (.changing 3 .int none ⟨2, givingCalls, none⟩)

def lockedRegion : Region := ⟨(· = 0), fun _ => False, fun _ => False, fun _ _ => True⟩

/-- When it is classified only the property is looked at. -/
theorem lockedFallback_ofLocked {r : PropertyRef}
    (h : Brings (.classification lockedFallback) lockedMachine (.classification (.property r)) n) :
    (lockedMachine.property r.id).Locked := by
  let asked (q : Query) (k : Machine) : Prop :=
    (q = .classification lockedFallback ∧ k = lockedMachine) ∨
    (q = .classification (.property ⟨0, .int, none⟩) ∧
      k.property 0 = lockedMachine.property 0) ∨
    q = .classification (.fixed 1 (.int 5))
  have hall : asked (.classification (.property r)) n := by
    apply h.mem (.inl ⟨rfl, rfl⟩)
    rintro q k q' o (⟨rfl, rfl⟩ | ⟨rfl, hk⟩ | rfl) h
    · have hfixed : ∃ n, (within lockedFallback.owner
          (Ask.classification (.property ⟨0, .int, none⟩))).run.run engine lockedMachine =
            some (.ok (.fixed (.int 5) none), n) := ⟨_, Eval.run_engine_of_answer 9 rfl⟩
      obtain ⟨n, hfixed⟩ := hfixed
      rcases Eval.raises_bindExcept.mp h with h | ⟨c, k, hrun, h⟩
      · obtain ⟨s, -, h⟩ := Eval.raises_within.mp h
        obtain ⟨rfl, rfl⟩ := Eval.raises_ask.mp h
        exact .inr (.inl ⟨rfl, rfl⟩)
      · -- the leaf is not asked, as the property is fixed
        cases hrun.symm.trans hfixed
        exact h.elim
    · have h := Eval.raises_property_bind.mp h
      have heff : (k.property 0).effective = some (.fixed 1 (.int 5)) := by rw [hk]; rfl
      rw [heff] at h
      obtain ⟨s, -, h⟩ := Eval.raises_within.mp h
      obtain ⟨rfl, rfl⟩ := Eval.raises_ask.mp h
      exact .inr (.inr rfl)
    · exact h.elim
  rcases hall with ⟨h, -⟩ | ⟨h, -⟩ | h
  · cases h
  · cases h
    exact .inr rfl
  · cases h

theorem fixed_for_good_lockedFallback :
    ∃ n o k, (Ask.classification lockedFallback).run.run engine lockedMachine =
        some (.ok (.fixed (.int 5) none), n) ∧
      n.Becomes lockedRegion o ∧ (o.property 0).finalized = true ∧
      (Ask.get lockedFallback).run.run engine o = some (.ok (.int 5), k) := by
  have hmachine : lockedMachine.Twin lockedRegion lockedMachine := by
    refine ⟨?_, fun _ h => h.elim, fun _ h => h.elim⟩
    rintro _ rfl
    exact .some (.fixed 1 (.int 5))
  have htwin : lockedFallback.Twin lockedRegion lockedFallback :=
    .orElse 4 (.property rfl) (.changing 3 .int none trivial)
  have hnames n k : lockedRegion.SameNames n k := ⟨fun _ h => h.elim, fun _ h => h.elim⟩
  -- an update is refused, and then the property is finalized
  have hruns : ∃ n a o₁ b o y k, (Ask.classification lockedFallback).run.run engine lockedMachine =
        some (.ok (.fixed (.int 5) none), n) ∧
      engine (.step (.property "p" (.set (.int 6)))) { n with events := [] } = some (a, o₁) ∧
      engine (.step (.property "p" .finalize)) { o₁ with events := [] } = some (b, o) ∧
      (o.property 0).finalized = true ∧
      (Ask.get lockedFallback).run.run engine o = some (.ok y, k) :=
    ⟨_, _, _, _, _, _, _, Eval.run_engine_of_answer 9 rfl, engine_eq_some_iff.mpr ⟨9, rfl⟩,
      engine_eq_some_iff.mpr ⟨9, rfl⟩, rfl, Eval.run_engine_of_answer 9 rfl⟩
  obtain ⟨n, a, o₁, b, o, y, k, hclass, hset, hfinalize, hfinal, hget⟩ := hruns
  have hbecomes : n.Becomes lockedRegion o :=
    .answered (.quiet (.answered (.quiet .start) (fun _ _ _ => hnames _ _) hset))
      (fun _ _ _ => hnames _ _) hfinalize
  obtain ⟨-, hgets, -⟩ := fixed_for_good hmachine htwin (fun _ _ => lockedFallback_ofLocked) hclass
    hbecomes fun _ _ _ _ => hnames _ _
  obtain rfl := hgets y k hget
  exact ⟨n, o, k, hclass, hbecomes, hfinal, hget⟩

/-- A property that is open to changes is classified as fixed when it is set, and then it is set
again. -/
theorem fixed_payload_changes :
    openMachine.Reached ∧
    ∃ n a o k, (Ask.classification (.property ⟨0, .int, none⟩)).run.run engine openMachine =
        some (.ok (.fixed (.int 5) none), n) ∧
      engine (.step (.property "p" (.set (.int 6)))) { n with events := [] } = some (a, o) ∧
      (Ask.get (.property ⟨0, .int, none⟩)).run.run engine o = some (.ok (.int 6), k) :=
  ⟨(Machine.Reached.fresh 8).played 9
      [.newProperty "p" .int none, .property "p" (.set (.int 5))] rfl,
    _, _, _, _, Eval.run_engine_of_answer 9 rfl, engine_eq_some_iff.mpr ⟨9, rfl⟩,
    Eval.run_engine_of_answer 9 rfl⟩

end ProviderGraph
