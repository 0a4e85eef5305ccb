import ProviderGraph.Proofs.Classification.DecidedAhead
import ProviderGraph.Proofs.Engine.AttemptComposition

/-!
# Classifying again

A classification stays as it is however often it is turned into a provider and classified again
(`classification_endures`). What a classification leaves changing is in a normal form: it is made of
new parts around leaves that make calls, and needs no more scopes than the provider that it was made
from (`Provider.Endures`). Whatever is in this form is classified as changing, without a look at
properties and without any code.
-/

namespace ProviderGraph

variable {m n : Machine} {s t : ScopeStack} {R : Region} {lo lo' hi hi' k : Identity}
  {room room' : Nat} {p q : Provider} {c : Classification} {C : Query → Prop} {α β : Type}

/-! ### Normal forms -/

/-- The provider gives a payload and an effect for good. It has identities between `lo` and `hi`,
and there is room for its scope. -/
inductive Provider.Holds (lo : Identity) : Identity → Nat → Provider → Payload → Option Effect →
    Prop where
  | fixed {hi i : Identity} {room : Nat} (x : Payload) (hlo : lo ≤ i) (hhi : i < hi) :
    Holds lo hi room (.fixed i x) x none
  | withEffect {hi i j : Identity} {room : Nat} (x : Payload) (e : Effect) (hlo : lo ≤ i)
      (hhi : i < hi) (hroom : 0 < room) :
    Holds lo hi room (.withEffect i (.fixed j x) e) x (some e)

/-- The provider is made around leaves that make calls. It has identities between `lo` and `hi`,
those of its parts are below its own, and there is room for its scopes. -/
inductive Provider.Endures (lo : Identity) : Identity → Nat → Provider → Prop where
  | changing {hi i : Identity} {room : Nat} (type : PayloadType) (node : Option String)
      (calls : Calls) (hlo : lo ≤ i) (hhi : i < hi) :
    Endures lo hi room (.changing i type node calls)
  | map {hi i : Identity} {room room' : Nat} {base : Provider} (f : Closure) (type : PayloadType)
      (hlo : lo ≤ i) (hhi : i < hi) (hroom : room' < room) (h : Endures lo i room' base) :
    Endures lo hi room (.map i base f type)
  | flatMap {hi i : Identity} {room room' : Nat} {base : Provider} (choice : Recipe)
      (type : PayloadType) (hlo : lo ≤ i) (hhi : i < hi) (hroom : room' < room)
      (h : Endures lo i room' base) :
    Endures lo hi room (.flatMap i base choice type)
  | orElse {hi i : Identity} {room room' : Nat} {l r : Provider} (hlo : lo ≤ i) (hhi : i < hi)
      (hroom : room' < room) (hl : Endures lo i room' l) (hr : Endures lo i room' r) :
    Endures lo hi room (.orElse i l r)
  | orHeld {hi i : Identity} {room room' : Nat} {l r : Provider} {x : Payload} {e : Option Effect}
      (hlo : lo ≤ i) (hhi : i < hi) (hroom : room' < room) (hl : Endures lo i room' l)
      (hr : r.Holds lo i room' x e) :
    Endures lo hi room (.orElse i l r)
  | withEffect {hi i : Identity} {room room' : Nat} {inner : Provider} (e : Effect) (hlo : lo ≤ i)
      (hhi : i < hi) (hroom : room' < room) (h : Endures lo i room' inner) :
    Endures lo hi room (.withEffect i inner e)
  | named {hi i : Identity} {room room' : Nat} {inner : Provider} (name : String) (hlo : lo ≤ i)
      (hhi : i < hi) (hroom : room' < room) (h : Endures lo i room' inner) :
    Endures lo hi room (.named i inner name)

/-- The classification is turned into a provider with so much room. -/
def Classification.Endures (lo hi : Identity) (room : Nat) : Classification → Prop
  | .fixed _ e => e.isSome → 0 < room
  | .changing q => q.Endures lo hi room
  | .missing _ => True

/-- The classifications are of the same kind. Payloads, effects and paths are the same, while what
is changing may be another provider. -/
inductive Classification.SameKind : Classification → Classification → Prop where
  | fixed (x : Payload) (e : Option Effect) : SameKind (.fixed x e) (.fixed x e)
  | changing (q q' : Provider) : SameKind (.changing q) (.changing q')
  | missing (path : List String) : SameKind (.missing path) (.missing path)

namespace Classification.SameKind

variable {c' c'' : Classification}

theorem refl (c : Classification) : c.SameKind c := by
  cases c with
  | fixed x e => exact .fixed x e
  | changing q => exact .changing q q
  | missing path => exact .missing path

theorem trans (h : c.SameKind c') (h' : c'.SameKind c'') : c.SameKind c'' := by
  cases h with
  | fixed => exact h'
  | missing => exact h'
  | changing q q' =>
    cases h' with
    | changing _ q'' => exact .changing q q''

end Classification.SameKind

theorem Provider.Holds.mono {x : Payload} {e : Option Effect} (h : p.Holds lo hi room x e)
    (hlo : lo' ≤ lo) (hhi : hi ≤ hi') (hroom : room ≤ room') : p.Holds lo' hi' room' x e := by
  cases h with
  | fixed x hi₁ hi₂ => exact .fixed x (Nat.le_trans hlo hi₁) (Nat.lt_of_lt_of_le hi₂ hhi)
  | withEffect x e hi₁ hi₂ hr =>
    exact .withEffect x e (Nat.le_trans hlo hi₁) (Nat.lt_of_lt_of_le hi₂ hhi)
      (Nat.lt_of_lt_of_le hr hroom)

theorem Provider.Endures.mono (h : p.Endures lo hi room) (hlo : lo' ≤ lo) (hhi : hi ≤ hi')
    (hroom : room ≤ room') : p.Endures lo' hi' room' := by
  induction h generalizing hi' room' with
  | changing type node calls h₁ h₂ =>
    exact .changing type node calls (Nat.le_trans hlo h₁) (Nat.lt_of_lt_of_le h₂ hhi)
  | map f type h₁ h₂ hr _ ih =>
    exact .map f type (Nat.le_trans hlo h₁) (Nat.lt_of_lt_of_le h₂ hhi)
      (Nat.lt_of_lt_of_le hr hroom) (ih (Nat.le_refl _) (Nat.le_refl _))
  | flatMap choice type h₁ h₂ hr _ ih =>
    exact .flatMap choice type (Nat.le_trans hlo h₁) (Nat.lt_of_lt_of_le h₂ hhi)
      (Nat.lt_of_lt_of_le hr hroom) (ih (Nat.le_refl _) (Nat.le_refl _))
  | orElse h₁ h₂ hr _ _ ihl ihr =>
    exact .orElse (Nat.le_trans hlo h₁) (Nat.lt_of_lt_of_le h₂ hhi)
      (Nat.lt_of_lt_of_le hr hroom) (ihl (Nat.le_refl _) (Nat.le_refl _))
      (ihr (Nat.le_refl _) (Nat.le_refl _))
  | orHeld h₁ h₂ hr _ hheld ihl =>
    exact .orHeld (Nat.le_trans hlo h₁) (Nat.lt_of_lt_of_le h₂ hhi)
      (Nat.lt_of_lt_of_le hr hroom) (ihl (Nat.le_refl _) (Nat.le_refl _))
      (hheld.mono hlo (Nat.le_refl _) (Nat.le_refl _))
  | withEffect e h₁ h₂ hr _ ih =>
    exact .withEffect e (Nat.le_trans hlo h₁) (Nat.lt_of_lt_of_le h₂ hhi)
      (Nat.lt_of_lt_of_le hr hroom) (ih (Nat.le_refl _) (Nat.le_refl _))
  | named name h₁ h₂ hr _ ih =>
    exact .named name (Nat.le_trans hlo h₁) (Nat.lt_of_lt_of_le h₂ hhi)
      (Nat.lt_of_lt_of_le hr hroom) (ih (Nat.le_refl _) (Nat.le_refl _))

theorem Classification.Endures.mono (h : c.Endures lo hi room) (hlo : lo' ≤ lo) (hhi : hi ≤ hi')
    (hroom : room ≤ room') : c.Endures lo' hi' room' := by
  cases c with
  | fixed x e => exact fun he => Nat.lt_of_lt_of_le (h he) hroom
  | changing q => exact Provider.Endures.mono h hlo hhi hroom
  | missing path => trivial

/-! ### What is classified -/

/-- All that the evaluation brings up on the machine is as told by `C`. -/
def Eval.BringsOnly (C : Query → Prop) (m : Machine) (x : Eval α) : Prop :=
  ∀ q n q' n', x.Raises m q n → Brings q n q' n' → C q'

/-- With the scopes of `s` open and `k` as the next identity, a computation that succeeds, and that
brings up only what is as told by `C`, only takes identities, and `P` holds of the next one and of
its result. -/
def Attempt.Comes (C : Query → Prop) (m : Machine) (s : ScopeStack) (k : Identity) (x : Attempt α)
    (P : Identity → α → Prop) : Prop :=
  x.run.BringsOnly C (m.moment s k) → ∀ a n, x.run.run engine (m.moment s k) = some (.ok a, n) →
    ∃ k', k ≤ k' ∧ n = m.moment s k' ∧ P k' a

namespace Attempt.Comes

variable {P P' : Identity → α → Prop} {Q : Identity → β → Prop}

theorem pure {a : α} (h : P k a) : Comes C m s k (Pure.pure a) P := by
  intro _ b n hrun
  cases hrun
  exact ⟨k, Nat.le_refl k, rfl, h⟩

theorem imp {x : Attempt α} (hx : x.Comes C m s k P)
    (h : ∀ k' a, k ≤ k' → P k' a → P' k' a) : x.Comes C m s k P' := by
  intro hC a n hrun
  obtain ⟨k', hk, hn, ha⟩ := hx hC a n hrun
  exact ⟨k', hk, hn, h k' a hk ha⟩

theorem bind {x : Attempt α} {f : α → Attempt β} (hx : x.Comes C m s k P)
    (hf : ∀ k' a, k ≤ k' → P k' a → (f a).Comes C m s k' Q) : (x >>= f).Comes C m s k Q := by
  intro hC b n hrun
  obtain ⟨a, m₁, hrun, hrun'⟩ := Eval.run_bindExcept_ok hrun
  obtain ⟨k₁, hk₁, rfl, ha⟩ :=
    hx (fun q n q' n' h => hC q n q' n' (Eval.raises_bindExcept.mpr (.inl h))) a m₁ hrun
  obtain ⟨k₂, hk₂, rfl, hb⟩ := hf k₁ a hk₁ ha (fun q n q' n' h =>
    hC q n q' n' (Eval.raises_bindExcept.mpr (.inr ⟨a, _, hrun, h⟩))) b n hrun'
  exact ⟨k₂, Nat.le_trans hk₁ hk₂, rfl, hb⟩

theorem within {o : Owner} {x : Attempt α} (hx : ∀ t, s.enter o = .ok t → x.Comes C m t k P) :
    (ProviderGraph.within o x).Comes C m s k P := by
  intro hC a n hrun
  obtain ⟨t, n', ht, hbody, rfl⟩ := Eval.run_within_ok hrun
  have ht : s.enter o = .ok t := ht
  obtain ⟨k', hk, rfl, ha⟩ := hx t ht (fun q n q' n' h =>
    hC q n q' n' (Eval.raises_within.mpr ⟨t, ht, h⟩)) a n' hbody
  refine ⟨k', hk, ?_, ha⟩
  have hs : (m.moment t k').stack.leave o.id = s := ScopeStack.leave_of_enter _ _ ht
  rw [hs]
  rfl

theorem identity : Comes C m s k (liftM Eval.identity) fun k' i => i = k ∧ k' = k + 1 := by
  intro _ i n hrun
  cases hrun
  exact ⟨k + 1, Nat.le_succ k, rfl, rfl, rfl⟩

/-- What takes the same course on the machine and on the machine itself. -/
theorem of_sideBySide {x : Attempt α} {S : α → α → Prop}
    (hx : Eval.SideBySide m m s x.run x.run (SameResult S)) :
    x.Comes C m s k fun _ a => S a a := by
  intro _ a n hrun
  obtain ⟨r, r', j, hr, hr', hS⟩ := hx k
  cases hrun.symm.trans hr
  cases hrun.symm.trans hr'
  cases hS with
  | ok hS => exact ⟨k + j, Nat.le_add_right k j, rfl, hS⟩

/-- A classification is what its rule makes it. -/
theorem classification {P : Identity → Classification → Prop}
    (h : (∀ q n, Brings (.classification p) (m.moment s k) q n → C q) →
      (evalClassification p).Comes C m s k P) : (Ask.classification p).Comes C m s k P := by
  intro hC c n hrun
  have hbrings q n (hq : Brings (.classification p) (m.moment s k) q n) : C q :=
    hC _ _ q n (Eval.raises_ask.mpr ⟨rfl, rfl⟩) hq
  rw [show (Ask.classification p).run = .ask (.classification p) Pure.pure from rfl,
    Ask.run_rule] at hrun
  exact h hbrings (fun q n q' n' hq hq' => hbrings q' n' (.raised hq hq')) c n hrun

/-- What a property reads from is classified in its place. -/
theorem property {r : PropertyRef} {P : Identity → Classification → Prop}
    (hnone : (m.property r.id).effective = none → P k (.missing []))
    (hsome : ∀ q, (m.property r.id).effective = some q →
      (ProviderGraph.within (Provider.property r).owner (Ask.classification q)).Comes C m s k P) :
    (evalClassification (.property r)).Comes C m s k P := by
  intro hC c n hrun
  rw [evalClassification] at hC hrun
  rw [Eval.run_property_bind] at hrun
  replace hC q n q' n' h := hC q n q' n' (Eval.raises_property_bind.mpr h)
  cases hq : (m.property r.id).effective with
  | none =>
    have heff : ((m.moment s k).property r.id).effective = none := hq
    rw [heff] at hrun
    cases hrun
    exact ⟨k, Nat.le_refl k, rfl, hnone hq⟩
  | some q =>
    have heff : ((m.moment s k).property r.id).effective = some q := hq
    rw [heff] at hC hrun
    exact hsome q hq hC c n hrun

end Attempt.Comes

/-- What a fixed classification is turned into holds its payload. -/
theorem Classification.run_toProvider_fixed {x : Payload} {e : Option Effect}
    (he : e.isSome → 0 < room) (type : PayloadType) (k : Identity) :
    ∃ q k', (liftM (Classification.toProvider type (.fixed x e)) : Attempt Provider).run.run engine
        (m.moment s k) = some (.ok q, m.moment s k') ∧ k ≤ k' ∧ q.Holds k k' room x e := by
  cases e with
  | none => exact ⟨_, k + 1, rfl, Nat.le_succ k, .fixed x (Nat.le_refl k) (Nat.lt_succ_self k)⟩
  | some e =>
    exact ⟨_, k + 1 + 1, rfl, Nat.le_add_right k 2,
      .withEffect x e (Nat.le_succ k) (Nat.lt_succ_self _) (he rfl)⟩

/-- A fixed classification is turned into a provider that gives its payload for good. -/
theorem Attempt.Comes.toProvider {e : Option Effect} (he : e.isSome → 0 < room) (x : Payload)
    (type : PayloadType) :
    Attempt.Comes C m s k (liftM (Classification.toProvider type (.fixed x e)))
      fun k' q => q.Holds k k' room x e := by
  intro _ q n hrun
  obtain ⟨q', k', hrun', hk', hq⟩ := Classification.run_toProvider_fixed (x := x) he type k
  cases hrun.symm.trans hrun'
  exact ⟨k', hk', rfl, hq⟩

section Rules

variable {i : Identity}
  (inside : ∀ {o : Owner} {q : Provider} {k : Identity}, q.Twin R q →
    (within o (Ask.classification q)).Comes C m s k fun hi c =>
      ∃ room, room < s.room ∧ c.Endures k hi room)

include inside

/-- What is classified in a scope endures outside of it. -/
theorem Provider.Twin.endures_within (hp : p.Twin R p) (hlo : lo ≤ k) {o : Owner} :
    (within o (Ask.classification p)).Comes C m s k fun hi c => c.Endures lo hi s.room :=
  (inside hp).imp fun _ _ _ ⟨_, hroom, hc⟩ => hc.mono hlo (Nat.le_refl _) (Nat.le_of_lt hroom)

/-- What is known of a map endures if what is known of its base does. -/
theorem Provider.Twin.endures_map (hm : m.Twin R m) {base : Provider} {f : Closure}
    {type : PayloadType} (hbase : base.Twin R base) (hf : f.code.Pure) :
    (evalClassification (.map i base f type)).Comes C m s k fun hi c =>
      c.Endures k hi s.room := by
  apply Attempt.Comes.bind (inside hbase)
  rintro k' c hk ⟨room, hroom, hc⟩
  cases c with
  | missing path => exact .pure trivial
  | fixed x e =>
    have htwin : (Provider.map i base f type).Twin R (.map i base f type) := .map i type hbase hf
    apply Attempt.Comes.bind (.of_sideBySide (htwin.applyTransform hm hf x))
    rintro k'' y hk' -
    cases y with
    | none => exact .pure trivial
    | some y => exact .pure fun he => Nat.lt_of_le_of_lt (Nat.zero_le _) hroom
  | changing q =>
    apply Attempt.Comes.bind .identity
    rintro _ i - ⟨rfl, rfl⟩
    exact .pure (.map f type hk (Nat.lt_succ_self _) hroom hc)

/-- What is known of a flat map endures if what is known of its base does. -/
theorem Provider.Twin.endures_flatMap (hm : m.Twin R m) {base : Provider} {choice : Recipe}
    {type : PayloadType} (hbase : base.Twin R base) (hchoice : choice.Twin R choice) :
    (evalClassification (.flatMap i base choice type)).Comes C m s k fun hi c =>
      c.Endures k hi s.room := by
  apply Attempt.Comes.bind (inside hbase)
  rintro k' c hk ⟨room, hroom, hc⟩
  cases c with
  | missing path => exact .pure trivial
  | fixed x e =>
    have htwin : (Provider.flatMap i base choice type).Twin R (.flatMap i base choice type) :=
      .flatMap i type hbase hchoice
    apply Attempt.Comes.bind (.of_sideBySide (htwin.chooseNext hm hchoice type (.present x e)))
    intro k'' q hk' hq
    exact endures_within inside hq (Nat.le_trans hk hk')
  | changing q =>
    apply Attempt.Comes.bind .identity
    rintro _ i - ⟨rfl, rfl⟩
    exact .pure (.flatMap choice type hk (Nat.lt_succ_self _) hroom hc)

/-- What is known of a fallback endures if what is known of its sides does. -/
theorem Provider.Twin.endures_orElse {l r : Provider} (hl : l.Twin R l) (hr : r.Twin R r) :
    (evalClassification (.orElse i l r)).Comes C m s k fun hi c => c.Endures k hi s.room := by
  apply Attempt.Comes.bind (inside hl)
  rintro k₁ cl hk₁ ⟨room₁, hroom₁, hcl⟩
  cases cl with
  | fixed x e => exact .pure fun he => Nat.lt_of_le_of_lt (Nat.zero_le _) hroom₁
  | missing path =>
    apply Attempt.Comes.bind (endures_within inside hr hk₁)
    exact fun k₂ cr _ hcr => .pure hcr
  | changing ql =>
    apply Attempt.Comes.bind (inside hr)
    rintro k₂ cr hk₂ ⟨room₂, hroom₂, hcr⟩
    -- both sides are parts of what is built, so that it needs the room of the larger one
    have hroom : max room₁ room₂ < s.room := Nat.max_lt.mpr ⟨hroom₁, hroom₂⟩
    have hql : ql.Endures k k₂ (max room₁ room₂) :=
      hcl.mono (Nat.le_refl _) hk₂ (Nat.le_max_left _ _)
    have hcr : cr.Endures k k₂ (max room₁ room₂) :=
      hcr.mono hk₁ (Nat.le_refl _) (Nat.le_max_right _ _)
    cases cr with
    | missing path => exact .pure (hcl.mono (Nat.le_refl _) hk₂ (Nat.le_of_lt hroom₁))
    | changing qr =>
      apply Attempt.Comes.bind .identity
      rintro _ i - ⟨rfl, rfl⟩
      exact .pure (.orElse (Nat.le_trans hk₁ hk₂) (Nat.lt_succ_self _) hroom hql hcr)
    | fixed x e =>
      apply Attempt.Comes.bind (.toProvider hcr x r.type)
      intro k₃ q hk₃ hq
      apply Attempt.Comes.bind .identity
      rintro _ i - ⟨rfl, rfl⟩
      exact .pure (.orHeld (Nat.le_trans hk₁ (Nat.le_trans hk₂ hk₃)) (Nat.lt_succ_self _)
        hroom (hql.mono (Nat.le_refl _) hk₃ (Nat.le_refl _))
        (hq.mono (Nat.le_trans hk₁ hk₂) (Nat.le_refl _) (Nat.le_refl _)))

/-- What is known of an effectful provider endures if what is known of the inner one does. -/
theorem Provider.Twin.endures_withEffect {inner : Provider} (e : Effect)
    (hinner : inner.Twin R inner) :
    (evalClassification (.withEffect i inner e)).Comes C m s k fun hi c =>
      c.Endures k hi s.room := by
  apply Attempt.Comes.bind (inside hinner)
  rintro k' c hk ⟨room, hroom, hc⟩
  cases c with
  | fixed x old => exact .pure fun _ => Nat.lt_of_le_of_lt (Nat.zero_le _) hroom
  | missing path => exact .pure trivial
  | changing q =>
    apply Attempt.Comes.bind .identity
    rintro _ i - ⟨rfl, rfl⟩
    exact .pure (.withEffect e hk (Nat.lt_succ_self _) hroom hc)

/-- What is known of a named provider endures if what is known of the inner one does. -/
theorem Provider.Twin.endures_named {inner : Provider} (name : String)
    (hinner : inner.Twin R inner) :
    (evalClassification (.named i inner name)).Comes C m s k fun hi c => c.Endures k hi s.room := by
  apply Attempt.Comes.bind (inside hinner)
  rintro k' c hk ⟨room, hroom, hc⟩
  cases c with
  | fixed x e => exact .pure fun _ => Nat.lt_of_le_of_lt (Nat.zero_le _) hroom
  | missing path => exact .pure trivial
  | changing q =>
    apply Attempt.Comes.bind .identity
    rintro _ i - ⟨rfl, rfl⟩
    exact .pure (.named name hk (Nat.lt_succ_self _) hroom hc)

end Rules

/-- What a graph with pure transforms is classified as endures. -/
theorem Provider.Twin.endures (hm : m.Twin R m) (hp : p.Twin R p) :
    (Ask.classification p).Comes C m s k fun hi c => c.Endures k hi s.room := by
  generalize hr : s.room = room
  induction room using Nat.strongRecOn generalizing p s k with
  | ind room ih =>
    subst hr
    have inside {o : Owner} {q : Provider} {k : Identity} (hq : q.Twin R q) :
        (within o (Ask.classification q)).Comes C m s k fun hi c =>
          ∃ room, room < s.room ∧ c.Endures k hi room :=
      .within fun t ht => (ih t.room (ScopeStack.room_lt_of_enter ht) hq rfl).imp
        fun _ _ _ hc => ⟨t.room, ScopeStack.room_lt_of_enter ht, hc⟩
    refine .classification fun _ => ?_
    cases hp with
    | fixed i x => exact .pure nofun
    | undefined i type path => exact .pure trivial
    | changing i type node hl =>
      apply Attempt.Comes.bind .identity
      rintro _ i hk ⟨rfl, rfl⟩
      exact .pure (.changing type node _ (Nat.le_refl _) (Nat.lt_succ_self _))
    | map i type hbase hf => exact endures_map inside hm hbase hf
    | flatMap i type hbase hchoice => exact endures_flatMap inside hm hbase hchoice
    | orElse i hl hr => exact endures_orElse inside hl hr
    | withEffect i e hinner => exact endures_withEffect inside e hinner
    | named i name hinner => exact endures_named inside name hinner
    | @property r hr' =>
      have heff := hm.effective r.id hr'
      refine .property (fun _ => trivial) fun q hq => ?_
      rw [hq] at heff
      cases heff with
      | some hq => exact endures_within inside hq (Nat.le_refl k)

/-! ### The same again -/

/-- Where no open scope has an identity of the provider and there is room, its scope can be opened,
and the same holds inside of its parts. -/
theorem ScopeStack.exists_enter_clear {o : Owner} (hs : ∀ f ∈ s.frames, f.id < lo ∨ hi ≤ f.id)
    (hlo : lo ≤ o.id) (hhi : o.id < hi) (hroom : room' < s.room) :
    ∃ t, s.enter o = .ok t ∧ (∀ f ∈ t.frames, f.id < lo ∨ o.id ≤ f.id) ∧ room' ≤ t.room := by
  have hopen : s.isOpen o.id = false := by
    apply Bool.eq_false_iff.mpr
    intro h
    obtain ⟨f, hf, hid⟩ := List.any_eq_true.mp h
    have hid : f.id = o.id := beq_iff_eq.mp hid
    rcases hs f hf with hlt | hle
    · exact absurd (hid ▸ hlt) (Nat.not_lt.mpr hlo)
    · exact absurd (hid ▸ hle) (Nat.not_le.mpr hhi)
  have hdepth : s.depth < s.limit := by
    rw [room] at hroom
    omega
  refine ⟨{ s with frames := o :: s.frames }, enter_eq_ok_iff.mpr ⟨hopen, hdepth, rfl⟩, ?_, ?_⟩
  · intro f hf
    rcases List.mem_cons.mp hf with rfl | hf
    · exact .inr (Nat.le_refl _)
    · exact (hs f hf).imp_right fun h => Nat.le_trans (Nat.le_of_lt hhi) h
  · simp only [room, depth, List.length_cons] at hroom ⊢
    omega

theorem Provider.Holds.room_pos {x : Payload} {e : Option Effect} (h : p.Holds lo hi room x e) :
    e.isSome → 0 < room := by
  cases h with
  | fixed => exact nofun
  | withEffect x e _ _ hroom => exact fun _ => hroom

/-- What a payload and an effect are held in is classified so. -/
theorem Provider.Holds.run_classification {x : Payload} {e : Option Effect}
    (h : p.Holds lo hi room x e) (hs : ∀ f ∈ s.frames, f.id < lo ∨ hi ≤ f.id)
    (hroom : room ≤ s.room) :
    (Ask.classification p).run.run engine (m.moment s k) =
      some (.ok (.fixed x e), m.moment s k) := by
  refine (Ask.run_rule (.classification p) (m.moment s k)).trans ?_
  cases h with
  | fixed => rfl
  | @withEffect i j _ _ e hlo hhi hpos =>
    obtain ⟨t, ht, -, -⟩ := ScopeStack.exists_enter_clear
      (o := (Provider.withEffect i (.fixed j x) e).owner) hs hlo hhi (Nat.lt_of_lt_of_le hpos hroom)
    have hinner : (Ask.classification (.fixed j x)).run.run engine (m.moment t k) =
        some (.ok (.fixed x none), m.moment t k) := Ask.run_rule _ _
    exact Eval.run_bind_ok (Eval.run_within_moment ht hinner) _

/-- Where no open scope has an identity of the provider and there is room, it is classified as
changing, and what it is then is in normal form. -/
def Provider.StaysChanging (lo hi : Identity) (room : Nat) (p : Provider) : Prop :=
  ∀ (m : Machine) (s : ScopeStack) (k : Identity), (∀ f ∈ s.frames, f.id < lo ∨ hi ≤ f.id) →
    room ≤ s.room → ∃ q k', (Ask.classification p).run.run engine (m.moment s k) =
      some (.ok (.changing q), m.moment s k') ∧ k ≤ k' ∧ q.Endures k k' room

/-- A part stays changing in the scope of the provider that it is a part of. -/
theorem Provider.StaysChanging.run_within {o : Owner} (h : p.StaysChanging lo o.id room')
    (hs : ∀ f ∈ s.frames, f.id < lo ∨ hi ≤ f.id) (hlo : lo ≤ o.id) (hhi : o.id < hi)
    (hroom : room' < s.room) (m : Machine) (k : Identity) :
    ∃ q k', (within o (Ask.classification p)).run.run engine (m.moment s k) =
      some (.ok (.changing q), m.moment s k') ∧ k ≤ k' ∧ q.Endures k k' room' := by
  obtain ⟨t, ht, hclear, hle⟩ := ScopeStack.exists_enter_clear hs hlo hhi hroom
  obtain ⟨q, k', hrun, hk, hq⟩ := h m t k hclear hle
  exact ⟨q, k', Eval.run_within_moment ht hrun, hk, hq⟩

/-- What is in normal form stays changing. -/
theorem Provider.Endures.staysChanging (h : p.Endures lo hi room) : p.StaysChanging lo hi room := by
  induction h with
  | changing type node calls hlo hhi =>
    intro m s k hs hroom
    exact ⟨_, k + 1, Ask.run_rule (.classification _) _, Nat.le_succ k,
      .changing type node calls (Nat.le_refl k) (Nat.lt_succ_self k)⟩
  | @map hi i room room' base f type hlo hhi hr _ ih =>
    intro m s k hs hroom
    obtain ⟨q, k', hrun, hk, hq⟩ := ih.run_within (o := (Provider.map i base f type).owner)
      hs hlo hhi (Nat.lt_of_lt_of_le hr hroom) m k
    refine ⟨_, k' + 1, (Ask.run_rule (.classification _) _).trans (Eval.run_bind_ok hrun _),
      Nat.le_succ_of_le hk, ?_⟩
    exact .map f type hk (Nat.lt_succ_self k') hr hq
  | @flatMap hi i room room' base choice type hlo hhi hr _ ih =>
    intro m s k hs hroom
    obtain ⟨q, k', hrun, hk, hq⟩ := ih.run_within (o := (Provider.flatMap i base choice type).owner)
      hs hlo hhi (Nat.lt_of_lt_of_le hr hroom) m k
    refine ⟨_, k' + 1, (Ask.run_rule (.classification _) _).trans (Eval.run_bind_ok hrun _),
      Nat.le_succ_of_le hk, ?_⟩
    exact .flatMap choice type hk (Nat.lt_succ_self k') hr hq
  | @withEffect hi i room room' inner e hlo hhi hr _ ih =>
    intro m s k hs hroom
    obtain ⟨q, k', hrun, hk, hq⟩ := ih.run_within (o := (Provider.withEffect i inner e).owner)
      hs hlo hhi (Nat.lt_of_lt_of_le hr hroom) m k
    refine ⟨_, k' + 1, (Ask.run_rule (.classification _) _).trans (Eval.run_bind_ok hrun _),
      Nat.le_succ_of_le hk, ?_⟩
    exact .withEffect e hk (Nat.lt_succ_self k') hr hq
  | @named hi i room room' inner name hlo hhi hr _ ih =>
    intro m s k hs hroom
    obtain ⟨q, k', hrun, hk, hq⟩ := ih.run_within (o := (Provider.named i inner name).owner)
      hs hlo hhi (Nat.lt_of_lt_of_le hr hroom) m k
    refine ⟨_, k' + 1, (Ask.run_rule (.classification _) _).trans (Eval.run_bind_ok hrun _),
      Nat.le_succ_of_le hk, ?_⟩
    exact .named name hk (Nat.lt_succ_self k') hr hq
  | @orElse hi i room room' l r hlo hhi hr _ _ ihl ihr =>
    intro m s k hs hroom
    obtain ⟨ql, k₁, hrunl, hk₁, hql⟩ := ihl.run_within (o := (Provider.orElse i l r).owner)
      hs hlo hhi (Nat.lt_of_lt_of_le hr hroom) m k
    obtain ⟨qr, k₂, hrunr, hk₂, hqr⟩ := ihr.run_within (o := (Provider.orElse i l r).owner)
      hs hlo hhi (Nat.lt_of_lt_of_le hr hroom) m k₁
    refine ⟨_, k₂ + 1, (Ask.run_rule (.classification _) _).trans
      ((Eval.run_bind_ok hrunl _).trans (Eval.run_bind_ok hrunr _)),
      Nat.le_succ_of_le (Nat.le_trans hk₁ hk₂), ?_⟩
    exact .orElse (Nat.le_trans hk₁ hk₂) (Nat.lt_succ_self k₂) hr
      (hql.mono (Nat.le_refl k) hk₂ (Nat.le_refl _)) (hqr.mono hk₁ (Nat.le_refl k₂) (Nat.le_refl _))
  | @orHeld hi i room room' l r x e hlo hhi hr _ hheld ihl =>
    intro m s k hs hroom
    obtain ⟨ql, k₁, hrunl, hk₁, hql⟩ := ihl.run_within (o := (Provider.orElse i l r).owner)
      hs hlo hhi (Nat.lt_of_lt_of_le hr hroom) m k
    obtain ⟨t, ht, hclear, hle⟩ := ScopeStack.exists_enter_clear
      (o := (Provider.orElse i l r).owner) hs hlo hhi (Nat.lt_of_lt_of_le hr hroom)
    have hrunr : (within (Provider.orElse i l r).owner (Ask.classification r)).run.run engine
        (m.moment s k₁) = some (.ok (.fixed x e), m.moment s k₁) :=
      Eval.run_within_moment ht (hheld.run_classification hclear hle)
    obtain ⟨qr, k₂, hrunq, hk₂, hqr⟩ :=
      Classification.run_toProvider_fixed (m := m) (s := s) (x := x) hheld.room_pos r.type k₁
    refine ⟨_, k₂ + 1, (Ask.run_rule (.classification _) _).trans
      ((Eval.run_bind_ok hrunl _).trans ((Eval.run_bind_ok hrunr _).trans
        (Eval.run_bind_ok hrunq _))), Nat.le_succ_of_le (Nat.le_trans hk₁ hk₂), ?_⟩
    exact .orHeld (Nat.le_trans hk₁ hk₂) (Nat.lt_succ_self k₂) hr
      (hql.mono (Nat.le_refl k) hk₂ (Nat.le_refl _)) (hqr.mono hk₁ (Nat.le_refl k₂) (Nat.le_refl _))

/-- A classification, turned into a provider and classified again. -/
def Classification.again (type : PayloadType) (c : Classification) : Attempt Classification := do
  Ask.classification (← c.toProvider type)

/-- A classification, turned into a provider and classified again so many times. -/
def Classification.repeated (type : PayloadType) : Nat → Classification → Attempt Classification
  | 0, c => pure c
  | times + 1, c => do repeated type times (← c.again type)

/-- What endures is classified as the same again, and endures. -/
theorem Classification.Endures.run_again (h : c.Endures lo k s.room)
    (hs : ∀ f ∈ s.frames, f.id < lo) (hk : lo ≤ k) (type : PayloadType) :
    ∃ c' k', (c.again type).run.run engine (m.moment s k) = some (.ok c', m.moment s k') ∧
      k ≤ k' ∧ c.SameKind c' ∧ c'.Endures lo k' s.room := by
  cases c with
  | missing path =>
    refine ⟨.missing path, k + 1, ?_, Nat.le_succ k, .missing path, trivial⟩
    exact Ask.run_rule (.classification (.undefined k type path)) (m.moment s (k + 1))
  | fixed x e =>
    obtain ⟨q, k', hrun, hk', hq⟩ :=
      Classification.run_toProvider_fixed (m := m) (s := s) h type k
    have hclear : ∀ f ∈ s.frames, f.id < k ∨ k' ≤ f.id := fun f hf =>
      .inl (Nat.lt_of_lt_of_le (hs f hf) hk)
    exact ⟨.fixed x e, k', (Eval.run_bind_ok hrun _).trans
      (hq.run_classification hclear (Nat.le_refl _)), hk', .fixed x e, h⟩
  | changing q =>
    obtain ⟨q', k', hrun, hk', hq⟩ :=
      Provider.Endures.staysChanging h m s k (fun f hf => .inl (hs f hf)) (Nat.le_refl _)
    exact ⟨.changing q', k', hrun, hk', .changing q q',
      hq.mono hk (Nat.le_refl _) (Nat.le_refl _)⟩

/-- What endures stays the same however often it is classified again. -/
theorem Classification.Endures.run_repeated (h : c.Endures lo k s.room)
    (hs : ∀ f ∈ s.frames, f.id < lo) (hk : lo ≤ k) (type : PayloadType) (times : Nat) :
    ∃ c' k', (c.repeated type times).run.run engine (m.moment s k) =
      some (.ok c', m.moment s k') ∧ c.SameKind c' := by
  induction times generalizing c k with
  | zero => exact ⟨c, k, rfl, .refl c⟩
  | succ times ih =>
    obtain ⟨c₁, k₁, hrun₁, hk₁, hsame₁, h₁⟩ := h.run_again (m := m) hs hk type
    obtain ⟨c₂, k₂, hrun₂, hsame₂⟩ := ih h₁ (Nat.le_trans hk hk₁)
    exact ⟨c₂, k₂, (Eval.run_bind_ok hrun₁ _).trans hrun₂, hsame₁.trans hsame₂⟩

/-- A classification endures. However often what it is turned into is classified again, in the
state that it was made in, this succeeds with a classification of the same kind: with the payload
and the effect of a fixed one, and with the path of a missing one. -/
theorem classification_endures (hm : m.Twin R m) (hp : p.Twin R p)
    (hframes : ∀ f ∈ m.stack.frames, f.id < m.supply)
    (h : (Ask.classification p).run.run engine m = some (.ok c, n)) (type : PayloadType)
    (times : Nat) :
    (∃ j, n = { m with supply := j }) ∧
      ∃ c' k, (c.repeated type times).run.run engine n = some (.ok c', { n with supply := k }) ∧
        c.SameKind c' := by
  obtain ⟨k, hk, rfl, hc⟩ := Provider.Twin.endures (s := m.stack) (k := m.supply)
    (C := fun _ => True) hm hp (fun _ _ _ _ _ _ => trivial) c n h
  obtain ⟨c', k', hrun, hsame⟩ := hc.run_repeated (m := m) hframes hk type times
  exact ⟨⟨k, rfl⟩, c', k', hrun, hsame⟩

/-- What changes behind a property, doubled, or else a payload with an effect. -/
def namedFallback : Provider :=
  .named 9 (.orElse 8
    (.map 7 (.property ⟨0, .int, none⟩) ⟨.compute fun y => .ok (y.add y), none⟩ .int)
    (.withEffect 6 (.fixed 5 (.int 3)) (.deed (.record "seen")))) "q"

/-- A machine with a scope open. Its property reads from a leaf. -/
def namedFallbackMachine : Machine :=
  { Machine.fresh 8 with
    stack := ⟨[⟨4, "outside"⟩], 8⟩
    supply := 10
    properties := [(0, Property.blank.setValue (.changing 1 .int none ⟨2, givingCalls, none⟩))] }

/-- It is changing, and it still is when it is classified for the third time. -/
theorem classification_endures_namedFallback :
    namedFallbackMachine.Twin leafAsideRegion namedFallbackMachine ∧
    namedFallback.Twin leafAsideRegion namedFallback ∧
    (∀ f ∈ namedFallbackMachine.stack.frames, f.id < namedFallbackMachine.supply) ∧
    ∃ q n, (Ask.classification namedFallback).run.run engine namedFallbackMachine =
        some (.ok (.changing q), n) ∧
      ∃ q' k, ((Classification.changing q).repeated .int 2).run.run engine n =
        some (.ok (.changing q'), { n with supply := k }) := by
  have hmachine : namedFallbackMachine.Twin leafAsideRegion namedFallbackMachine := by
    constructor
    · rintro _ rfl
      exact .some (.changing 1 .int none trivial)
    · rintro _ rfl
      exact .none
    · exact fun _ h => h.elim
  have htwin : namedFallback.Twin leafAsideRegion namedFallback :=
    .named 9 "q" (.orElse 8 (.map 7 .int (.property rfl) (.compute _))
      (.withEffect 6 _ (.fixed 5 (.int 3))))
  have hframes : ∀ f ∈ namedFallbackMachine.stack.frames, f.id < namedFallbackMachine.supply := by
    decide
  have hrun : ∃ q n, (Ask.classification namedFallback).run.run engine namedFallbackMachine =
      some (.ok (.changing q), n) := ⟨_, _, Eval.run_engine_of_answer 6 rfl⟩
  obtain ⟨q, n, hrun⟩ := hrun
  obtain ⟨-, c', k, hagain, hsame⟩ := classification_endures hmachine htwin hframes hrun .int 2
  cases hsame with
  | changing _ q' => exact ⟨hmachine, htwin, hframes, q, n, hrun, q', k, hagain⟩

end ProviderGraph
