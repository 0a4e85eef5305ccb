import ProviderGraph.Proofs.Scope.OpenScopes

/-!
# Providers that are reached again

A provider that reads others keeps its scope open whenever user code may run on its behalf. So when
its value is asked for again in the course of its own evaluation, by whatever detour, the request
ends with the cycle that it closes. A leaf that makes calls opens no scope, and its calls may ask
for it again.
-/

namespace ProviderGraph

/-- Whether a provider reads others, each of them in a scope of its own. -/
def Provider.opensScope : Provider → Bool
  | .map _ _ _ _ | .flatMap _ _ _ _ | .orElse _ _ _ | .withEffect _ _ _ | .named _ _ _
  | .property _ => true
  | .fixed _ _ | .undefined _ _ _ | .changing _ _ _ _ | .custom _ _ _ _ _ => false

def Query.IsText (q : Query) : Prop := ∃ p label, q = .text p label

/-! ### What is asked on the way -/

/-- All that is asked on the thread of the evaluation, and the machine it is asked on, is as told by
`P`. -/
def Eval.Asks {α : Type} (P : Query → Machine → Prop) (x : Eval α) : Prop :=
  ∀ m q n, m.Holds [] → x.Poses m q n → P q n

namespace Eval.Asks

variable {α β ε : Type} {P : Query → Machine → Prop}

theorem pure (a : α) : (Pure.pure a : Eval α).Asks P := fun _ _ _ _ h => h.elim

theorem bind {x : Eval α} {f : α → Eval β} (hx : x.Asks P) (hf : ∀ a, (f a).Asks P) :
    (x >>= f).Asks P := by
  intro m q n hm h
  rcases (poses_bind x f).mp h with h | ⟨r, hr, h⟩
  · exact hx m q n hm h
  · exact hf _ _ _ _ (Eval.run_holds hm hr) h

theorem bindExcept {x : ExceptT ε Eval α} {f : α → ExceptT ε Eval β} (hx : x.run.Asks P)
    (hf : ∀ a, (f a).run.Asks P) : (x >>= f).run.Asks P := by
  rw [ExceptT.run_bind]
  refine hx.bind fun
    | .ok a => hf a
    | .error e => pure _

theorem lift {x : Eval α} (hx : x.Asks P) : (liftM x : ExceptT ε Eval α).run.Asks P :=
  hx.bind fun _ => pure _

theorem machine : Eval.machine.Asks P := fun _ _ _ _ h => h.elim

theorem property (i : Identity) : (Eval.property i).Asks P := machine.bind fun _ => pure _

theorem identity : Eval.identity.Asks P := fun _ _ _ _ h => h.elim

theorem apply (c : Change) : (Eval.apply c).Asks P := fun _ _ _ _ h => h.elim

theorem freshUndefined (type : PayloadType) (path : List String) :
    (freshUndefined type path).Asks P := identity.bind fun _ => pure _

theorem wrapEffect (p : Provider) (e : Option Effect) : (wrapEffect p e).Asks P := by
  cases e with
  | none => exact pure _
  | some e => exact identity.bind fun _ => pure _

/-- The body of a scope runs where the scope is held. -/
theorem within {o : Owner} {refused : Fault → Eval α} {body : Eval α}
    (hr : ∀ f, (refused f).Asks P)
    (hb : ∀ m q n, m.Holds [o] → body.Poses m q n → P q n) :
    (Eval.within o refused body).Asks P := by
  intro m q n hm h
  change (Eval.inScope o body _).Poses m q n at h
  simp only [Poses] at h
  split at h
  · exact hr _ m q n hm h
  · next hs =>
    rcases h with h | ⟨r, -, h⟩
    · exact hb _ q n (hm.enter hs) h
    · exact h.elim

end Eval.Asks

/-! ### Texts -/

namespace Eval.Asks

variable (p : Provider)

/-- Texts ask for texts. -/
theorem describe : (describe p).Asks fun q _ => q.IsText := by
  have text (p : Provider) : (Ask.text p).Asks fun q _ => q.IsText := by
    rintro m q n - (⟨rfl, -⟩ | ⟨r, -, h⟩)
    · exact ⟨_, _, rfl⟩
    · exact h.elim
  cases p with
  | fixed | undefined | changing | named => exact pure _
  | map i base | flatMap i base => exact (text base).bind fun _ => pure _
  | orElse i left right => exact (text left).bind fun _ => (text right).bind fun _ => pure _
  | withEffect i inner => exact text inner
  | property r =>
    simp only [ProviderGraph.describe]
    split
    · exact pure _
    · refine (property _).bind fun s => ?_
      split
      · exact (text _).bind fun _ => pure _
      · exact pure _
  | custom i form =>
    simp only [ProviderGraph.describe]
    split <;> exact pure _

/-- To draw a provider only texts are asked for. -/
theorem render (label : String) : (render p label).Asks fun q _ => q.IsText :=
  within (fun _ => pure _) fun m q n hm => describe p m q n (hm.mono (by simp))

end Eval.Asks

/-- Below a text there are only texts. -/
theorem During.isText {p : Provider} {label : String} {m n : Machine} {q : Query}
    (hm : m.Holds []) (h : During (.text p label) m q n) : q.IsText := by
  generalize hq : Query.text p label = q₀ at h
  induction h generalizing p label with
  | posed h =>
    subst hq
    exact Eval.Asks.render p label _ _ _ hm h
  | later h _ ih =>
    subst hq
    obtain ⟨p', label', rfl⟩ := Eval.Asks.render p label _ _ _ hm h
    exact ih (h.holds hm) rfl

/-! ### Values -/

/-- Whatever is asked, other than for a text, is asked while the scope of `o` is open. -/
def Eval.AsksIn {α : Type} (o : Owner) (x : Eval α) : Prop :=
  x.Asks fun q n => n.Holds [o] ∨ q.IsText

namespace Eval.AsksIn

variable {α : Type} {o : Owner}

open Asks (pure bind bindExcept lift)

theorem text (p : Provider) : (Ask.text p).AsksIn o := by
  rintro m q n - (⟨rfl, -⟩ | ⟨r, -, h⟩)
  · exact .inr ⟨_, _, rfl⟩
  · exact h.elim

/-- The scope of `o` is open for all that its body asks. -/
theorem within (body : Attempt α) : (ProviderGraph.within o body).run.AsksIn o :=
  Asks.within (fun _ => pure _) fun _ _ _ hm h => .inl (h.holds hm)

theorem settle {culprit : Eval String} (hc : culprit.AsksIn o) (r : Except Failure α) :
    (ProviderGraph.settle culprit r).run.AsksIn o := by
  match r with
  | .ok a => exact pure _
  | .error (.fault f) => exact pure _
  | .error (.rejected message) => exact bindExcept (lift hc) fun _ => pure _

variable (p : Provider)

/-- A transform runs inside the scope of the provider. -/
theorem applyTransform (f : Closure) (x : Payload) :
    (ProviderGraph.applyTransform p f x).run.AsksIn p.owner :=
  bindExcept (within _) (settle (text p))

/-- A flat map chooses inside its scope. -/
theorem chooseNext (choice : Recipe) (type : PayloadType) (v : Outcome) :
    (ProviderGraph.chooseNext p choice type v).run.AsksIn p.owner := by
  refine bindExcept (within _) fun chosen => bindExcept (settle (text p) chosen) fun
    | some q => lift (Asks.wrapEffect q _)
    | none => lift (Asks.freshUndefined _ _)

/-- A provider with a scope reads others in it. Only a property may ask to be finalized before. -/
theorem evalValue (hp : p.opensScope = true) (hprop : ∀ r, p ≠ .property r) (c : Reading) :
    (ProviderGraph.evalValue p c).run.AsksIn p.owner := by
  cases p with
  | map i base f type =>
    refine bindExcept (within _) fun
      | .missing path => pure _
      | .present x e => bindExcept (applyTransform _ f x) fun _ => pure _
  | flatMap i base choice type =>
    refine bindExcept (within _) fun v => ?_
    split
    · exact pure _
    · exact bindExcept (chooseNext _ choice type v) fun _ => within _
  | orElse i left right =>
    refine bindExcept (within _) fun l => ?_
    split
    · refine bindExcept (within _) fun r => ?_
      split <;> exact pure _
    · exact pure _
  | withEffect i inner e => exact bindExcept (within _) fun _ => pure _
  | named i inner name => exact within _
  | property r => exact absurd rfl (hprop r)
  | fixed | undefined | changing | custom => simp [Provider.opensScope] at hp

variable (r : PropertyRef)

/-- What a property keeps is computed inside its scope. -/
theorem computeFrozen (held : Option Provider) :
    (ProviderGraph.computeFrozen r held).run.AsksIn (Provider.property r).owner := by
  cases held with
  | none => exact bindExcept (lift (Asks.freshUndefined _ _)) fun _ => pure _
  | some q =>
    refine bindExcept (within _) fun _ => bindExcept (within _) fun v => ?_
    refine bindExcept (lift ?_) fun _ => pure _
    cases v with
    | present x e => exact (Asks.identity.bind fun _ => pure _).bind fun q => Asks.wrapEffect q e
    | missing path => exact Asks.freshUndefined _ _

/-- A property that is finalized reads its provider in its scope. -/
theorem evalFinalize :
    (ProviderGraph.evalFinalize r).run.AsksIn (Provider.property r).owner := by
  refine bindExcept (lift (Asks.property _)) fun s => ?_
  split
  · exact pure _
  · exact bindExcept (computeFrozen r _) fun _ =>
      lift ((Asks.property _).bind fun _ => Asks.apply _)

end Eval.AsksIn

section Requests

variable {p : Provider} {r : PropertyRef} {c c' : Reading} {m n m' : Machine} {q : Query}

/-- To ask for a value is to pose the question for it without the declared name. -/
theorem Eval.poses_value : (Ask.value p c).run.Poses m q n ↔ q = .ownValue p c ∧ n = m := by
  constructor
  · rintro (h | ⟨⟨⟨f⟩ | ⟨v⟩, m₁⟩, -, h⟩)
    · exact h
    · exact h.elim
    · exact h.elim
  · exact .inl

/-- What is posed by the body of a scope is posed while the scope is open. -/
theorem Eval.Poses.of_within {o : Owner} {α : Type} {body : Attempt α}
    (h : (ProviderGraph.within o body).run.Poses m q n) :
    ∃ s, m.stack.enter o = .ok s ∧ body.run.Poses { m with stack := s } q n := by
  change (Eval.inScope o body.run _).Poses m q n at h
  simp only [Eval.Poses] at h
  split at h
  · exact h.elim
  · next s hs =>
    rcases h with h | ⟨r, -, h⟩
    · exact ⟨s, hs, h⟩
    · exact h.elim

/-- A property that must be finalized asks for that first. -/
theorem Eval.Poses.of_finalizeFor (h : (finalizeFor r c).run.Poses m q n) :
    (m.property r.id).mustFinalize c = true ∧ q = .finalize r ∧ n = m := by
  rw [finalizeFor, Eval.run_lift_bind, Eval.poses_bind] at h
  rcases h with h | ⟨s, hs, h⟩
  · exact h.elim
  · obtain rfl := Option.some.inj hs
    split at h
    · next hf =>
      rcases h with ⟨rfl, rfl⟩ | ⟨s, -, h⟩
      · exact ⟨hf, rfl, rfl⟩
      · exact h.elim
    · exact h.elim

/-- Then it asks for the value of the provider it holds, in its scope. -/
theorem Eval.Poses.of_property (hm : m.Holds [])
    (h : (evalValue (.property r) c).run.Poses m q n) :
    (finalizeFor r c).run.Poses m q n ∨
      ∃ m₁, (finalizeFor r c).run.run engine m = some (.ok (), m₁) ∧
        ∃ p, (m₁.property r.id).effective = some p ∧ q = .ownValue p c ∧
          n.Holds [(Provider.property r).owner] := by
  rw [evalValue, ExceptT.run_bind, Eval.poses_bind] at h
  rcases h with h | ⟨⟨⟨f⟩ | ⟨⟨⟩⟩, m₁⟩, hs, h⟩
  · exact .inl h
  · exact h.elim
  · refine .inr ⟨m₁, hs, ?_⟩
    rw [Eval.run_lift_bind, Eval.poses_bind] at h
    rcases h with h | ⟨s, hs', h⟩
    · exact h.elim
    · obtain rfl := Option.some.inj hs'
      have hm₁ : m₁.Holds [] := Eval.run_holds hm hs
      dsimp only at h
      split at h
      · next p hp =>
        obtain ⟨s, hs, h⟩ := h.of_within
        obtain ⟨rfl, rfl⟩ := Eval.poses_value.mp h
        exact ⟨p, hp, rfl, hm₁.enter hs⟩
      · exact h.elim

/-- What comes up while a question is answered that is asked about in a scope. -/
theorem During.of_asksIn (q₀ : Query) {o : Owner} (ha : (rule q₀).AsksIn o) (hm : m.Holds [])
    (h : During q₀ m q n) : n.Holds [o] ∨ q.IsText := by
  cases h with
  | posed h => exact ha _ _ _ hm h
  | later h h' =>
    rcases ha _ _ _ hm h with ho | ⟨_, _, rfl⟩
    · exact .inl (h'.holds ho)
    · exact .inr (h'.isText (h.holds hm))

/-- The scope of a provider is open whenever a value is asked for in the course of its own
evaluation. -/
theorem During.holds_owner {p' : Provider} (hp : p.opensScope = true) (hm : m.Holds [])
    (h : During (.ownValue p c) m (.ownValue p' c') n) : n.Holds [p.owner] := by
  have not_text : ¬ (Query.ownValue p' c').IsText := fun ⟨_, _, hq⟩ => nomatch hq
  by_cases hr : ∃ r, p = .property r
  · obtain ⟨r, rfl⟩ := hr
    cases h with
    | posed h =>
      rcases Eval.Poses.of_property hm h with h | ⟨-, -, p, -, -, h⟩
      · exact nomatch h.of_finalizeFor.2.1
      · exact h
    | later h h' =>
      rcases Eval.Poses.of_property hm h with h | ⟨-, -, p, -, -, h⟩
      · obtain ⟨-, rfl, rfl⟩ := h.of_finalizeFor
        exact (of_asksIn (.finalize r) (Eval.AsksIn.evalFinalize r) hm h').resolve_right not_text
      · exact h'.holds h
  · have asks := Eval.AsksIn.evalValue p hp (fun r h => hr ⟨r, h⟩) c
    exact (of_asksIn (.ownValue p c) asks hm h).resolve_right not_text

/-! ### The request that closes the cycle -/

/-- To enter a scope that is open fails with the cycle, and the body is not run. -/
theorem run_within_of_isOpen {α : Type} {o : Owner} (h : m.stack.isOpen o.id = true)
    (body : Attempt α) :
    (within o body).run.run engine m =
      some (.error (.circular (m.stack.cycleFrom o.id ++ [o.label])), m) := by
  change (Eval.inScope o body.run _).run engine m = _
  simp only [Eval.run, ScopeStack.enter_of_isOpen _ _ h]
  rfl

/-- A property that is not to be finalized is left as it is. -/
theorem run_finalizeFor_of_not_mustFinalize (h : (m.property r.id).mustFinalize c = false) :
    (finalizeFor r c).run.run engine m = some (.ok (), m) := by
  rw [finalizeFor, Eval.run_property_bind, h]
  rfl

/-- A property that holds a provider cannot be finalized while its scope is open. -/
theorem run_finalizeFor_of_isOpen (h : m.stack.isOpen r.id = true)
    (hr : (m.property r.id).effective.isSome = true) :
    (finalizeFor r c).run.run engine m = some (.ok (), m) ∨
      (finalizeFor r c).run.run engine m =
        some (.error (.circular (m.stack.cycleFrom r.id ++ [r.label])), m) := by
  obtain ⟨q, hq⟩ := Option.isSome_iff_exists.mp hr
  have hfin (hf : (m.property r.id).finalized = false) :
      engine (.finalize r) m =
        some (.error (.circular (m.stack.cycleFrom r.id ++ [r.label])), m) := by
    rw [engine_eq_rule, rule, evalFinalize, Eval.run_lift_bind, Eval.run_bind, Eval.run_property]
    simp only [Option.bind_some, hf, hq, Bool.false_eq_true, if_false]
    exact Eval.run_bind_error (Eval.run_bind_error (run_within_of_isOpen h _) _) _
  rw [finalizeFor, Eval.run_lift_bind, Eval.run_bind, Eval.run_property, Option.bind_some]
  split
  · next hf =>
    refine .inr ?_
    have hnot : (m.property r.id).finalized = false := by
      cases c <;> simp_all [Property.mustFinalize]
    change (engine (.finalize r) m).bind _ = _
    rw [hfin hnot]
    rfl
  · exact .inl rfl

/-- While its scope is open a provider has no value. -/
theorem engine_ownValue_of_isOpen (hp : p.opensScope = true) (h : m.stack.isOpen p.id = true)
    (hr : ∀ r, p = .property r → (m.property r.id).effective.isSome = true) :
    engine (.ownValue p c) m =
      some (.error (.circular (m.stack.cycleFrom p.id ++ [p.label])), m) := by
  rw [engine_eq_rule]
  cases p with
  | map | flatMap | orElse | withEffect =>
    exact Eval.run_bind_error (run_within_of_isOpen h _) _
  | named => exact run_within_of_isOpen h _
  | property r =>
    obtain ⟨q, hq⟩ := Option.isSome_iff_exists.mp (hr r rfl)
    rcases run_finalizeFor_of_isOpen (c := c) h (hr r rfl) with hf | hf
    · rw [rule, evalValue, ExceptT.run_bind, Eval.run_bind, hf, Option.bind_some,
        Eval.run_lift_bind, Eval.run_bind, Eval.run_property, Option.bind_some]
      simp only [hq]
      exact run_within_of_isOpen h _
    · exact Eval.run_bind_error hf _
  | fixed | undefined | changing | custom => simp [Provider.opensScope] at hp

/-! ### Properties that hold nothing -/

/-- A property that holds nothing keeps, when it is finalized, that it has no payload. -/
theorem effective_of_run_finalizeFor (hr : (m.property r.id).effective = none)
    (h : (finalizeFor r c).run.run engine m = some (.ok (), n))
    (hp : (n.property r.id).effective = some p) : p = .undefined m.supply r.type [] := by
  rw [finalizeFor, Eval.run_lift_bind, Eval.run_bind, Eval.run_property, Option.bind_some] at h
  split at h
  · next hf =>
    have hnot : (m.property r.id).finalized = false := by
      cases c <;> simp_all [Property.mustFinalize]
    change (engine (.finalize r) m).bind _ = _ at h
    rw [engine_eq_rule, rule, evalFinalize, Eval.run_lift_bind, Eval.run_bind, Eval.run_property]
      at h
    simp only [Option.bind_some, hnot, hr, Bool.false_eq_true, if_false] at h
    obtain rfl : { m with supply := m.supply + 1 }.setProperty r.id
        ((m.property r.id).commit (.undefined m.supply r.type []) .none) = n :=
      congrArg Prod.snd (Option.some.inj h)
    rw [Machine.property_setProperty_self] at hp
    simpa [Property.commit, hnot, Property.effective, eq_comm] using hp
  · obtain rfl : m = n := congrArg Prod.snd (Option.some.inj h)
    simp [hr] at hp

/-- The finalization of a property that holds nothing poses no question. -/
theorem not_poses_evalFinalize (hr : (m.property r.id).effective = none) :
    ¬ (evalFinalize r).run.Poses m q n := by
  intro h
  rw [evalFinalize, Eval.run_lift_bind, Eval.poses_bind] at h
  rcases h with h | ⟨s, hs, h⟩
  · exact h
  · obtain rfl := Option.some.inj hs
    dsimp only at h
    split at h
    · exact h
    · rw [hr] at h
      exact h

/-- So it asks for no value but that of a provider without payload. -/
theorem During.ne_of_unset (hr : (m.property r.id).effective = none) (hm : m.Holds [])
    (h : During (.ownValue (.property r) c) m (.ownValue p c') n) : p ≠ .property r := by
  cases h with
  | posed h =>
    rcases Eval.Poses.of_property hm h with h | ⟨m₁, hm₁, p, hp, hq, -⟩
    · exact nomatch h.of_finalizeFor.2.1
    · obtain ⟨rfl, rfl⟩ := Query.ownValue.inj hq
      rw [effective_of_run_finalizeFor hr hm₁ hp]
      exact Provider.noConfusion
  | later h h' =>
    rcases Eval.Poses.of_property hm h with h | ⟨m₁, hm₁, p, hp, rfl, -⟩
    · obtain ⟨-, rfl, rfl⟩ := h.of_finalizeFor
      cases h' with
      | posed h' => exact absurd h' (not_poses_evalFinalize hr)
      | later h' _ => exact absurd h' (not_poses_evalFinalize hr)
    · rw [effective_of_run_finalizeFor hr hm₁ hp] at h'
      cases h' with
      | posed h' => exact h'.elim
      | later h' _ => exact h'.elim

/-! ### Requests for a value that is being computed -/

/-- A provider that is asked for its value in the course of its own evaluation, and was not changed
since, ends the request with a cycle from its label to its label. -/
theorem reentry_is_circular (hp : p.opensScope = true) (hm : m.Holds [])
    (h : During (.ownValue p c) m (.ownValue p c') m')
    (hsame : ∀ r, p = .property r → m'.property r.id = m.property r.id) :
    ∃ inner, engine (.ownValue p c') m' =
      some (.error (.circular (p.label :: inner ++ [p.label])), m') := by
  have hopen := (h.holds_owner hp hm).isOpen p.owner List.mem_cons_self
  obtain ⟨inner, hinner⟩ := ScopeStack.cycleFrom_of_frameOf? hopen
  have heff (r : PropertyRef) (hr : p = .property r) :
      (m'.property r.id).effective.isSome = true := by
    subst hr
    rw [hsame r rfl, Option.isSome_iff_ne_none]
    exact fun hnone => h.ne_of_unset hnone hm rfl
  refine ⟨inner, ?_⟩
  rw [engine_ownValue_of_isOpen hp (ScopeStack.isOpen_of_frameOf? hopen) heff]
  simp only [Provider.owner_id, Provider.owner_label] at hinner
  rw [hinner]

end Requests

/-- A provider that asks for itself in its transform. -/
def selfReadingMap : Provider :=
  .map 0 (.fixed 1 (.int 1)) ⟨.inquire .get (.register "p"), none⟩ .int

def selfReadingMachine (p : Provider) : Machine := (Machine.fresh 8).keepProvider "p" p

theorem reentry_is_circular_selfReadingMap :
    ∃ m', During (.ownValue selfReadingMap .strict) (selfReadingMachine selfReadingMap)
        (.ownValue selfReadingMap .strict) m' ∧
      ∃ inner, engine (.ownValue selfReadingMap .strict) m' =
        some (.error (.circular ("map" :: inner ++ ["map"])), m') := by
  have asks : (rule (.ownValue selfReadingMap .strict)).Poses (selfReadingMachine selfReadingMap)
      (.act (.inquire .get (.register "p")) none (.int 1))
      { selfReadingMachine selfReadingMap with stack := ⟨[selfReadingMap.owner], 8⟩ } :=
    .inr ⟨_, Eval.run_engine_of_answer 1 rfl, .inl (.inl ⟨rfl, rfl⟩)⟩
  have reads : (rule (.act (.inquire .get (.register "p")) none (.int 1))).Poses
      { selfReadingMachine selfReadingMap with stack := ⟨[selfReadingMap.owner], 8⟩ }
      (.ownValue selfReadingMap .strict)
      { selfReadingMachine selfReadingMap with stack := ⟨[selfReadingMap.owner], 8⟩ } :=
    .inr ⟨_, engine_eq_some_iff.mpr ⟨1, rfl⟩, .inl ⟨rfl, rfl⟩⟩
  have h := During.later asks (.posed reads)
  exact ⟨_, h, reentry_is_circular rfl (.of_scopes_eq_nil rfl) h fun r hr => nomatch hr⟩

/-- A leaf whose first call asks for the leaf itself, and whose later calls give one. -/
def selfReadingLeaf : Provider :=
  .changing 0 .int none
    ⟨1, fun
      | 0 => .inquire .get (.register "p")
      | _ + 1 => .compute fun _ => .ok (some (.int 1)), none⟩

/-- A leaf opens no scope: its call asks for it again and gets a value. -/
theorem selfReadingLeaf_has_value :
    ∃ m m' : Machine, m.Holds [] ∧
      During (.ownValue selfReadingLeaf .strict) m (.ownValue selfReadingLeaf .strict) m' ∧
      ∃ m'', engine (.ownValue selfReadingLeaf .strict) m' =
        some (.ok (.present (.int 1) none), m'') := by
  have asks : (rule (.ownValue selfReadingLeaf .strict)).Poses (selfReadingMachine selfReadingLeaf)
      (.act (.inquire .get (.register "p")) none (.int 0))
      ((selfReadingMachine selfReadingLeaf).bump 1) :=
    .inl ⟨rfl, rfl⟩
  have reads : (rule (.act (.inquire .get (.register "p")) none (.int 0))).Poses
      ((selfReadingMachine selfReadingLeaf).bump 1) (.ownValue selfReadingLeaf .strict)
      ((selfReadingMachine selfReadingLeaf).bump 1) :=
    .inr ⟨_, engine_eq_some_iff.mpr ⟨1, rfl⟩, .inl ⟨rfl, rfl⟩⟩
  exact ⟨_, _, .of_scopes_eq_nil rfl, .later asks (.posed reads), _,
    engine_eq_some_iff.mpr ⟨2, rfl⟩⟩

end ProviderGraph
