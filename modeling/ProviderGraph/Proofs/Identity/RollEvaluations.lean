import ProviderGraph.Proofs.Identity.Roll
import ProviderGraph.Proofs.Scope.Frames
import ProviderGraph.Session.Step

/-!
# Evaluations that keep the roll

An evaluation may ask about what is on the roll, keep it in the machine and give it back, and what
it hands out identities for comes onto the roll. `Eval.Enrolls` reads this off the tree.
-/

namespace ProviderGraph

def Query.Enrolled (roll : Roll) : Query → Prop
  | .ownValue p _ | .presence p _ | .producer p | .classification p | .text p _ => p.Enrolled roll
  | .finalize r => (Provider.property r).Enrolled roll
  | .act _ _ _ | .build _ _ | .step _ => True

/-- What was built, if anything, is on the roll. -/
def Built (roll : Roll) : Option Provider → Prop
  | some p => p.Enrolled roll
  | none => True

def Query.Answered (roll : Roll) : (q : Query) → q.Answer → Prop
  | .classification _, r => ∀ c, r = .ok c → c.Enrolled roll
  | .build _ _, r => ∀ q, r = .ok q → Built roll q
  | _, _ => True

def Change.Enrolled (roll : Roll) : Change → Prop
  | .setProperty _ s => s.Enrolled roll
  | .keepProperty _ r => (Provider.property r).Enrolled roll
  | .keepProvider _ p => p.Enrolled roll
  | .keepOwner _ o => o.id < roll.length
  | .keepClassification _ c => c.content.Enrolled roll
  | _ => True

/-- On an enrolled machine the evaluation keeps to the roll, and `post` holds of its result and of
the roll at its end. -/
def Eval.Enrolls : {α : Type} → Eval α → Roll → (Roll → α → Prop) → Prop
  | _, .done a, roll, post => post roll a
  | _, .ask q next, roll, post => q.Enrolled roll ∧
    ∀ roll' a, roll <+: roll' → q.Answered roll' a → (next a).Enrolls roll' post
  | _, .look next, roll, post => ∀ m : Machine, m.Enrolled roll → (next m).Enrolls roll post
  | _, .fresh next, roll, post => ∃ e, (next roll.length).Enrolls (roll ++ [e]) post
  | _, .change c next, roll, post => c.Enrolled roll ∧ next.Enrolls roll post
  | _, .openScope _ o next, roll, post => o.id < roll.length ∧ ∀ r, (next r).Enrolls roll post
  | _, .inScope o body next, roll, post => o.id < roll.length ∧
    (∀ f, (next (.error f)).Enrolls roll post) ∧
    body.Enrolls roll fun roll' b => (next (.ok b)).Enrolls roll' post
  | _, .onThread body next, roll, post | _, .withOwnLocals body next, roll, post =>
    body.Enrolls roll fun roll' b => (next b).Enrolls roll' post

variable {α β : Type} {roll roll' : Roll} {m n : Machine}

/-! ### Steps of a machine -/

/-- What holds of all entries of a table, and of a new one, holds of all entries with the new
one. -/
theorem Table.forall_set {κ α : Type} [BEq κ] [LawfulBEq κ] {t : Table κ α} {P : α → Prop} {k : κ}
    {a : α} (h : ∀ k a, t.find? k = some a → P a) (ha : P a) :
    ∀ k' b, (t.set k a).find? k' = some b → P b := by
  intro k' b hb
  by_cases hk : k' = k
  · subst hk
    rw [Table.find?_set_self] at hb
    exact Option.some.inj hb ▸ ha
  · rw [Table.find?_set_of_ne _ _ _ _ hk] at hb
    exact h k' b hb

namespace Machine.Enrolled

variable {o : Owner} {s : ScopeStack}

theorem fresh (hm : m.Enrolled roll) (e : Option Provider) :
    Enrolled (roll ++ [e]) { m with supply := m.supply + 1 } where
  supply := by rw [hm.supply, List.length_append, List.length_singleton]
  frames o ho := Nat.lt_of_lt_of_le (hm.frames o ho) (List.prefix_append _ _).length_le
  owners name o ho := Nat.lt_of_lt_of_le (hm.owners name o ho) (List.prefix_append _ _).length_le
  providers name p hp := (hm.providers name p hp).mono (List.prefix_append _ _)
  references name r hr := (hm.references name r hr).mono (List.prefix_append _ _)
  properties i := (hm.properties i).mono (List.prefix_append _ _)
  classifications name c hc := (hm.classifications name c hc).mono (List.prefix_append _ _)

/-- An owner whose identity was handed out may open its scope. -/
theorem enter (hm : m.Enrolled roll) (ho : o.id < roll.length) (hs : m.stack.enter o = .ok s) :
    Enrolled roll { m with stack := s } := by
  refine { hm with frames := fun p hp => ?_ }
  rcases ScopeStack.mem_frames_of_enter hs hp with rfl | hp
  · exact ho
  · exact hm.frames p hp

theorem leave (hm : m.Enrolled roll) (i : Identity) :
    Enrolled roll { m with stack := m.stack.leave i } :=
  { hm with frames := fun o ho => hm.frames o (List.mem_of_mem_eraseP ho) }

/-- Closing scopes keeps a machine on the roll. -/
theorem closeScope (hm : m.Enrolled roll) (name : String) : (m.closeScope name).Enrolled roll := by
  rw [Machine.closeScope]
  split
  · exact { hm.leave _ with }
  · exact hm

/-- Keeping a scope open keeps a machine on the roll. -/
theorem openScope (hm : m.Enrolled roll) {name : String} (ho : o.id < roll.length)
    (hn : m.openScope name o = .ok n) : n.Enrolled roll := by
  obtain ⟨s, hs, hn⟩ := exists_of_bind_eq_ok hn
  cases hn
  exact { (hm.enter ho hs).closeScope name with }

/-- A change that keeps to the roll keeps the machine on it. -/
theorem after (hm : m.Enrolled roll) {c : Change} (hc : c.Enrolled roll) :
    (m.after c).Enrolled roll := by
  cases c with
  | bump | note | keepValue | dropValue | keepProducer | setLimit => exact { hm with }
  | closeScope name => exact hm.closeScope name
  | setProperty i s =>
    refine { hm with properties := fun j => ?_ }
    by_cases hj : j = i
    · subst hj
      exact (m.property_setProperty_self j s).symm ▸ hc
    · exact (m.property_setProperty_of_ne hj s).symm ▸ hm.properties j
  | keepProperty => exact { hm with references := Table.forall_set hm.references hc }
  | keepProvider => exact { hm with providers := Table.forall_set hm.providers hc }
  | keepOwner => exact { hm with owners := Table.forall_set hm.owners hc }
  | keepClassification name c =>
    cases name with
    | none => exact hm
    | some name => exact { hm with classifications := Table.forall_set hm.classifications hc }

/-- A part with registers of its own. -/
theorem ownLocals (hm : m.Enrolled roll) : Enrolled roll { m with locals := .empty } :=
  { hm with classifications := fun _ _ hc => nomatch hc }

/-- A new thread is on the roll of its session. -/
theorem newThread (hm : m.Enrolled roll) : (Eval.newThread m).Enrolled roll :=
  { hm.ownLocals with frames := fun _ ho => nomatch ho }

/-- The scopes and registers of a thread are as they were, and the roll is longer. -/
theorem rejoin (hm : m.Enrolled roll) (hn : n.Enrolled roll') (h : roll <+: roll') :
    Enrolled roll' { n with stack := m.stack, locals := m.locals } :=
  { hn with
    frames := fun o ho => Nat.lt_of_lt_of_le (hm.frames o ho) h.length_le
    classifications := fun name c hc => (hm.classifications name c hc).mono h }

theorem leaveAll (hm : m.Enrolled roll) (scopes : Table String Identity) :
    Enrolled roll { m with stack := scopes.foldl (fun s e => s.leave e.2) m.stack } := by
  induction scopes generalizing m with
  | nil => exact hm
  | cons e scopes ih => exact ih (hm.leave e.2)

/-- A part of a session that is done leaves the roll as it has grown. -/
theorem dropLocals (hm : m.Enrolled roll) (hn : n.Enrolled roll') (h : roll <+: roll') :
    (Eval.dropLocals m n).Enrolled roll' :=
  { hn.leaveAll n.locals.scopes with
    classifications := fun name c hc => (hm.classifications name c hc).mono h }

end Machine.Enrolled

/-! ### Runs -/

/-- If the answers keep to the roll, so does a computation. -/
theorem Eval.Enrolls.run {answers : Answerer} {x : Eval α} {post : Roll → α → Prop}
    (ha : ∀ q m r roll, m.Enrolled roll → q.Enrolled roll → answers q m = some r →
      ∃ roll', roll <+: roll' ∧ r.2.Enrolled roll' ∧ q.Answered roll' r.1)
    (hx : x.Enrolls roll post) (hm : m.Enrolled roll) {r : α × Machine}
    (hr : x.run answers m = some r) :
    ∃ roll', roll <+: roll' ∧ r.2.Enrolled roll' ∧ post roll' r.1 := by
  induction x generalizing m roll with
  | done a =>
    obtain rfl := Option.some.inj hr
    exact ⟨roll, List.prefix_rfl, hm, hx⟩
  | ask q next ih =>
    obtain ⟨r₁, h₁, hr⟩ := Option.bind_eq_some_iff.mp hr
    obtain ⟨roll₁, hle, hm₁, hanswered⟩ := ha _ _ _ _ hm hx.1 h₁
    obtain ⟨roll₂, hle', hr⟩ := ih _ (hx.2 _ _ hle hanswered) hm₁ hr
    exact ⟨roll₂, hle.trans hle', hr⟩
  | look next ih => exact ih _ (hx m hm) hm hr
  | fresh next ih =>
    obtain ⟨e, hx⟩ := hx
    rw [← hm.supply] at hx
    obtain ⟨roll₁, hle, hr⟩ := ih _ hx (hm.fresh e) hr
    exact ⟨roll₁, (List.prefix_append _ _).trans hle, hr⟩
  | change c next ih => exact ih hx.2 (hm.after hx.1) hr
  | openScope name o next ih =>
    simp only [run] at hr
    split at hr
    · exact ih _ (hx.2 _) hm hr
    · next hn => exact ih _ (hx.2 _) (hm.openScope hx.1 hn) hr
  | inScope o body next ihb ih =>
    obtain ⟨ho, herror, hbody⟩ := hx
    simp only [run] at hr
    split at hr
    · exact ih _ (herror _) hm hr
    · next hs =>
      obtain ⟨r₁, h₁, hr⟩ := Option.bind_eq_some_iff.mp hr
      obtain ⟨roll₁, hle, hm₁, hnext⟩ := ihb hbody (hm.enter ho hs) h₁
      obtain ⟨roll₂, hle', hr⟩ := ih _ hnext (hm₁.leave o.id) hr
      exact ⟨roll₂, hle.trans hle', hr⟩
  | onThread body next ihb ih =>
    obtain ⟨r₁, h₁, hr⟩ := Option.bind_eq_some_iff.mp hr
    obtain ⟨roll₁, hle, hm₁, hnext⟩ := ihb hx hm.newThread h₁
    obtain ⟨roll₂, hle', hr⟩ := ih _ hnext (hm.rejoin hm₁ hle) hr
    exact ⟨roll₂, hle.trans hle', hr⟩
  | withOwnLocals body next ihb ih =>
    obtain ⟨r₁, h₁, hr⟩ := Option.bind_eq_some_iff.mp hr
    obtain ⟨roll₁, hle, hm₁, hnext⟩ := ihb hx hm.ownLocals h₁
    obtain ⟨roll₂, hle', hr⟩ := ih _ hnext (hm.dropLocals hm₁ hle) hr
    exact ⟨roll₂, hle.trans hle', hr⟩

/-! ### Laws -/

/-- Two computations keep to the roll if the first one does and leads to a second one that does. -/
theorem Eval.enrolls_bind (x : Eval α) (f : α → Eval β) {post : Roll → β → Prop} :
    (x >>= f).Enrolls roll post ↔ x.Enrolls roll fun roll' a => (f a).Enrolls roll' post := by
  induction x generalizing roll with
  | done a => exact Iff.rfl
  | ask q next ih =>
    exact and_congr_right fun _ => forall₄_congr fun _ a _ _ => ih a f
  | look next ih => exact forall₂_congr fun m _ => ih m f
  | fresh next ih => exact exists_congr fun _ => ih _ f
  | change c next ih => exact and_congr_right fun _ => ih f
  | openScope name o next ih => exact and_congr_right fun _ => forall_congr' fun r => ih r f
  | inScope o body next _ ih =>
    refine and_congr_right fun _ => and_congr (forall_congr' fun e => ih _ f) ?_
    exact iff_of_eq (congrArg _ (funext₂ fun _ b => propext (ih _ f)))
  | onThread body next _ ih | withOwnLocals body next _ ih =>
    exact iff_of_eq (congrArg _ (funext₂ fun _ b => propext (ih b f)))

theorem Eval.Enrolls.imp {x : Eval α} {post post' : Roll → α → Prop} (hx : x.Enrolls roll post)
    (h : ∀ roll' a, post roll' a → post' roll' a) : x.Enrolls roll post' := by
  induction x generalizing roll with
  | done a => exact h _ _ hx
  | ask q next ih => exact ⟨hx.1, fun _ _ hle ha => ih _ (hx.2 _ _ hle ha) h⟩
  | look next ih => exact fun m hm => ih m (hx m hm) h
  | fresh next ih => exact hx.imp fun _ hx => ih _ hx h
  | change c next ih => exact ⟨hx.1, ih hx.2 h⟩
  | openScope name o next ih => exact ⟨hx.1, fun r => ih r (hx.2 r) h⟩
  | inScope o body next ihb ih =>
    exact ⟨hx.1, fun f => ih _ (hx.2.1 f) h, ihb hx.2.2 fun _ _ hb => ih _ hb h⟩
  | onThread body next ihb ih | withOwnLocals body next ihb ih =>
    exact ihb hx fun _ b hb => ih b hb h

/-- What is handed out for a provider may be used in it. -/
theorem Eval.enrolls_identity (p : Provider) {post : Roll → Identity → Prop}
    (h : ∀ roll', roll <+: roll' → roll'[roll.length]? = some (some p) →
      post roll' roll.length) : Eval.identity.Enrolls roll post :=
  ⟨some p, h _ (List.prefix_append _ _) List.getElem?_concat_length⟩

/-- What is handed out for something else. -/
theorem Eval.enrolls_number {post : Roll → Identity → Prop}
    (h : ∀ roll', roll.length < roll'.length → post roll' roll.length) :
    Eval.identity.Enrolls roll post :=
  ⟨none, h _ (by simp)⟩

theorem Eval.enrolls_property {i : Identity} {post : Roll → Property → Prop}
    (h : ∀ s : Property, s.Enrolled roll → post roll s) : (Eval.property i).Enrolls roll post :=
  fun _ hm => h _ (hm.properties i)

/-- The same of a computation that may fail; `post` is about its successes. -/
def Enrolling {ε : Type} (x : ExceptT ε Eval α) (roll : Roll) (post : Roll → α → Prop) : Prop :=
  x.run.Enrolls roll fun roll' r => ∀ a, r = .ok a → post roll' a

namespace Enrolling

variable {ε : Type} {post : Roll → α → Prop} {p : Provider} {o : Owner}

theorem pure {a : α} (h : post roll a) : Enrolling (Pure.pure a : ExceptT ε Eval α) roll post :=
  fun _ ha => Except.ok.inj ha ▸ h

theorem throw (e : ε) : Enrolling (MonadExcept.throw e : ExceptT ε Eval α) roll post :=
  fun _ ha => by cases ha

theorem ofExcept {r : Except ε α} (h : ∀ a, r = .ok a → post roll a) :
    Enrolling (MonadExcept.ofExcept r : ExceptT ε Eval α) roll post := by
  cases r with
  | ok a => exact pure (h a rfl)
  | error e => exact throw e

theorem bind {x : ExceptT ε Eval α} {f : α → ExceptT ε Eval β} {post : Roll → β → Prop}
    (h : Enrolling x roll fun roll' a => Enrolling (f a) roll' post) :
    Enrolling (x >>= f) roll post := by
  refine (Eval.enrolls_bind x.run (ExceptT.bindCont f)).mpr (h.imp fun _ r hr => ?_)
  cases r with
  | ok a => exact hr a rfl
  | error e => exact fun _ hb => by cases hb

theorem imp {x : ExceptT ε Eval α} {post' : Roll → α → Prop} (h : Enrolling x roll post)
    (hpost : ∀ roll' a, post roll' a → post' roll' a) : Enrolling x roll post' :=
  Eval.Enrolls.imp h fun roll' _ hr a ha => hpost roll' a (hr a ha)

theorem map {x : ExceptT ε Eval α} {f : α → β} {post : Roll → β → Prop}
    (h : Enrolling x roll fun roll' a => post roll' (f a)) : Enrolling (f <$> x) roll post := by
  rw [map_eq_pure_bind]
  exact bind (h.imp fun _ _ h => pure h)

theorem lift {x : Eval α} (h : x.Enrolls roll post) :
    Enrolling (liftM x : ExceptT ε Eval α) roll post :=
  (Eval.enrolls_bind x _).mpr (h.imp fun _ _ h => pure h)

theorem asUserCode {x : Attempt α} (h : Enrolling x roll post) :
    Enrolling x.asUserCode roll post := by
  refine (Eval.enrolls_bind x.run _).mpr (Eval.Enrolls.imp h fun _ r hr => ?_)
  cases r with
  | ok a => exact pure (hr a rfl)
  | error e => exact fun _ ha => by cases ha

theorem within {x : Attempt α} (ho : o.id < roll.length) (h : Enrolling x roll post) :
    Enrolling (within o x) roll post :=
  ⟨ho, fun f => throw f, Eval.Enrolls.imp h fun _ _ h => h⟩

/-- A computation on a thread of its own. -/
theorem elsewhere {x : ExceptT ε Eval α} (h : Enrolling x roll post) :
    Enrolling (ExceptT.mk (Eval.elsewhere x.run)) roll post := h

theorem machine {post : Roll → Machine → Prop} (h : ∀ m, m.Enrolled roll → post roll m) :
    Enrolling (liftM Eval.machine : ExceptT ε Eval Machine) roll post := .lift h

theorem property {i : Identity} {post : Roll → Property → Prop}
    (h : ∀ s : Property, s.Enrolled roll → post roll s) :
    Enrolling (liftM (Eval.property i) : ExceptT ε Eval Property) roll post :=
  .lift (Eval.enrolls_property h)

theorem apply {c : Change} {post : Roll → Unit → Prop} (hc : c.Enrolled roll) (h : post roll ()) :
    Enrolling (liftM (Eval.apply c) : ExceptT ε Eval Unit) roll post := .lift ⟨hc, h⟩

/-- A rejection is attributed to what is on the roll. -/
theorem settle {culprit : Eval String} {r : Except Failure α}
    (hc : culprit.Enrolls roll fun _ _ => True) (h : ∀ a, r = .ok a → post roll a) :
    Enrolling (settle culprit r) roll post := by
  match r with
  | .ok a => exact pure (h a rfl)
  | .error (.fault f) => exact throw f
  | .error (.rejected message) => exact .bind (.lift (hc.imp fun _ _ _ => throw _))

/-! ### Questions -/

/-- The value of a provider on the roll may be asked for. -/
theorem ownValue {c : Reading} {post : Roll → Outcome → Prop} (hp : p.Enrolled roll)
    (h : ∀ roll' v, roll <+: roll' → post roll' v) : Enrolling (Ask.ownValue p c) roll post :=
  ⟨hp, fun roll' _ hle _ v _ => h roll' v hle⟩

theorem value {c : Reading} {post : Roll → Outcome → Prop} (hp : p.Enrolled roll)
    (h : ∀ roll' v, roll <+: roll' → post roll' v) : Enrolling (Ask.value p c) roll post :=
  .bind (.ownValue hp fun roll' _ hle => .pure (h roll' _ hle))

theorem presence {c : Reading} {post : Roll → Bool → Prop} (hp : p.Enrolled roll)
    (h : ∀ roll' b, roll <+: roll' → post roll' b) : Enrolling (Ask.presence p c) roll post :=
  ⟨hp, fun roll' _ hle _ b _ => h roll' b hle⟩

theorem producer {post : Roll → Producer → Prop} (hp : p.Enrolled roll)
    (h : ∀ roll' t, roll <+: roll' → post roll' t) : Enrolling (Ask.producer p) roll post :=
  ⟨hp, fun roll' _ hle _ t _ => h roll' t hle⟩

/-- A provider on the roll has a classification on the roll. -/
theorem classification {post : Roll → Classification → Prop} (hp : p.Enrolled roll)
    (h : ∀ roll' c, roll <+: roll' → c.Enrolled roll' → post roll' c) :
    Enrolling (Ask.classification p) roll post :=
  ⟨hp, fun roll' _ hle ha c hc => h roll' c hle (ha c hc)⟩

/-- A property on the roll may be finalized. -/
theorem finalize {r : PropertyRef} {post : Roll → Unit → Prop}
    (hr : (Provider.property r).Enrolled roll) (h : ∀ roll', roll <+: roll' → post roll' ()) :
    Enrolling (Ask.finalize r) roll post :=
  ⟨hr, fun roll' _ hle _ _ _ => h roll' hle⟩

theorem action {a : Action} {held : Option Payload} {x : Payload}
    {post : Roll → Option Payload → Prop} (h : ∀ roll' y, roll <+: roll' → post roll' y) :
    Enrolling (Ask.action a held x) roll post :=
  ⟨trivial, fun roll' _ hle _ y _ => h roll' y hle⟩

theorem build {r : Recipe} {held : Option Payload} {post : Roll → Option Provider → Prop}
    (h : ∀ roll' q, roll <+: roll' → Built roll' q → post roll' q) :
    Enrolling (Ask.build r held) roll post :=
  ⟨trivial, fun roll' _ hle ha q hq => h roll' q hle (ha q hq)⟩

theorem text {post : Roll → String → Prop} (hp : p.Enrolled roll)
    (h : ∀ roll' s, roll <+: roll' → post roll' s) :
    Enrolling (liftM (Ask.text p) : ExceptT ε Eval String) roll post :=
  .lift ⟨hp, fun roll' s hle _ => h roll' s hle⟩

end Enrolling

/-! ### Parts of the rules -/

theorem nextCall_enrolls {calls : Calls} {post : Roll → Except Failure (Option Payload) → Prop}
    (h : ∀ roll' r, roll <+: roll' → post roll' r) : (nextCall calls).Enrolls roll post :=
  fun _ _ => ⟨trivial, trivial, fun roll' r hle _ => h roll' r hle⟩

theorem freshUndefined_enrolls {type : PayloadType} {path : List String}
    {post : Roll → Provider → Prop}
    (h : ∀ roll' p, roll <+: roll' → p.Enrolled roll' → post roll' p) :
    (freshUndefined type path).Enrolls roll post :=
  (Eval.enrolls_bind _ _).mpr <| Eval.enrolls_identity _ fun roll' hle he =>
    h roll' _ hle ⟨he, trivial⟩

theorem freshFixed_enrolls {x : Payload} {post : Roll → Provider → Prop}
    (h : ∀ roll' p, roll <+: roll' → p.Enrolled roll' → post roll' p) :
    (freshFixed x).Enrolls roll post :=
  (Eval.enrolls_bind _ _).mpr <| Eval.enrolls_identity _ fun roll' hle he =>
    h roll' _ hle ⟨he, trivial⟩

theorem wrapEffect_enrolls {p : Provider} {e : Option Effect} {post : Roll → Provider → Prop}
    (hp : p.Enrolled roll) (h : ∀ roll' q, roll <+: roll' → q.Enrolled roll' → post roll' q) :
    (wrapEffect p e).Enrolls roll post := by
  cases e with
  | none => exact h roll p List.prefix_rfl hp
  | some e =>
    exact (Eval.enrolls_bind _ _).mpr <| Eval.enrolls_identity _ fun roll' hle he =>
      h roll' _ hle ⟨he, hp.mono hle⟩

theorem toProvider_enrolls {c : Classification} {type : PayloadType}
    {post : Roll → Provider → Prop} (hc : c.Enrolled roll)
    (h : ∀ roll' q, roll <+: roll' → q.Enrolled roll' → post roll' q) :
    (c.toProvider type).Enrolls roll post := by
  cases c with
  | fixed x e =>
    refine (Eval.enrolls_bind _ _).mpr (freshFixed_enrolls fun roll₁ p hle hp => ?_)
    exact wrapEffect_enrolls hp fun roll₂ q hle' => h roll₂ q (hle.trans hle')
  | changing p => exact h roll p List.prefix_rfl hc
  | missing path => exact freshUndefined_enrolls h

end ProviderGraph
