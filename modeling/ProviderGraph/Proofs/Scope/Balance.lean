import Mathlib.Data.List.Nodup
import ProviderGraph.Proofs.Engine.Fuel
import ProviderGraph.Proofs.Engine.RuleComposition
import ProviderGraph.Proofs.Scope.Frames

/-!
# Scopes are closed again

A step of a session may keep scopes open in registers. Apart from those it leaves the open scopes as
they were (`Machine.RestsOn`), so a part with registers of its own, which closes them at its end,
leaves the stack as it was (`Machine.RestsOn.dropLocals`). All else that a rule does with scopes is
balanced (`Eval.Balanced`), and a query of a provider ends on the frames that it started on
(`frames_of_query`).
-/

namespace ProviderGraph

open Eval (Compositional)

/-! ### Frames that are kept -/

/-- A scope that is on the stack once is taken off it. -/
theorem ScopeStack.frames_leave {s : ScopeStack} {i : Identity}
    (h : s.frames.countP (·.id == i) = 1) :
    (s.leave i).frames = s.frames.filter fun o => !(i == o.id) := by
  show s.frames.eraseP (·.id == i) = _
  generalize s.frames = os at h
  induction os with
  | nil => simp
  | cons o os ih =>
    by_cases hi : o.id = i
    · -- the scope is not among the others, so nothing more is taken off
      have hos : ∀ p ∈ os, p.id ≠ i := by simpa [hi, List.countP_eq_zero] using h
      simpa [hi] using (List.filter_eq_self.mpr fun p hp => by simpa using (hos p hp).symm).symm
    · have hos : os.countP (·.id == i) = 1 := by simpa [hi] using h
      simpa [hi, Ne.symm hi] using ih hos

/-- Closing a scope leaves the number of frames of another one alone. -/
theorem ScopeStack.countP_leave_of_ne {s : ScopeStack} {i j : Identity} (h : j ≠ i) :
    (s.leave i).frames.countP (·.id == j) = s.frames.countP (·.id == j) := by
  show (s.frames.eraseP (·.id == i)).countP (·.id == j) = _
  induction s.frames with
  | nil => simp
  | cons o os ih =>
    by_cases hi : o.id = i
    · simp [hi, h.symm]
    · simp [hi, List.countP_cons, ih]

/-- Scopes that are on the stack once are taken off it. -/
theorem ScopeStack.frames_foldl_leave {es : Table String Identity} {s : ScopeStack}
    (hes : (es.map (·.2)).Nodup) (h : ∀ e ∈ es, s.frames.countP (·.id == e.2) = 1) :
    (es.foldl (fun s e => s.leave e.2) s).frames =
      s.frames.filter fun o => !es.any (·.2 == o.id) := by
  induction es generalizing s with
  | nil => simp
  | cons e es ih =>
    obtain ⟨hne, hes⟩ := List.nodup_cons.mp hes
    have hrest : ∀ e' ∈ es, (s.leave e.2).frames.countP (·.id == e'.2) = 1 := by
      intro e' he'
      have hne' : e'.2 ≠ e.2 := fun heq => hne (List.mem_map.mpr ⟨e', he', heq⟩)
      rw [countP_leave_of_ne hne']
      exact h e' (List.mem_cons_of_mem _ he')
    rw [List.foldl_cons, ih hes hrest, frames_leave (h e List.mem_cons_self), List.filter_filter]
    refine List.filter_congr fun o _ => ?_
    simp [Bool.and_comm]

def Machine.keepsOpen (m : Machine) (i : Identity) : Bool := m.locals.scopes.any (·.2 == i)

/-- Apart from the scopes that the registers keep open, each of them once, the open scopes are those
of `base`. -/
structure Machine.RestsOn (m : Machine) (base : List Owner) : Prop where
  names : (m.locals.scopes.map (·.1)).Nodup
  scopes : (m.locals.scopes.map (·.2)).Nodup
  once : ∀ i, m.keepsOpen i = true → m.stack.frames.countP (·.id == i) = 1
  rest : m.stack.frames.filter (fun o => !m.keepsOpen o.id) = base

/-- An identity is kept open where a register keeps its scope. -/
theorem Machine.keepsOpen_iff {m : Machine} {i : Identity} :
    m.keepsOpen i = true ↔ ∃ e ∈ m.locals.scopes, e.2 = i := by
  simp [keepsOpen]

/-- Closing a scope empties the register that keeps it. -/
theorem Machine.scopes_closeScope (m : Machine) (name : String) :
    (m.closeScope name).locals.scopes = m.locals.scopes.erase name := by
  rw [closeScope]
  split
  · rfl
  · next hname =>
    refine (List.filter_eq_self.mpr ?_).symm
    intro e he
    have hne : (name == e.1) = false := by simpa using List.lookup_eq_none_iff.mp hname e he
    rw [BEq.comm, hne, Bool.not_false]

/-- Closing a register leaves other scopes alone. -/
theorem Machine.countP_closeScope {m : Machine} {j : Identity} (h : m.keepsOpen j = false)
    (name : String) : (m.closeScope name).stack.frames.countP (·.id == j) =
      m.stack.frames.countP (·.id == j) := by
  rw [closeScope]
  split
  · next i hi =>
    have hne : j ≠ i := by
      rintro rfl
      exact absurd (keepsOpen_iff.mpr ⟨_, Table.mem_of_find? hi, rfl⟩) (by simp [h])
    exact ScopeStack.countP_leave_of_ne hne
  · rfl

namespace Machine.RestsOn

variable {m n : Machine} {base : List Owner} {o : Owner} {s : ScopeStack}

/-- Only the stack and the registers of scopes matter. -/
theorem congr (h : m.RestsOn base) (hs : n.stack.frames = m.stack.frames)
    (hl : n.locals.scopes = m.locals.scopes) : n.RestsOn base where
  names := by simpa [hl] using h.names
  scopes := by simpa [hl] using h.scopes
  once := by simpa [keepsOpen, hs, hl] using h.once
  rest := by simpa [keepsOpen, hs, hl] using h.rest

theorem fresh (h : m.RestsOn base) : RestsOn { m with supply := m.supply + 1 } base :=
  h.congr rfl rfl

/-- What another thread does leaves the scopes of this one alone. -/
theorem onThread (h : m.RestsOn base) :
    RestsOn { n with stack := m.stack, locals := m.locals } base := h.congr rfl rfl

/-- With empty registers a machine rests on its frames. -/
theorem ownLocals (m : Machine) : RestsOn { m with locals := .empty } m.stack.frames := by
  constructor <;> simp [keepsOpen, Locals.empty]

/-- What is part of the base is kept by no register. -/
theorem not_keepsOpen (h : m.RestsOn base) (ho : o ∈ base) : m.keepsOpen o.id = false := by
  rw [← h.rest] at ho
  simpa using (List.mem_filter.mp ho).2

/-- What is not open is kept by no register. -/
theorem not_keepsOpen_of_not_isOpen (h : m.RestsOn base) {i : Identity}
    (hi : m.stack.isOpen i = false) : m.keepsOpen i = false := by
  by_contra hk
  have hcount := h.once i (by simpa using hk)
  have hzero : m.stack.frames.countP (·.id == i) = 0 := by
    simpa [ScopeStack.isOpen, List.countP_eq_zero] using hi
  omega

/-- A scope that was opened is part of the base. -/
theorem enter (h : m.RestsOn base) (ho : m.stack.enter o = .ok s) :
    RestsOn { m with stack := s } (o :: base) := by
  obtain ⟨hclosed, -, rfl⟩ := ScopeStack.enter_eq_ok_iff.mp ho
  have hkept : m.keepsOpen o.id = false := h.not_keepsOpen_of_not_isOpen hclosed
  refine ⟨h.names, h.scopes, ?_, ?_⟩
  · intro i hi
    have hne : o.id ≠ i := by
      rintro rfl
      exact absurd (hkept.symm.trans hi) (by simp)
    simpa [hne] using h.once i hi
  · show (o :: m.stack.frames).filter (fun p => !m.keepsOpen p.id) = o :: base
    simp [hkept, h.rest]

/-- Closing it again leaves the rest of the base. -/
theorem leave (h : m.RestsOn (o :: base)) :
    RestsOn { m with stack := m.stack.leave o.id } base := by
  have hkept : m.keepsOpen o.id = false := h.not_keepsOpen List.mem_cons_self
  refine ⟨h.names, h.scopes, ?_, ?_⟩
  · intro i hi
    have hne : i ≠ o.id := by
      rintro rfl
      exact absurd (hkept.symm.trans hi) (by simp)
    exact (ScopeStack.countP_leave_of_ne hne).trans (h.once i hi)
  · have hp : (fun p : Owner => p.id == o.id && !m.keepsOpen p.id) = (·.id == o.id) := by
      funext p
      by_cases hid : p.id = o.id <;> simp [hid, hkept]
    calc (m.stack.frames.eraseP (·.id == o.id)).filter (fun p => !m.keepsOpen p.id)
        = (m.stack.frames.filter fun p => !m.keepsOpen p.id).eraseP (·.id == o.id) := by
          rw [List.eraseP_filter, hp]
      _ = (o :: base).eraseP (·.id == o.id) := by rw [h.rest]
      _ = base := by simp

/-- Without one register the scope that it kept is kept no more. -/
theorem keepsOpen_closeScope (h : m.RestsOn base) {name : String} {i : Identity}
    (hi : m.locals.scopes.find? name = some i) (j : Identity) :
    (m.closeScope name).keepsOpen j = (m.keepsOpen j && !(i == j)) := by
  have hmem := Table.mem_of_find? hi
  rw [Bool.eq_iff_iff, keepsOpen_iff, m.scopes_closeScope, Bool.and_eq_true, keepsOpen_iff]
  constructor
  · rintro ⟨e, he, rfl⟩
    obtain ⟨he, hname⟩ := List.mem_filter.mp he
    refine ⟨⟨e, he, rfl⟩, ?_⟩
    -- another register keeps another scope
    have hne : e.2 ≠ i := fun hei => by
      have := List.inj_on_of_nodup_map h.scopes he hmem hei
      simp [this] at hname
    simpa using hne.symm
  · rintro ⟨⟨e, he, rfl⟩, hne⟩
    refine ⟨e, List.mem_filter.mpr ⟨he, ?_⟩, rfl⟩
    have hname : e.1 ≠ name := fun hen => by
      have := List.inj_on_of_nodup_map h.names he hmem hen
      simp [this] at hne
    simpa using hname

/-- Closing a scope that a register keeps leaves the base alone. -/
theorem closeScope (h : m.RestsOn base) (name : String) : (m.closeScope name).RestsOn base := by
  cases hi : m.locals.scopes.find? name with
  | none =>
    have hm : m.closeScope name = m := by simp [Machine.closeScope, hi]
    rwa [hm]
  | some i =>
    have hkeeps := h.keepsOpen_closeScope hi
    have hkept : m.keepsOpen i = true := keepsOpen_iff.mpr ⟨_, Table.mem_of_find? hi, rfl⟩
    have hstack : (m.closeScope name).stack = m.stack.leave i := by simp [Machine.closeScope, hi]
    refine ⟨?_, ?_, ?_, ?_⟩
    · rw [m.scopes_closeScope]
      exact h.names.sublist (List.filter_sublist.map _)
    · rw [m.scopes_closeScope]
      exact h.scopes.sublist (List.filter_sublist.map _)
    · intro j hj
      rw [hkeeps, Bool.and_eq_true] at hj
      rw [hstack, ScopeStack.countP_leave_of_ne (Ne.symm (by simpa using hj.2))]
      exact h.once j hj.1
    · rw [hstack, ScopeStack.frames_leave (h.once i hkept), List.filter_filter, ← h.rest]
      refine List.filter_congr fun p _ => ?_
      rw [hkeeps]
      by_cases hp : p.id = i
      · simp [hp, hkept]
      · cases m.keepsOpen p.id <;> simp [Ne.symm hp]

/-- Keeping a scope of the base in a register takes it off the base. -/
theorem keep (h : m.RestsOn (o :: base)) (hone : m.stack.frames.countP (·.id == o.id) = 1)
    {name : String} (hname : m.locals.scopes.erase name = m.locals.scopes) :
    RestsOn { m with locals.scopes := m.locals.scopes.set name o.id } base := by
  have hscopes : m.locals.scopes.set name o.id = (name, o.id) :: m.locals.scopes := by
    rw [Table.set, hname]
  have hfresh : m.keepsOpen o.id = false := h.not_keepsOpen List.mem_cons_self
  have hbase : ∀ p ∈ base, p.id ≠ o.id := by
    have hrest : (o :: base).countP (·.id == o.id) ≤ 1 := by
      rw [← h.rest, ← hone]
      exact List.filter_sublist.countP_le
    simpa [List.countP_eq_zero] using hrest
  rw [hscopes]
  refine ⟨?_, ?_, ?_, ?_⟩
  · refine List.nodup_cons.mpr ⟨?_, h.names⟩
    rw [← hname]
    simp [Table.erase]
  · refine List.nodup_cons.mpr ⟨?_, h.scopes⟩
    intro hmem
    obtain ⟨e, he, hid⟩ := List.mem_map.mp hmem
    exact absurd (keepsOpen_iff.mpr ⟨e, he, hid⟩) (by simp [hfresh])
  · intro i hi
    by_cases hoi : i = o.id
    · exact hoi ▸ hone
    · exact h.once i (by simpa [keepsOpen, Ne.symm hoi] using hi)
  · calc m.stack.frames.filter (fun p => !(o.id == p.id || m.keepsOpen p.id))
        = (m.stack.frames.filter fun p => !m.keepsOpen p.id).filter (fun p => !(o.id == p.id)) := by
          simp [List.filter_filter]
      _ = (o :: base).filter (fun p => !(o.id == p.id)) := by rw [h.rest]
      _ = base.filter (fun p => !(o.id == p.id)) := by simp
      _ = base := List.filter_eq_self.mpr fun p hp => by simpa using (hbase p hp).symm

/-- Keeping a new scope in a register leaves the base alone. -/
theorem openScope (h : m.RestsOn base) {name : String} (hn : m.openScope name o = .ok n) :
    n.RestsOn base := by
  cases hs : m.stack.enter o with
  | error f => simp [Machine.openScope, hs, bind, Except.bind] at hn
  | ok s =>
    simp only [Machine.openScope, hs, bind, Except.bind, pure, Except.pure,
      Except.ok.injEq] at hn
    subst hn
    have hopened := h.enter hs
    obtain ⟨hclosed, -, rfl⟩ := ScopeStack.enter_eq_ok_iff.mp hs
    refine (hopened.closeScope name).keep ?_ ?_
    · rw [countP_closeScope (hopened.not_keepsOpen List.mem_cons_self)]
      have hzero : m.stack.frames.countP (·.id == o.id) = 0 := by
        simpa [ScopeStack.isOpen, List.countP_eq_zero] using hclosed
      simp [hzero]
    · rw [Machine.scopes_closeScope]
      simp [Table.erase, List.filter_filter]

/-- A change of the machine leaves the base alone. -/
theorem after (h : m.RestsOn base) (c : Change) : (m.after c).RestsOn base := by
  cases c with
  | closeScope name => exact h.closeScope name
  | _ => exact h.congr rfl rfl

/-- When a part with registers of its own ends, the frames are those on which it rests. -/
theorem frames_dropLocals (h : n.RestsOn base) : (Eval.dropLocals m n).stack.frames = base := by
  rw [← h.rest]
  exact ScopeStack.frames_foldl_leave h.scopes fun e he => h.once _ (keepsOpen_iff.mpr ⟨e, he, rfl⟩)

/-- So the part leaves the machine as it was. -/
theorem dropLocals (h : m.RestsOn base) (hn : n.RestsOn m.stack.frames) :
    (Eval.dropLocals m n).RestsOn base := h.congr hn.frames_dropLocals rfl

end Machine.RestsOn

section Runs

variable {α : Type} {m n : Machine} {base : List Owner}

/-- A run leaves the base alone when answering its questions does. -/
theorem Eval.run_restsOn_of {answers : Answerer}
    (ha : ∀ q m r base, m.RestsOn base → answers q m = some r → r.2.RestsOn base) (x : Eval α)
    {r : α × Machine} (hm : m.RestsOn base) (hr : x.run answers m = some r) :
    r.2.RestsOn base := by
  induction x generalizing m base with
  | done a =>
    obtain rfl := Option.some.inj hr
    exact hm
  | ask q next ih =>
    obtain ⟨r₁, h₁, hr⟩ := Option.bind_eq_some_iff.mp hr
    exact ih _ (ha _ _ _ _ hm h₁) hr
  | look next ih => exact ih _ hm hr
  | fresh next ih => exact ih _ hm.fresh hr
  | change c next ih => exact ih (hm.after c) hr
  | openScope name o next ih =>
    simp only [run] at hr
    split at hr
    · exact ih _ hm hr
    · next hn => exact ih _ (hm.openScope hn) hr
  | inScope o body next ihb ih =>
    simp only [run] at hr
    split at hr
    · exact ih _ hm hr
    · next hs =>
      obtain ⟨r₁, h₁, hr⟩ := Option.bind_eq_some_iff.mp hr
      exact ih _ (ihb (hm.enter hs) h₁).leave hr
  | onThread body next _ ih =>
    obtain ⟨r₁, -, hr⟩ := Option.bind_eq_some_iff.mp hr
    exact ih _ hm.onThread hr
  | withOwnLocals body next ihb ih =>
    obtain ⟨r₁, h₁, hr⟩ := Option.bind_eq_some_iff.mp hr
    have hbody := ihb (.ownLocals m) h₁
    exact ih _ (hm.dropLocals hbody) hr

/-- No question changes which scopes are open outside of the registers. -/
theorem answer_restsOn {fuel : Nat} {q : Query} {r : q.Answer × Machine} (hm : m.RestsOn base)
    (hr : answer fuel q m = some r) : r.2.RestsOn base := by
  induction fuel generalizing q m base with
  | zero => exact absurd hr (by simp)
  | succ fuel ih => exact Eval.run_restsOn_of (fun _ _ _ _ => ih) _ hm hr

end Runs

/-! ### Balanced evaluations -/

/-- The same scopes are open, and the same registers keep scopes. -/
structure Machine.SameScopes (m n : Machine) : Prop where
  frames : n.stack.frames = m.stack.frames
  scopes : n.locals.scopes = m.locals.scopes

namespace Machine.SameScopes

variable {m n k : Machine}

theorem trans (h : m.SameScopes n) (h' : n.SameScopes k) : m.SameScopes k :=
  ⟨h'.frames.trans h.frames, h'.scopes.trans h.scopes⟩

theorem fresh : m.SameScopes { m with supply := m.supply + 1 } := ⟨rfl, rfl⟩

theorem onThread : m.SameScopes { n with stack := m.stack, locals := m.locals } := ⟨rfl, rfl⟩

/-- A change that closes no scope. -/
theorem after {c : Change} (hc : ∀ name, c ≠ .closeScope name) : m.SameScopes (m.after c) := by
  cases c with
  | closeScope name => exact absurd rfl (hc name)
  | _ => exact ⟨rfl, rfl⟩

/-- The scope of a part is closed at its end. -/
theorem leave {o : Owner} {s : ScopeStack} (hs : m.stack.enter o = .ok s)
    (h : SameScopes { m with stack := s } n) :
    m.SameScopes { n with stack := n.stack.leave o.id } := by
  obtain ⟨-, -, rfl⟩ := ScopeStack.enter_eq_ok_iff.mp hs
  refine ⟨?_, h.scopes⟩
  show n.stack.frames.eraseP (·.id == o.id) = m.stack.frames
  rw [h.frames]
  simp

/-- A part with registers of its own may keep scopes open only until its end. -/
theorem dropLocals (h : n.RestsOn m.stack.frames) : m.SameScopes (Eval.dropLocals m n) :=
  ⟨h.frames_dropLocals, rfl⟩

end Machine.SameScopes

namespace Eval

/-- The evaluation opens scopes only for its parts, and steps of a session have registers of their
own. -/
def Balanced : {α : Type} → Eval α → Prop
  | _, .done _ => True
  | _, .ask q next => q.Routine ∧ ∀ a, (next a).Balanced
  | _, .look next => ∀ m, (next m).Balanced
  | _, .fresh next => ∀ i, (next i).Balanced
  | _, .change c next => (∀ name, c ≠ .closeScope name) ∧ next.Balanced
  | _, .openScope _ _ _ => False
  | _, .inScope _ body next => body.Balanced ∧ ∀ r, (next r).Balanced
  | _, .onThread _ next | _, .withOwnLocals _ next => ∀ b, (next b).Balanced

namespace Balanced

variable {α β : Type} {m : Machine}

theorem bind {x : Eval α} {f : α → Eval β} (hx : x.Balanced) (hf : ∀ a, (f a).Balanced) :
    (x >>= f).Balanced := by
  induction x with
  | done a => exact hf a
  | ask q next ih => exact ⟨hx.1, fun a => ih a (hx.2 a) hf⟩
  | look next ih => exact fun m => ih m (hx m) hf
  | fresh next ih => exact fun i => ih i (hx i) hf
  | change c next ih => exact ⟨hx.1, ih hx.2 hf⟩
  | openScope name o next ih => exact hx.elim
  | inScope o body next _ ih => exact ⟨hx.1, fun r => ih r (hx.2 r) hf⟩
  | onThread body next _ ih | withOwnLocals body next _ ih => exact fun b => ih b (hx b) hf

/-- Properties may be changed. -/
theorem updateProperty (i : Identity) (f : Property → Property) :
    (ProviderGraph.updateProperty i f).Balanced := fun _ => ⟨nofun, trivial⟩

/-- Setting a provider opens no scope. -/
theorem setProvider (r : PropertyRef) (q : Provider) :
    (ProviderGraph.setProvider r q).run.Balanced := by
  rw [ProviderGraph.setProvider, changeProperty, ExceptT.run_bind]
  refine bind (fun _ => trivial) fun s => ?_
  cases s with
  | error => trivial
  | ok s =>
    dsimp only
    split
    · refine ⟨fun _ h => ?_, trivial⟩
      cases h
    · trivial

/-- What is put together from balanced parts is balanced. -/
theorem parts : Compositional @Balanced where
  pure _ := trivial
  bind := bind
  ask _ hq := ⟨hq, fun _ => trivial⟩
  machine _ := trivial
  identity _ := trivial
  bump _ := ⟨nofun, trivial⟩
  note _ := ⟨nofun, trivial⟩
  inScope hr hb := by
    refine ⟨hb, fun r => ?_⟩
    cases r with
    | ok a => exact trivial
    | error f => exact hr f
  elsewhere _ _ := trivial
  apart _ _ := trivial
  setProvider := setProvider

/-- The rule of a question is balanced, unless the question is a step of a session. -/
theorem rule {q : Query} (hq : q.Routine) : (ProviderGraph.rule q).Balanced := by
  cases q with
  | finalize r =>
    refine parts.bindExcept (parts.lift (parts.property r.id)) fun s => ?_
    split
    · exact trivial
    · refine parts.bindExcept (parts.computeFrozen r s.effective) fun frozen => ?_
      exact parts.lift (updateProperty r.id _)
  | _ => exact parts.rule hq nofun

/-- A balanced run ends on the scopes that it started on, when its questions are answered so. -/
theorem run_sameScopes {answers : Answerer} {x : Eval α} (hx : x.Balanced)
    (ha : ∀ q m r, q.Routine → answers q m = some r → m.SameScopes r.2)
    (hrest : ∀ q m r base, m.RestsOn base → answers q m = some r → r.2.RestsOn base)
    {r : α × Machine} (hr : x.run answers m = some r) : m.SameScopes r.2 := by
  induction x generalizing m with
  | done a =>
    obtain rfl := Option.some.inj hr
    exact ⟨rfl, rfl⟩
  | ask q next ih =>
    obtain ⟨r₁, h₁, hr⟩ := Option.bind_eq_some_iff.mp hr
    exact (ha _ _ _ hx.1 h₁).trans (ih _ (hx.2 _) hr)
  | look next ih => exact ih _ (hx m) hr
  | fresh next ih => exact .trans .fresh (ih _ (hx _) hr)
  | change c next ih => exact .trans (.after hx.1) (ih hx.2 hr)
  | openScope name o next ih => exact hx.elim
  | inScope o body next ihb ih =>
    simp only [run] at hr
    split at hr
    · exact ih _ (hx.2 _) hr
    · next s hs =>
      obtain ⟨r₁, h₁, hr⟩ := Option.bind_eq_some_iff.mp hr
      exact .trans (.leave hs (ihb hx.1 h₁)) (ih _ (hx.2 _) hr)
  | onThread body next _ ih =>
    obtain ⟨r₁, -, hr⟩ := Option.bind_eq_some_iff.mp hr
    exact .trans .onThread (ih _ (hx _) hr)
  | withOwnLocals body next _ ih =>
    obtain ⟨r₁, h₁, hr⟩ := Option.bind_eq_some_iff.mp hr
    exact .trans (.dropLocals (run_restsOn_of hrest body (.ownLocals m) h₁)) (ih _ (hx _) hr)

end Balanced

end Eval

/-- A question other than a step leaves the scopes as they are. -/
theorem answer_sameScopes {fuel : Nat} {q : Query} {m : Machine} {r : q.Answer × Machine}
    (hq : q.Routine) (hr : answer fuel q m = some r) : m.SameScopes r.2 := by
  induction fuel generalizing q m with
  | zero => exact absurd hr (by simp)
  | succ fuel ih =>
    exact (Eval.Balanced.rule hq).run_sameScopes (fun _ _ _ hq => ih hq)
      (fun _ _ _ _ => answer_restsOn) hr

/-- A balanced run of the engine ends on the scopes that it started on. -/
theorem Eval.Balanced.run_engine {α : Type} {x : Eval α} (hx : x.Balanced) {m : Machine}
    {r : α × Machine} (hr : x.run engine m = some r) : m.SameScopes r.2 := by
  obtain ⟨fuel, hr⟩ := Eval.exists_fuel x hr
  exact hx.run_sameScopes (fun _ _ _ => answer_sameScopes) (fun _ _ _ _ => answer_restsOn) hr

/-! ### Queries -/

/-- What can be asked of a provider and of a property, also from the scope of an owner. -/
inductive Eval.Consults : {α : Type} → Eval α → Prop where
  | value (p : Provider) (c : Reading) : Consults (Ask.value p c).run
  | ownValue (p : Provider) (c : Reading) : Consults (Ask.ownValue p c).run
  | presence (p : Provider) (c : Reading) : Consults (Ask.presence p c).run
  | producer (p : Provider) : Consults (Ask.producer p).run
  | classification (p : Provider) : Consults (Ask.classification p).run
  | finalize (r : PropertyRef) : Consults (Ask.finalize r).run
  | get (p : Provider) : Consults (Ask.get p).run
  | get? (p : Provider) : Consults (Ask.get? p).run
  | isPresent (p : Provider) : Consults (Ask.isPresent p).run
  | text (p : Provider) : Consults (Ask.text p)
  | propertyText (r : PropertyRef) : Consults (Ask.propertyText r)
  | within {α : Type} (o : Owner) {x : Attempt α} (hx : Consults x.run) :
    Consults (ProviderGraph.within o x).run

/-- What can be asked of providers and properties opens no scope for good. -/
theorem Eval.Consults.balanced {α : Type} {x : Eval α} (hx : x.Consults) : x.Balanced := by
  induction hx with
  | value p c => exact Balanced.parts.value p c
  | get p => exact Balanced.parts.get p
  | get? p => exact Balanced.parts.get? p
  | within o _ ih => exact Balanced.parts.within ih
  | _ => exact Balanced.parts.ask _ trivial

/-- However a query of any provider ends, with a value or with a fault, and whatever user code runs
meanwhile, the frames of the stack are those that were there at the start. -/
theorem frames_of_consults {α : Type} {x : Eval α} (hx : x.Consults) {m n : Machine} {a : α}
    (h : x.run engine m = some (a, n)) : n.stack.frames = m.stack.frames :=
  (hx.balanced.run_engine h).frames

/-- A leaf with a name. Its call keeps a scope open and then counts the scopes. -/
def openingLeaf : Provider :=
  .named 1 (.changing 2 .int none
    ⟨3, fun _ => .andThen (.perform (.iterate 1 [.scope (.enter "o" "s"), .scope .depth])) .depth,
      none⟩) "leaf"

/-- One scope is open and in no register. -/
def openingMachine : Machine :=
  { Machine.fresh 8 with
    stack := ⟨[⟨0, "outer"⟩], 8⟩
    ownerRegisters := [("o", ⟨4, "o"⟩)]
    supply := 5 }

/-- The call of the leaf finds its own scope closed when the step that opened it has ended, and the
query ends with the one scope that was open at the start. -/
theorem frames_of_consults_openingLeaf :
    ∃ n, (Ask.get openingLeaf).run.run engine openingMachine = some (.ok (.int 2), n) ∧
      n.events = [.reply (.replies [.done, .depth 3])] ∧ n.stack.frames = [⟨0, "outer"⟩] := by
  have hrun : ∃ n, (Ask.get openingLeaf).run.run engine openingMachine = some (.ok (.int 2), n) ∧
      n.events = [.reply (.replies [.done, .depth 3])] :=
    ⟨_, Eval.run_engine_of_answer 12 rfl, rfl⟩
  obtain ⟨n, hn, hevents⟩ := hrun
  exact ⟨n, hn, hevents, frames_of_consults (.get openingLeaf) hn⟩

end ProviderGraph
