import ProviderGraph.Proofs.Graph.Twins

/-!
# What is decided ahead of execution

Classifying a provider calls none of its leaves: twins are classified alike, and no call is counted
on either side. A classification that decides, fixed or missing, is what a lenient reading finds,
whatever the leaves do.
-/

namespace ProviderGraph

variable {R : Region} {m m' : Machine} {s : ScopeStack}

open Eval (SideBySide)

/-! ### Building -/

/-- Twin recipes build twins. -/
theorem Recipe.Twin.build (hm : m.Twin R m') {r r' : Recipe} (h : r.Twin R r')
    (held : Option Payload) :
    SideBySide m m' s (Ask.build r held).run (Ask.build r' held).run
      (SameResult (Option.Rel (Provider.Twin R))) := by
  refine .ask ?_
  -- the parts that a recipe builds first, each followed by one new identity
  have part {r r' : Recipe} {f f' : Provider → UserCode Provider}
      (hr : SideBySide m m' s (rule (.build r held)) (rule (.build r' held))
        (SameResult (Option.Rel (Provider.Twin R))))
      (hf : ∀ p p', p.Twin R p' →
        SideBySide m m' s (f p).run (f' p').run (SameResult (Provider.Twin R))) :
      SideBySide m m' s (withPart r held f).run (withPart r' held f').run
        (SameResult (Option.Rel (Provider.Twin R))) := by
    refine .andThen (.ask hr) fun p p' hp => ?_
    cases hp with
    | none => exact .pure (.ok .none)
    | some hp => exact .andThen (hf _ _ hp) fun q q' hq => .pure (.ok (.some hq))
  induction h with
  | register h =>
    exact .andThen (.lookup (fun _ _ => rfl) (hm.providers _ h)) fun p p' hp =>
      .pure (.ok (.some hp))
  | fixed x => exact fun k => ⟨_, _, 1, rfl, rfl, .ok (.some (.fixed k x))⟩
  | undefined type => exact fun k => ⟨_, _, 1, rfl, rfl, .ok (.some (.undefined k type []))⟩
  | changing type hl =>
    exact fun k => ⟨_, _, 2, rfl, rfl, .ok (.some (.changing k type none hl))⟩
  | produced type node hl =>
    refine .andThen (.of_except _) fun name _ hname => ?_
    subst hname
    exact fun k => ⟨_, _, 2, rfl, rfl, .ok (.some (.changing k type (some name) hl))⟩
  | property h =>
    refine .andThen (.lookup (fun _ _ => rfl) (hm.properties _ h)) fun p p' hp => ?_
    obtain ⟨rfl, hr⟩ := hp
    exact .pure (.ok (.some (.property hr)))
  | map type _ hf ih =>
    refine part ih fun p p' hp => ?_
    exact fun k => ⟨_, _, 1, rfl, rfl, .ok (.map k type hp hf)⟩
  | flatMap type _ hc ih _ =>
    refine part ih fun p p' hp => ?_
    exact fun k => ⟨_, _, 1, rfl, rfl, .ok (.flatMap k type hp hc)⟩
  | orElse _ _ ihl ihr =>
    refine .andThen (.ask ihl) fun l l' hl => ?_
    cases hl with
    | none => exact .pure (.ok .none)
    | some hl =>
      refine part ihr fun p p' hp => ?_
      exact fun k => ⟨_, _, 1, rfl, rfl, .ok (.orElse k hl hp)⟩
  | withEffect e _ ih =>
    refine part ih fun p p' hp => ?_
    exact fun k => ⟨_, _, 1, rfl, rfl, .ok (.withEffect k e hp)⟩
  | named name _ ih =>
    refine part ih fun p p' hp => ?_
    exact fun k => ⟨_, _, 1, rfl, rfl, .ok (.named k name hp)⟩
  | result ha =>
    refine .andThen (.of_except _) fun x _ hx => ?_
    subst hx
    refine .andThen (.sameResult (.action ha held x)) fun y _ hy => ?_
    subst hy
    cases y with
    | none => exact .pure (.ok .none)
    | some y => exact fun k => ⟨_, _, 1, rfl, rfl, .ok (.some (.fixed k y))⟩
  | after ha _ ih =>
    refine .andThen (.of_except _) fun x _ hx => ?_
    subst hx
    refine .andThen (.sameResult (.action ha held x)) fun y _ hy => ?_
    subst hy
    cases y with
    | none => exact .pure (.ok .none)
    | some y => exact .ask ih
  | dispatch _ ih =>
    refine .andThen (.of_except _) fun x _ hx => ?_
    subst hx
    exact .ask (ih x)

/-! ### Texts -/

/-- Twins have one text. -/
theorem Provider.Twin.text (hm : m.Twin R m') {p p' : Provider} (h : p.Twin R p')
    (label : String) :
    SideBySide m m' s (.ask (.text p label) pure) (.ask (.text p' label) pure)
      (fun a a' => a = a') := by
  generalize hr : s.room = r
  induction r using Nat.strongRecOn generalizing p p' s label with
  | ind r ih =>
    have inside {t : ScopeStack} {o : Owner} (ht : s.enter o = .ok t) {q q' : Provider}
        (hq : q.Twin R q') : SideBySide m m' t (Ask.text q) (Ask.text q') (fun a a' => a = a') := by
      rw [Ask.text, Ask.text, hq.kind_eq]
      exact ih _ (hr ▸ ScopeStack.room_lt_of_enter ht) hq _ rfl
    refine .ask ?_
    cases h with
    | fixed | undefined | changing | named =>
      exact .within (fun _ => .pure rfl) fun t ht => .pure rfl
    | map i type h _ | flatMap i type h _ =>
      refine .within (fun _ => .pure rfl) fun t ht => .bind (inside ht h) fun a _ ha => ?_
      subst ha
      exact .pure rfl
    | orElse i hl hr =>
      refine .within (fun _ => .pure rfl) fun t ht => .bind (inside ht hl) fun a _ ha => ?_
      subst ha
      refine .bind (inside ht hr) fun b _ hb => ?_
      subst hb
      exact .pure rfl
    | withEffect i e h => exact .within (fun _ => .pure rfl) fun t ht => inside ht h
    | @property r h =>
      refine .within (fun _ => .pure rfl) fun t ht => ?_
      simp only [describe]
      cases r.name with
      | some name => exact .pure rfl
      | none =>
        refine .bind (.property r.id) fun a a' ha => ?_
        obtain ⟨rfl, rfl⟩ := ha
        have heff := hm.effective r.id h
        generalize (m.property r.id).effective = q, (m'.property r.id).effective = q' at heff
        cases heff with
        | none => exact .pure rfl
        | some hq =>
          refine .bind (inside ht hq) fun a _ ha => ?_
          subst ha
          exact .pure rfl

/-! ### Classifications -/

/-- A fault of user code is told alike of twins. -/
theorem Eval.SideBySide.settle {α α' : Type} {P : α → α' → Prop} {culprit culprit' : Eval String}
    (hc : SideBySide m m' s culprit culprit' (fun a a' => a = a')) {r : Except Failure α}
    {r' : Except Failure α'} (hr : SameResult P r r') :
    SideBySide m m' s (ProviderGraph.settle culprit r).run
      (ProviderGraph.settle culprit' r').run (SameResult P) := by
  cases hr with
  | ok h => exact .pure (.ok h)
  | error e =>
    cases e with
    | fault f => exact .pure (.error f)
    | rejected message =>
      refine .liftThen hc fun a _ ha => ?_
      subst ha
      exact .pure (.error _)

/-- Twins are blamed alike. -/
theorem Provider.Twin.culprit (hm : m.Twin R m') {p p' : Provider} (h : p.Twin R p') :
    SideBySide m m' s (Ask.text p) (Ask.text p') (fun a a' => a = a') := by
  rw [Ask.text, Ask.text, ← h.kind_eq]
  exact h.text hm _

/-- Twins transform a payload alike. -/
theorem Provider.Twin.applyTransform (hm : m.Twin R m') {p p' : Provider} (h : p.Twin R p')
    {f : Closure} (hf : f.code.Pure) (x : Payload) :
    SideBySide m m' s (ProviderGraph.applyTransform p f x).run
      (ProviderGraph.applyTransform p' f x).run (SameResult fun y y' => y = y') := by
  refine .andThen (P := fun r r' => r = r') ?_ fun r r' hr => ?_
  · rw [h.owner_eq]
    exact .withinScope fun t ht => .bind (.action hf f.held x) fun r r' hr => .pure (.ok hr)
  · subst hr
    exact (h.culprit hm).settle .rfl

/-- Twins choose twins. -/
theorem Provider.Twin.chooseNext (hm : m.Twin R m') {p p' : Provider} (h : p.Twin R p')
    {choice choice' : Recipe} (hc : choice.Twin R choice') (type : PayloadType) (v : Outcome) :
    SideBySide m m' s (ProviderGraph.chooseNext p choice type v).run
      (ProviderGraph.chooseNext p' choice' type v).run (SameResult (Provider.Twin R)) := by
  refine .andThen (P := SameResult (Option.Rel (Provider.Twin R))) ?_ fun r r' hr => ?_
  · rw [h.owner_eq]
    refine .withinScope fun t ht => .bind (P := SameResult (Option.Rel (Provider.Twin R))) ?_
      fun r r' hr => .pure (.ok hr)
    cases v with
    | present x e => exact hc.build hm (some x)
    | missing path => exact .pure (.ok .none)
  · refine .andThen ((h.culprit hm).settle hr) fun q q' hq => ?_
    cases hq with
    | none =>
      exact fun k => ⟨_, _, 1, rfl, rfl, .ok (.undefined k type [])⟩
    | some hq =>
      cases v.boundEffect with
      | none => exact .pure (.ok hq)
      | some e => exact fun k => ⟨_, _, 1, rfl, rfl, .ok (.withEffect k e hq)⟩

namespace Classification.Twin

variable {c c' d d' : Classification}

/-- Twin classifications are both fixed or both not. -/
theorem isFixed_eq (h : c.Twin R c') : c.isFixed = c'.isFixed := by
  cases h <;> rfl

/-- Twin classifications are both missing or both not. -/
theorem isMissing_eq (h : c.Twin R c') : c.isMissing = c'.isMissing := by
  cases h <;> rfl

/-- Twin classifications are still twins with an effect. -/
theorem addEffect (h : c.Twin R c') (e : Effect) :
    SideBySide m m' s (c.addEffect e) (c'.addEffect e) (Classification.Twin R) := by
  cases h with
  | fixed x old => exact .pure (.fixed x _)
  | missing path => exact .pure (.missing path)
  | changing h => exact fun k => ⟨_, _, 1, rfl, rfl, .changing (.withEffect k e h)⟩

/-- Twin classifications are still twins under a name. -/
theorem addName (h : c.Twin R c') (name : String) :
    SideBySide m m' s (c.addName name) (c'.addName name) (Classification.Twin R) := by
  cases h with
  | fixed x e => exact .pure (.fixed x e)
  | missing path => exact .pure (.missing (name :: path))
  | changing h => exact fun k => ⟨_, _, 1, rfl, rfl, .changing (.named k name h)⟩

/-- Twin classifications are turned into twins. -/
theorem toProvider (h : c.Twin R c') (type : PayloadType) :
    SideBySide m m' s (c.toProvider type) (c'.toProvider type) (Provider.Twin R) := by
  cases h with
  | changing h => exact .pure h
  | missing path => exact fun k => ⟨_, _, 1, rfl, rfl, .undefined k type path⟩
  | fixed x e =>
    cases e with
    | none => exact fun k => ⟨_, _, 1, rfl, rfl, .fixed k x⟩
    | some e => exact fun k => ⟨_, _, 2, rfl, rfl, .withEffect (k + 1) e (.fixed k x)⟩

end Classification.Twin

/-- Twins are classified alike. -/
theorem Provider.Twin.classification (hm : m.Twin R m') {p p' : Provider} (h : p.Twin R p') :
    SideBySide m m' s (Ask.classification p).run (Ask.classification p').run
      (SameResult (Classification.Twin R)) := by
  generalize hr : s.room = r
  induction r using Nat.strongRecOn generalizing p p' s with
  | ind r ih =>
    have inside {o : Owner} {q q' : Provider} (hq : q.Twin R q') :
        SideBySide m m' s (within o (Ask.classification q)).run
          (within o (Ask.classification q')).run (SameResult (Classification.Twin R)) :=
      .withinScope fun t ht => ih _ (hr ▸ ScopeStack.room_lt_of_enter ht) hq rfl
    refine .ask ?_
    have htwin := h
    cases h with
    | fixed i x => exact .pure (.ok (.fixed x none))
    | undefined i type path => exact .pure (.ok (.missing path))
    | changing i type node hl =>
      exact fun k => ⟨_, _, 1, rfl, rfl, .ok (.changing (.changing k type node hl))⟩
    | map i type h hf =>
      refine .andThen (inside h) fun c c' hc => ?_
      cases hc with
      | missing path => exact .pure (.ok (.missing path))
      | fixed x e =>
        refine .andThen (htwin.applyTransform hm hf x) fun y _ hy => ?_
        subst hy
        cases y with
        | some y => exact .pure (.ok (.fixed y _))
        | none => exact .pure (.ok (.missing []))
      | changing hq =>
        exact fun k => ⟨_, _, 1, rfl, rfl, .ok (.changing (.map k type hq hf))⟩
    | flatMap i type h hc =>
      refine .andThen (inside h) fun c c' hcc => ?_
      cases hcc with
      | missing path => exact .pure (.ok (.missing path))
      | changing hq =>
        exact fun k => ⟨_, _, 1, rfl, rfl, .ok (.changing (.flatMap k type hq hc))⟩
      | fixed x e =>
        exact .andThen (htwin.chooseNext hm hc type (.present x e)) fun q q' hq => inside hq
    | orElse i hl hr =>
      refine .andThen (inside hl) fun c c' hc => ?_
      rw [← hc.isFixed_eq]
      split
      · exact .pure (.ok hc)
      · refine .andThen (inside hr) fun d d' hd => ?_
        rw [← hc.isMissing_eq, ← hd.isMissing_eq]
        split
        · exact .pure (.ok hd)
        · split
          · exact .pure (.ok hc)
          · rw [hl.type_eq, hr.type_eq]
            refine .liftThen (hc.toProvider _) fun p p' hp => ?_
            refine .liftThen (hd.toProvider _) fun q q' hq => ?_
            exact fun k => ⟨_, _, 1, rfl, rfl, .ok (.changing (.orElse k hp hq))⟩
    | withEffect i e h =>
      exact .andThen (inside h) fun c c' hc =>
        (hc.addEffect e).bind fun d d' hd => .pure (.ok hd)
    | named i name h =>
      exact .andThen (inside h) fun c c' hc =>
        (hc.addName name).bind fun d d' hd => .pure (.ok hd)
    | @property r h =>
      refine .liftThen (.property r.id) fun a a' ha => ?_
      obtain ⟨rfl, rfl⟩ := ha
      have heff := hm.effective r.id h
      generalize (m.property r.id).effective = q, (m'.property r.id).effective = q' at heff
      cases heff with
      | none => exact .pure (.ok (.missing []))
      | some hq => exact inside hq

/-! ### Readings -/

/-- What a reading gives where the classification decides. -/
inductive Classification.Settles : Classification → Outcome → Prop where
  | fixed (x : Payload) (e : Option Effect) : Settles (.fixed x e) (.present x e)
  | missing (path path' : List String) : Settles (.missing path) (.missing path')

/-- Where the classification decides, the reading takes the same course and gives what was
decided. -/
def Attempt.Decides (m : Machine) (s : ScopeStack) (x : Attempt Classification)
    (y : Attempt Outcome) : Prop :=
  ∀ k c n, x.run.run engine (m.moment s k) = some (.ok c, n) → c.isChanging = false →
    ∃ v, c.Settles v ∧ y.run.run engine (m.moment s k) = some (.ok v, n)

namespace Attempt.Decides

variable {x : Attempt Classification} {y : Attempt Outcome}

theorem pure {c : Classification} {v : Outcome} (h : c.Settles v) :
    Decides m' s (Pure.pure c) (Pure.pure v) := by
  intro k d n hrun _
  cases hrun
  exact ⟨v, h, rfl⟩

/-- Nothing is decided where the classification is changing. -/
theorem of_changing (h : ∀ k c n, x.run.run engine (m'.moment s k) = some (.ok c, n) →
    c.isChanging = true) : Decides m' s x y := by
  intro k c n hrun hc
  rw [h k c n hrun] at hc
  cases hc

/-- The rule of a classification and that of a reading. -/
theorem ask {p : Provider} (h : Decides m' s (evalClassification p) (evalValue p .lenient)) :
    Decides m' s (Ask.classification p) (Ask.ownValue p .lenient) := by
  intro k c n hrun hc
  obtain ⟨v, hv, hrun'⟩ := h k c n ((Ask.run_rule _ _).symm.trans hrun) hc
  exact ⟨v, hv, (Ask.run_rule _ _).trans hrun'⟩

/-- A declared name only lengthens a missing path. -/
theorem push (h : Decides m' s x y) (name : Option String) :
    Decides m' s x (do return (← y).push name) := by
  intro k c n hrun hc
  obtain ⟨v, hv, hrun'⟩ := h k c n hrun hc
  refine ⟨v.push name, ?_, Eval.run_bind_ok hrun' _⟩
  cases hv with
  | fixed x e => exact .fixed x e
  | missing path path' => exact .missing path _

theorem within {o : Owner} (h : ∀ t, s.enter o = .ok t → Decides m' t x y) :
    Decides m' s (within o x) (within o y) := by
  intro k c n hrun hc
  cases ht : s.enter o with
  | error f => cases (Eval.run_within_error ht rfl).symm.trans hrun
  | ok t =>
    have hs : (m'.moment s k).stack.enter o = .ok t := ht
    replace hrun := (Eval.run_within_eq hs).symm.trans hrun
    obtain ⟨⟨r, n'⟩, hx, hrun⟩ := Option.map_eq_some_iff.mp hrun
    cases hrun
    obtain ⟨v, hv, hy⟩ := h t ht k c n' hx hc
    exact ⟨v, hv, (Eval.run_within_eq hs).trans (Option.map_eq_some_iff.mpr ⟨_, hy, rfl⟩)⟩

/-- Both do the same first. -/
theorem after {α α' : Type} {P : α → α' → Prop} {z : Attempt α} {z' : Attempt α'}
    {f : α' → Attempt Classification} {g : α' → Attempt Outcome}
    (hz : SideBySide m m' s z.run z'.run (SameResult P))
    (h : ∀ a a', P a a' → Decides m' s (f a') (g a')) : Decides m' s (z' >>= f) (z' >>= g) := by
  intro k c n hrun hc
  obtain ⟨a', n', hz', hf⟩ := Eval.run_bindExcept_ok hrun
  obtain ⟨a, j, hP, rfl⟩ := hz.ends hz'
  obtain ⟨v, hv, hg⟩ := h a a' hP (k + j) c n hf hc
  exact ⟨v, hv, (Eval.run_bind_ok hz' g).trans hg⟩

/-- The parts are decided first. What is made of a changing part has to be changing. -/
theorem bind {z : Attempt Classification} {P : Classification → Classification → Prop}
    {f : Classification → Attempt Classification} {g : Outcome → Attempt Outcome}
    (hz : SideBySide m m' s z.run x.run (SameResult P)) (hx : Decides m' s x y)
    (hchanging : ∀ q k d n, (f (.changing q)).run.run engine (m'.moment s k) = some (.ok d, n) →
      d.isChanging = true)
    (hf : ∀ c v, c.Settles v → Decides m' s (f c) (g v)) :
    Decides m' s (x >>= f) (y >>= g) := by
  intro k d n hrun hd
  obtain ⟨c, n', hc, hfc⟩ := Eval.run_bindExcept_ok hrun
  obtain ⟨-, j, -, rfl⟩ := hz.ends hc
  cases hch : c.isChanging with
  | false =>
    obtain ⟨v, hv, hy⟩ := hx k c _ hc hch
    obtain ⟨w, hw, hg⟩ := hf c v hv (k + j) d n hfc hd
    exact ⟨w, hw, (Eval.run_bind_ok hy g).trans hg⟩
  | true =>
    cases c with
    | changing q =>
      rw [hchanging q (k + j) d n hfc] at hd
      cases hd
    | fixed => cases hch
    | missing => cases hch

end Attempt.Decides

section Parts

variable (hm : m.Twin R m')
  (inside : ∀ {o : Owner} {q q' : Provider}, q.Twin R q' →
    (within o (Ask.classification q')).Decides m' s (within o (Ask.value q' .lenient)))

include hm inside

/-- The sides of a fallback decide in turn, and behind a changing side nothing is decided. -/
theorem Provider.Twin.decides_orElse {i : Identity} {l l' r r' : Provider} (hl : l.Twin R l')
    (hr : r.Twin R r') :
    (evalClassification (.orElse i l' r')).Decides m' s (evalValue (.orElse i l' r') .lenient) := by
  have side {o : Owner} {q q' : Provider} (hq : q.Twin R q') :
      SideBySide m m' s (within o (Ask.classification q)).run
        (within o (Ask.classification q')).run (SameResult (Classification.Twin R)) :=
    .withinScope fun t _ => hq.classification hm
  refine .bind (side hl) (inside hl) (fun q k d n hrun => ?_) fun c v hv => ?_
  · obtain ⟨r, n', -, hrun⟩ := Eval.run_bindExcept_ok hrun
    cases r with
    | missing path =>
      cases hrun
      rfl
    | fixed x e =>
      obtain ⟨_, _, -, hrun⟩ := Eval.run_bindExcept_ok hrun
      obtain ⟨_, _, -, hrun⟩ := Eval.run_bindExcept_ok hrun
      cases hrun
      rfl
    | changing q' =>
      cases hrun
      rfl
  · cases hv with
    | fixed x e => exact .pure (.fixed x e)
    | missing path path' =>
      refine .bind (side hr) (inside hr) (fun q k d n hrun => by cases hrun; rfl)
        fun d w hw => ?_
      cases hw with
      | fixed x e => exact .pure (.fixed x e)
      | missing _ _ => exact .pure (.missing _ _)

/-- A lenient reading of a property finalizes nothing, and reads what is classified. -/
theorem Provider.Twin.decides_property {r : PropertyRef} (h : R.property r.id) :
    (evalClassification (.property r)).Decides m' s (evalValue (.property r) .lenient) := by
  intro k c n hrun hc
  have hlenient : (finalizeFor r .lenient).run.run engine (m'.moment s k) =
      some (.ok (), m'.moment s k) := rfl
  rw [evalClassification, Eval.run_property_bind] at hrun
  rw [evalValue, Eval.run_bind_ok hlenient, Eval.run_property_bind]
  have heff := hm.effective r.id h
  rw [show (m'.moment s k).property r.id = m'.property r.id from rfl] at hrun ⊢
  generalize (m.property r.id).effective = q, (m'.property r.id).effective = q' at heff hrun
  cases heff with
  | none => exact Attempt.Decides.pure (.missing [] []) k c n hrun hc
  | some hq => exact inside hq k c n hrun hc

end Parts

/-- What is decided of a twin is what a lenient reading of it gives. -/
theorem Provider.Twin.decides (hm : m.Twin R m') {p p' : Provider} (h : p.Twin R p') :
    (Ask.classification p').Decides m' s (Ask.ownValue p' .lenient) := by
  generalize hr : s.room = r
  induction r using Nat.strongRecOn generalizing p p' s with
  | ind r ih =>
    have inside {o : Owner} {q q' : Provider} (hq : q.Twin R q') :
        (within o (Ask.classification q')).Decides m' s (within o (Ask.value q' .lenient)) :=
      .within fun t ht => (ih _ (hr ▸ ScopeStack.room_lt_of_enter ht) hq rfl).push _
    have side {o : Owner} {q q' : Provider} (hq : q.Twin R q') :
        SideBySide m m' s (within o (Ask.classification q)).run
          (within o (Ask.classification q')).run (SameResult (Classification.Twin R)) :=
      .withinScope fun t _ => hq.classification hm
    refine .ask ?_
    have htwin := h
    cases h with
    | fixed i x => exact .pure (.fixed x none)
    | undefined i type path => exact .pure (.missing path path)
    | changing i type node _ =>
      refine .of_changing fun k c n hrun => ?_
      cases hrun
      rfl
    | map i type h hf =>
      refine .bind (side h) (inside h) (fun q k d n hrun => by cases hrun; rfl) fun c v hv => ?_
      cases hv with
      | missing path path' => exact .pure (.missing path path')
      | fixed x e =>
        refine .after (htwin.applyTransform hm hf x) fun y _ hy => ?_
        subst hy
        cases y with
        | some y => exact .pure (by simpa [Value.ofOption, Value.withEffect] using .fixed y _)
        | none => exact .pure (.missing [] [])
    | flatMap i type h hc =>
      refine .bind (side h) (inside h) (fun q k d n hrun => by cases hrun; rfl) fun c v hv => ?_
      cases hv with
      | missing path path' => exact .pure (.missing path path')
      | fixed x e =>
        exact .after (htwin.chooseNext hm hc type (.present x e)) fun q q' hq => inside hq
    | orElse i hl hr => exact decides_orElse hm inside hl hr
    | withEffect i e h =>
      refine .bind (side h) (inside h) (fun q k d n hrun => by cases hrun; rfl) fun c v hv => ?_
      cases hv with
      | fixed x old => exact .pure (.fixed x _)
      | missing path path' => exact .pure (.missing path path')
    | named i name h =>
      rw [evalValue, ← bind_pure (within _ _)]
      refine .bind (side h) (inside h) (fun q k d n hrun => by cases hrun; rfl) fun c v hv => ?_
      cases hv with
      | fixed x e => exact .pure (.fixed x e)
      | missing path path' => exact .pure (.missing _ path')
    | property h => exact decides_property hm inside h

/-! ### What is decided never depends on the leaves -/

/-- What is decided is the same for twins. -/
theorem Classification.Twin.eq {c c' : Classification} (h : c.Twin R c')
    (hc : c.isChanging = false) : c' = c := by
  cases h with
  | fixed | missing => rfl
  | changing => cases hc

/-- Two graphs that differ only in what their leaves do when called are classified alike, and no
leaf is called for it: all that changes on either machine is the next identity. Where the
classification decides, a lenient reading gives just that, whatever the leaves do. -/
theorem decided_whatever_leaves_do (hm : m.Twin R m') (hstack : m'.stack = m.stack)
    (hsupply : m'.supply = m.supply) {p p' : Provider} (hp : p.Twin R p') :
    ∃ r r' k, (Ask.classification p).run.run engine m = some (r, { m with supply := k }) ∧
      (Ask.classification p').run.run engine m' = some (r', { m' with supply := k }) ∧
      SameResult (Classification.Twin R) r r' ∧
      ∀ c, r = .ok c → c.isChanging = false → ∃ v, c.Settles v ∧
        (Ask.value p' .lenient).run.run engine m' = some (.ok v, { m' with supply := k }) := by
  have hmoment (k : Identity) : m'.moment m.stack k = { m' with supply := k } := by
    rw [← hstack]
    rfl
  have hstart : m'.moment m.stack m.supply = m' := by
    rw [hmoment, ← hsupply]
  obtain ⟨r, r', j, hrun, hrun', hr⟩ := hp.classification hm (s := m.stack) m.supply
  rw [hstart, hmoment] at hrun'
  refine ⟨r, r', m.supply + j, hrun, hrun', hr, ?_⟩
  rintro c rfl hc
  cases hr with
  | @ok _ c' hcc =>
    obtain rfl := hcc.eq hc
    have hdecides := (hp.decides hm (s := m.stack)).push p'.declaredName
    obtain ⟨v, hv, hvalue⟩ := hdecides m.supply c' _ (hstart.symm ▸ hrun') hc
    rw [hstart] at hvalue
    exact ⟨v, hv, hvalue⟩

/-- A flat map over a property. What it chooses falls back to a leaf, as the property does. -/
def leafAside : Provider :=
  .flatMap 4 (.property ⟨0, .int, none⟩)
    (.orElse (.result (.compute fun y => .ok (y.add y))) (.register "leaf")) .int

def leafAsideRegion : Region := ⟨(· = 0), (· = "leaf"), fun _ => False, fun _ _ => True⟩

/-- A machine with the leaf in a register, and behind the fixed payload of the property. -/
def leafAsideMachine (code : Nat → Action) : Machine :=
  { Machine.fresh 8 with
    supply := 5
    properties := [(0, Property.blank.setValue
      (.orElse 3 (.fixed 2 (.int 4)) (.changing 1 .int none ⟨1, code, none⟩)))]
    providerRegisters := [("leaf", .changing 1 .int none ⟨1, code, none⟩)] }

/-- Only the leaves on the machines differ. -/
theorem leafAsideMachine_twin (code code' : Nat → Action) :
    (leafAsideMachine code).Twin leafAsideRegion (leafAsideMachine code') where
  effective := by
    rintro _ rfl
    exact .some (.orElse 3 (.fixed 2 (.int 4)) (.changing 1 .int none trivial))
  providers := by
    rintro _ rfl
    exact .some (.changing 1 .int none trivial)
  properties _ h := h.elim

def givingCalls : Nat → Action := fun _ => .compute fun _ => .ok (some (.int 1))

def failingCalls : Nat → Action := fun _ => .compute fun _ => .error (.rejected "no")

/-- The payload is decided, whether the leaf gives a number or fails. -/
theorem decided_whatever_leaves_do_leafAside :
    (leafAsideMachine givingCalls).Twin leafAsideRegion (leafAsideMachine failingCalls) ∧
    leafAside.Twin leafAsideRegion leafAside ∧
    ∃ k, (Ask.classification leafAside).run.run engine (leafAsideMachine givingCalls) =
        some (.ok (.fixed (.int 8) none), { leafAsideMachine givingCalls with supply := k }) ∧
      (Ask.value leafAside .lenient).run.run engine (leafAsideMachine failingCalls) =
        some (.ok (.present (.int 8) none),
          { leafAsideMachine failingCalls with supply := k }) := by
  have hclassify : (Ask.classification leafAside).run.run engine (leafAsideMachine givingCalls) =
      some (.ok (.fixed (.int 8) none), { leafAsideMachine givingCalls with supply := 7 }) :=
    Eval.run_engine_of_answer 5 rfl
  have hmachine := leafAsideMachine_twin givingCalls failingCalls
  have htwin : leafAside.Twin leafAsideRegion leafAside :=
    .flatMap 4 .int (.property rfl) (.orElse (.result (.compute _)) (.register rfl))
  obtain ⟨r, r', k, hrun, -, -, hdecided⟩ := decided_whatever_leaves_do hmachine rfl rfl htwin
  obtain ⟨rfl, -⟩ := Prod.mk.inj (Option.some.inj (hclassify.symm.trans hrun))
  obtain ⟨v, hv, hvalue⟩ := hdecided _ rfl rfl
  cases hv
  exact ⟨hmachine, htwin, k, hrun, hvalue⟩

end ProviderGraph
