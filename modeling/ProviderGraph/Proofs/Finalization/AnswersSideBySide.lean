import ProviderGraph.Proofs.Finalization.ReadingsSideBySide

/-!
# Answers side by side

One lemma for each kind of provider: where its parts are answered on the second machine as on the
first one, so is the provider (`Machine.Answers`). The second machine may have finalized what the
first one finalizes only now, or does not finalize at all. Then what is kept is what the graph
determines, and what the finalization came to is finalized on the second machine as well.
-/

namespace ProviderGraph

open Provider (chosen)

variable {R : Region} {m a a' b b' n : Machine} {p p' q q' : Provider} {t t' : ScopeStack}
  {D D' : Identity → Prop} {c : Reading} {v w : Outcome} {k : Nat}

/-! ### Answers -/

/-- Both machines were read on, and the same was found on them. -/
structure Machine.Found {α : Type} (m : Machine) (D : Identity → Prop) (T : α → Prop)
    (a b a' b' : Machine) (v w : α) : Prop extends m.Both D a b a' b' where
  eq : w = v
  holds : T v

/-- The value of `p` without its declared name was found. -/
abbrev Machine.FoundValue (m : Machine) (c : Reading) (p : Provider) (a b : Machine) :
    Machine → Machine → Outcome → Outcome → Prop :=
  m.Found (p.Closes m c) (fun v => m.Means (.value p) v ∧ a.stack.RoomFor v) a b

/-- The producers of `p` were found, and nothing was finalized. -/
abbrev Machine.FoundProducer (m : Machine) (p : Provider) (a b : Machine) :
    Machine → Machine → Producer → Producer → Prop :=
  m.Found (fun _ => False) (m.Means (.producer p)) a b

/-- What is asked of `p` on `a` is found, or else it is hindered, when it is asked of `p'` on `b`:
the answer that the graph determines. -/
structure Machine.Answers (m a : Machine) (p : Provider) (b : Machine) (p' : Provider) : Prop where
  value (c : Reading) : KeepsUp m (Ask.value p c) a (Ask.value p' c) b
    (m.Found ((p.blur m.supply).Closes m c)
      (fun v => (p.blur m.supply).Has m v ∧ a.stack.RoomFor v) a b)
  producer : KeepsUp m (Ask.producer p) a (Ask.producer p') b
    (m.FoundProducer (p.blur m.supply) a b)

/-- The answers are found inside the scopes of `p` and `p'`. -/
def Machine.AnswersInside (m a : Machine) (p : Provider) (b : Machine) (p' q q' : Provider) :
    Prop :=
  ∀ t t', a.stack.enter p.owner = .ok t → b.stack.enter p'.owner = .ok t' →
    t'.blur m.supply = t.blur m.supply → m.Answers { a with stack := t } q { b with stack := t' } q'

namespace Machine.Answers

/-- The value of the provider itself is found, and its producers are. -/
theorem of_own (h : m.Abreast a p b p')
    (hvalue : ∀ c, KeepsUp m (Ask.ownValue p c) a (Ask.ownValue p' c) b
      (m.FoundValue c (p.blur m.supply) a b))
    (hproducer : KeepsUp m (Ask.producer p) a (Ask.producer p') b
      (m.FoundProducer (p.blur m.supply) a b)) :
    m.Answers a p b p' where
  value c := by
    have hname : p'.declaredName = p.declaredName := by
      rw [← Provider.declaredName_blur (k := m.supply) p', h.looks, Provider.declaredName_blur]
    refine .bind (hvalue c) fun a' b' v w hv => ?_
    obtain rfl := hv.eq
    rw [hname]
    refine .pure ⟨hv.toBoth, rfl, ?_, fun x e hw => ?_⟩
    · rw [← Provider.declaredName_blur (k := m.supply) p]
      exact hv.holds.1.has
    · cases w with
      | present y e' => exact hv.holds.2 x e hw
      | missing path => cases hw
  producer := hproducer

/-- The answers are found if the rules for values and producers find them. -/
theorem of_rules (h : m.Abreast a p b p')
    (hvalue : ∀ c, KeepsUp m (evalValue p c) a (evalValue p' c) b
      (m.FoundValue c (p.blur m.supply) a b))
    (hproducer : KeepsUp m (evalProducer p) a (evalProducer p') b
      (m.FoundProducer (p.blur m.supply) a b)) :
    m.Answers a p b p' :=
  of_own h (fun c => (hvalue c).ownValue) hproducer.producer

end Machine.Answers

namespace KeepsUp

/-- The value of a part, found in the scope. -/
theorem partValue (h : m.Abreast a p b p') (hq : m.AnswersInside a p b p' q q') (c : Reading) :
    KeepsUp m (within p.owner (Ask.value q c)) a (within p'.owner (Ask.value q' c)) b
      fun a' b' v w => (∃ t, a.stack.enter p.owner = .ok t ∧ t.RoomFor v) ∧
        m.Found ((q.blur m.supply).Closes m c) ((q.blur m.supply).Has m) a b a' b' v w := by
  refine .inside fun t ht => ?_
  obtain ⟨t', ht', hs⟩ := h.enter ht
  refine ⟨t', ht', ((hq t t' ht ht' hs).value c).imp fun a' b' v w hv => ?_⟩
  exact ⟨hv.left.stack_eq, hv.right.stack_eq, ⟨t, ht, hv.holds.2⟩, hv.toBoth.within, hv.eq,
    hv.holds.1⟩

/-- The producers of a part, found in the scope. -/
theorem partProducer (h : m.Abreast a p b p') (hq : m.AnswersInside a p b p' q q') :
    KeepsUp m (within p.owner (Ask.producer q)) a (within p'.owner (Ask.producer q')) b
      (m.FoundProducer (q.blur m.supply) a b) := by
  refine .inside fun t ht => ?_
  obtain ⟨t', ht', hs⟩ := h.enter ht
  refine ⟨t', ht', (hq t t' ht ht' hs).producer.imp fun a' b' v w hv => ?_⟩
  exact ⟨hv.left.stack_eq, hv.right.stack_eq, hv.toBoth.within, hv.eq, hv.holds⟩

end KeepsUp

/-- What a recipe of the region chooses is in the region. -/
theorem Recipe.Twin.chosen (hm : m.Minted) (hg : m.Twin R m) {choice : Recipe}
    (hc : choice.Twin R choice) {type : PayloadType} {x : Payload} {e : Option Effect}
    (hq : Provider.chosen m choice type x e = .ok q) : q.Twin R q := by
  rw [Provider.chosen] at hq
  cases hplan : choice.plan m (some x) with
  | error failure =>
    rw [hplan] at hq
    cases hq
  | ok q? =>
    rw [hplan] at hq
    cases q? with
    | none =>
      cases hq
      exact .undefined _ _ _
    | some q' =>
      have hq' := hc.plan hm hg hplan
      cases e with
      | none =>
        cases hq
        exact hq'
      | some e =>
        cases hq
        exact .withEffect _ _ hq'

/-- A lenient reading finalizes nothing. -/
theorem Provider.not_closes_lenient (i : Identity) : ¬ p.Closes m .lenient i := fun h => nomatch h.1

/-! ### Rules -/

section Rules

variable (ih : ∀ {a p b p'}, a.stack.room < k → m.Abreast a p b p' →
  (p.blur m.supply).Twin R (p.blur m.supply) → m.Answers a p b p')

include ih

/-- What is asked of a part inside both scopes is found. -/
theorem Machine.Abreast.answersInside (h : m.Abreast a p b p') (hk : a.stack.room ≤ k)
    (hlooks : q'.blur m.supply = q.blur m.supply)
    (hpart : ∀ lo hi, p.Placed m.supply lo hi → q.Placed m.supply lo p.id)
    (hpart' : ∀ lo hi, p'.Placed m.supply lo hi → q'.Placed m.supply lo p'.id)
    (hq : (q.blur m.supply).Twin R (q.blur m.supply)) : m.AnswersInside a p b p' q q' :=
  fun _ _ ht ht' hs => ih (Nat.lt_of_lt_of_le (ScopeStack.room_lt_of_enter ht) hk)
    (h.part ht ht' hs hlooks hpart hpart') hq

/-- What is asked of something built on both machines is found. -/
theorem Machine.Abreast.answersBuilt (h : m.Abreast a p b p') (hk : a.stack.room ≤ k)
    (hm : m.Minted) {q₀ : Provider} (hbuilt : m.Built a b a' b' q₀ q q') (hq : q₀.Twin R q₀) :
    m.AnswersInside a' p b' p' q q' := by
  intro t t' ht ht' hs
  rw [hbuilt.left_stack] at ht
  rw [hbuilt.right_stack] at ht'
  have hlt := Nat.lt_of_lt_of_le (ScopeStack.room_lt_of_enter ht) hk
  refine ih hlt (h.built ht ht' hs hm hbuilt) ?_
  rw [hbuilt.left_looks.blur_eq]
  exact hq

/-- What both go on with when they are asked for the producers of a flat map. -/
theorem KeepsUp.backing {i j : Identity} {base base' : Provider} {choice : Recipe}
    {type : PayloadType}
    (hm : m.Minted) (hg : m.Twin R m) (hk : a.stack.room ≤ k)
    (h : m.Abreast a (.flatMap i base choice type) b (.flatMap j base' choice type))
    (inside : m.AnswersInside a (.flatMap i base choice type) b (.flatMap j base' choice type)
      base base') (hc : choice.Twin R choice) :
    KeepsUp m (backing (.flatMap i base choice type) base choice type) a
      (backing (.flatMap j base' choice type) base' choice type) b
      fun a' b' q q' => m.Both (fun _ => False) a b a' b' ∧
        m.AnswersInside a' (.flatMap i base choice type) b' (.flatMap j base' choice type) q q' ∧
        ∀ t, m.Means (.producer (q.blur m.supply)) t →
          m.Means (.producer ((Provider.flatMap i base choice type).blur m.supply)) t := by
  refine .bind (.partValue h inside .lenient) fun a₁ b₁ v w hv => ?_
  obtain ⟨-, hv⟩ := hv
  obtain rfl := hv.eq
  have hboth : m.Both (fun _ => False) a b a₁ b₁ :=
    hv.toBoth.congr fun i => iff_false_intro (Provider.not_closes_lenient i)
  have h₁ := h.later hboth
  have hk₁ : a₁.stack.room ≤ k := by rwa [hv.left.stack_eq]
  have goesOn {q₀ q q' : Provider} {a₂ b₂ : Machine} (hbuilt : m.Built a₁ b₁ a₂ b₂ q₀ q q')
      (hq : q₀.Twin R q₀) (hmeans : ∀ t, m.Means (.producer q₀) t →
        m.Means (.producer ((Provider.flatMap i base choice type).blur m.supply)) t) :
      m.Both (fun _ => False) a b a₂ b₂ ∧
        m.AnswersInside a₂ (.flatMap i base choice type) b₂ (.flatMap j base' choice type) q q' ∧
        ∀ t, m.Means (.producer (q.blur m.supply)) t →
          m.Means (.producer ((Provider.flatMap i base choice type).blur m.supply)) t := by
    refine ⟨(hboth.trans (h₁.bothBuilt hbuilt)).congr fun _ => or_self_iff,
      h₁.answersBuilt ih hk₁ hm hbuilt hq, ?_⟩
    rw [hbuilt.left_looks.blur_eq]
    exact hmeans
  cases w with
  | missing path =>
    refine (KeepsUp.freshUndefined h₁ type []).imp fun a₂ b₂ q q' hbuilt => ?_
    refine goesOn hbuilt (.undefined _ _ _) fun t ht => ?_
    rw [ht.unique .noneOfUndefined]
    exact .noneOfMissing hv.holds
  | present x e =>
    refine (KeepsUp.chooseNext h₁ hm hc.pure type x e).imp fun a₂ b₂ q q' hq => ?_
    obtain ⟨q₀, hq₀, hbuilt⟩ := hq
    exact goesOn hbuilt (hc.chosen hm hg hq₀) fun t => .ofChosen hv.holds hq₀

namespace Machine.Answers

variable {i : Identity} {base left right inner : Provider} {type : PayloadType}
  {choice : Recipe} {f : Closure}

omit ih in
theorem fixed {x : Payload} (h : m.Abreast a (.fixed i x) b p') :
    m.Answers a (.fixed i x) b p' := by
  obtain ⟨j, rfl⟩ := Provider.exists_fixed_of_blur h.looks
  refine of_rules h (fun c => .pure ⟨h.rest (fun _ hi => nomatch hi.2), rfl, .fixed, ?_⟩) ?_
  · exact fun _ _ hv => nomatch hv
  · exact .pure ⟨h.rest fun _ => id, rfl, .noneOfFixed⟩

omit ih in
theorem undefined {path : List String} (h : m.Abreast a (.undefined i type path) b p') :
    m.Answers a (.undefined i type path) b p' := by
  obtain ⟨j, rfl⟩ := Provider.exists_undefined_of_blur h.looks
  refine of_rules h (fun c => .pure ⟨h.rest (fun _ hi => nomatch hi.2), rfl, .undefined, ?_⟩) ?_
  · exact fun _ _ hv => nomatch hv
  · exact .pure ⟨h.rest fun _ => id, rfl, .noneOfUndefined⟩

omit ih in
/-- Both calls give the result that each call gives. -/
theorem changing {node : Option String} {calls : Calls} {y : Except Failure (Option Payload)}
    (hc : calls.Steady y) (h : m.Abreast a (.changing i type node calls) b p') :
    m.Answers a (.changing i type node calls) b p' := by
  obtain ⟨j, calls', rfl, hcalls⟩ := Provider.exists_changing_of_blur h.looks
  have hc' := hc.of_blur hcalls
  have hboth {D : Identity → Prop} (hD : ∀ i, ¬ D i) :
      m.Both D a b (a.bump calls.counter) (b.bump calls'.counter) :=
    h.both (.bump a _) rfl (.bump b _) rfl hD
  refine of_rules h (fun c => ?_) ?_
  · refine .lift_bind hc.run_nextCall hc'.run_nextCall (.bind (.settle y) ?_)
    rintro _ _ _ v ⟨rfl, rfl, rfl, hy⟩
    refine .pure ⟨hboth (fun _ hi => nomatch hi.2), rfl, .changing (hc.result_eq.trans hy), ?_⟩
    cases v <;> exact fun _ _ hv => nomatch hv
  · have hrest : m.Both (fun _ => False) a b a b := h.rest fun _ => id
    cases node with
    | none => exact .pure ⟨hrest, rfl, .ofLeaf⟩
    | some name => exact .pure ⟨hrest, rfl, .ofLeaf⟩

section Parts

variable (hk : a.stack.room ≤ k)

include hk

theorem map (h : m.Abreast a (.map i base f type) b p')
    (hbase : (base.blur m.supply).Twin R (base.blur m.supply)) (hf : f.code.Pure) :
    m.Answers a (.map i base f type) b p' := by
  obtain ⟨j, base', rfl, hlooks⟩ := Provider.exists_map_of_blur h.looks
  have inside := h.answersInside ih hk hlooks (fun _ _ h => h.2) (fun _ _ h => h.2) hbase
  refine of_rules h (fun c => ?_) ((KeepsUp.partProducer h inside).imp fun _ _ _ _ ht => ?_)
  · refine .bind (.partValue h inside c) fun a' b' v w hv => ?_
    obtain ⟨⟨t, ht, -⟩, hv⟩ := hv
    obtain rfl := hv.eq
    have hboth : m.Both (((Provider.map i base f type).blur m.supply).Closes m c) a b a' b' :=
      hv.toBoth.congr fun _ => Provider.closes_map_iff.symm
    cases w with
    | missing path =>
      exact .pure ⟨hboth, rfl, .map hv.holds rfl, .of_enter ht⟩
    | present x e =>
      refine .bind (.applyTransform (h.later hv.toBoth) hf x) ?_
      rintro _ _ y _ ⟨rfl, rfl, rfl, hy⟩
      refine .pure ⟨hboth, rfl, .map hv.holds ?_, .of_enter ht⟩
      rw [Closure.mapped, hy]
      rfl
  · exact ⟨ht.toBoth, ht.eq, .ofBase ht.holds⟩

/-- Answers about a flat map are found if those about its base and its choice are. -/
theorem flatMap (hm : m.Minted) (hg : m.Twin R m)
    (h : m.Abreast a (.flatMap i base choice type) b p')
    (hbase : (base.blur m.supply).Twin R (base.blur m.supply)) (hc : choice.Twin R choice) :
    m.Answers a (.flatMap i base choice type) b p' := by
  obtain ⟨j, base', rfl, hlooks⟩ := Provider.exists_flatMap_of_blur h.looks
  have inside := h.answersInside ih hk hlooks (fun _ _ h => h.2) (fun _ _ h => h.2) hbase
  refine of_rules h (fun c => ?_) (.bind (.backing ih hm hg hk h inside hc) ?_)
  · refine .bind (.partValue h inside c) fun a₁ b₁ v w hv => ?_
    obtain ⟨⟨t, ht, -⟩, hv⟩ := hv
    obtain rfl := hv.eq
    cases w with
    | missing path =>
      refine .pure ⟨hv.toBoth.congr fun _ => ?_, rfl, .flatMapMissing hv.holds, .of_enter ht⟩
      exact (Provider.closes_flatMap_iff_of_missing hv.holds).symm
    | present x e =>
      have h₁ := h.later hv.toBoth
      refine .bind (.chooseNext h₁ hm hc.pure type x e) fun a₂ b₂ q q' hq => ?_
      obtain ⟨q₀, hq₀, hbuilt⟩ := hq
      have h₂ := h₁.later (h₁.bothBuilt hbuilt)
      have hk₁ : a₁.stack.room ≤ k := by rwa [hv.left.stack_eq]
      have inside₂ := h₁.answersBuilt ih hk₁ hm hbuilt (hc.chosen hm hg hq₀)
      refine (KeepsUp.partValue h₂ inside₂ c).imp fun a₃ b₃ v w hv' => ?_
      obtain ⟨-, hv'⟩ := hv'
      have hholds := hv'.holds
      have hboth := (hv.toBoth.trans (h₁.bothBuilt hbuilt)).trans hv'.toBoth
      rw [hbuilt.left_looks.blur_eq] at hholds hboth
      refine ⟨hboth.congr fun _ => ?_, hv'.eq, .flatMap hv.holds hq₀ hholds, .of_enter ht⟩
      rw [or_false]
      exact (Provider.closes_flatMap_iff hv.holds hq₀).symm
  · rintro a₁ b₁ q q' ⟨hboth, inside₁, hmeans⟩
    refine (KeepsUp.partProducer (h.later hboth) inside₁).imp fun a₂ b₂ t u ht => ?_
    exact ⟨(hboth.trans ht.toBoth).congr fun _ => or_self_iff, ht.eq, hmeans t ht.holds⟩

/-- Answers about a fallback are found if those about its sides are. -/
theorem orElse (h : m.Abreast a (.orElse i left right) b p')
    (hleft : (left.blur m.supply).Twin R (left.blur m.supply))
    (hright : (right.blur m.supply).Twin R (right.blur m.supply)) :
    m.Answers a (.orElse i left right) b p' := by
  obtain ⟨j, left', right', rfl, hlooks, hlooks'⟩ := Provider.exists_orElse_of_blur h.looks
  have insideLeft := h.answersInside ih hk hlooks (fun _ _ h => h.2.1) (fun _ _ h => h.2.1) hleft
  have insideRight {D : Identity → Prop} {a₁ b₁ : Machine} (hboth : m.Both D a b a₁ b₁) :
      m.AnswersInside a₁ (.orElse i left right) b₁ (.orElse j left' right') right right' := by
    have hk₁ : a₁.stack.room ≤ k := by rwa [hboth.left.stack_eq]
    exact (h.later hboth).answersInside ih hk₁ hlooks' (fun _ _ h => h.2.2) (fun _ _ h => h.2.2)
      hright
  refine of_rules h (fun c => ?_) ?_
  · refine .bind (.partValue h insideLeft c) fun a₁ b₁ v w hv => ?_
    obtain ⟨⟨t, ht, -⟩, hv⟩ := hv
    obtain rfl := hv.eq
    cases w with
    | present x e =>
      refine .pure ⟨hv.toBoth.congr fun _ => ?_, rfl, .left hv.holds, .of_enter ht⟩
      exact (Provider.closes_orElse_iff_of_present hv.holds).symm
    | missing path =>
      have h₁ := h.later hv.toBoth
      refine .bind (.partValue h₁ (insideRight hv.toBoth) c) fun a₂ b₂ v w hv' => ?_
      obtain ⟨-, hv'⟩ := hv'
      obtain rfl := hv'.eq
      have hboth : m.Both (((Provider.orElse i left right).blur m.supply).Closes m c) a b a₂ b₂ :=
        (hv.toBoth.trans hv'.toBoth).congr fun _ => (Provider.closes_orElse_iff hv.holds).symm
      have hmeans := Machine.Means.right (i := min i m.supply) hv.holds hv'.holds
      cases w with
      | present x e => exact .pure ⟨hboth, rfl, hmeans, .of_enter ht⟩
      | missing path' => exact .pure ⟨hboth, rfl, hmeans, .of_enter ht⟩
  · refine .bind (.partProducer h insideLeft) fun a₁ b₁ t t' ht => ?_
    obtain rfl := ht.eq
    have h₁ := h.later ht.toBoth
    refine .bind (.partProducer h₁ (insideRight ht.toBoth)) fun a₂ b₂ u u' hu => ?_
    obtain rfl := hu.eq
    refine .pure ⟨(ht.toBoth.trans hu.toBoth).congr fun _ => or_self_iff, rfl, ?_⟩
    exact .ofBoth ht.holds hu.holds

theorem withEffect {e : Effect} (h : m.Abreast a (.withEffect i inner e) b p')
    (hinner : (inner.blur m.supply).Twin R (inner.blur m.supply)) :
    m.Answers a (.withEffect i inner e) b p' := by
  obtain ⟨j, inner', rfl, hlooks⟩ := Provider.exists_withEffect_of_blur h.looks
  have inside := h.answersInside ih hk hlooks (fun _ _ h => h.2) (fun _ _ h => h.2) hinner
  refine of_rules h (fun c => ?_) ((KeepsUp.partProducer h inside).imp fun _ _ _ _ ht => ?_)
  · refine .bind (.partValue h inside c) fun a' b' v w hv => ?_
    obtain ⟨⟨t, ht, -⟩, hv⟩ := hv
    obtain rfl := hv.eq
    refine .pure ⟨hv.toBoth.congr fun _ => ?_, rfl, .withEffect hv.holds, .of_enter ht⟩
    exact Provider.closes_withEffect_iff.symm
  · exact ⟨ht.toBoth, ht.eq, .ofEffectful ht.holds⟩

theorem named {name : String} (h : m.Abreast a (.named i inner name) b p')
    (hinner : (inner.blur m.supply).Twin R (inner.blur m.supply)) :
    m.Answers a (.named i inner name) b p' := by
  obtain ⟨j, inner', rfl, hlooks⟩ := Provider.exists_named_of_blur h.looks
  have inside := h.answersInside ih hk hlooks (fun _ _ h => h.2) (fun _ _ h => h.2) hinner
  refine of_rules h (fun c => ?_) ((KeepsUp.partProducer h inside).imp fun _ _ _ _ ht => ?_)
  · refine (KeepsUp.partValue h inside c).imp fun a' b' v w hv => ?_
    obtain ⟨⟨t, ht, -⟩, hv⟩ := hv
    refine ⟨hv.toBoth.congr fun _ => ?_, hv.eq, .named hv.holds, .of_enter ht⟩
    exact Provider.closes_named_iff.symm
  · exact ⟨ht.toBoth, ht.eq, .ofNamed ht.holds⟩

end Parts

end Machine.Answers

end Rules

end ProviderGraph
