import ProviderGraph.Proofs.Effect.StrictReadings
import ProviderGraph.Proofs.Finalization.FinalizingAndReading

/-!
# Side effects

Unpacking what a strict reading finds does what the provider delivers: every effect once, in the
order of the reference, and none unless there is a payload. While the value is computed no effect
runs. The statement covers graphs with cycles and properties that the reading finalizes; the former
end in a fault.
-/

namespace ProviderGraph

variable {R : Region} {m m₁ n o : Machine} {c : Reading} {p q : Provider} {s t : ScopeStack}
  {v : Outcome} {question : Provider → Attempt Outcome}

/-- What a reading found with the scopes of `s` open: the provider may deliver it, and a strict
reading finds it again if the leaves are steady. -/
structure Provider.Read (R : Region) (m : Machine) (c : Reading)
    (question : Provider → Attempt Outcome) (s : ScopeStack) (p : Provider) (n : Machine)
    (v : Outcome) : Prop where
  delivers : p.Delivers m v.delivery
  rereads : c = .strict → R.Steady → p.Rereads question s n v

theorem Provider.Read.later (h : p.Read R m c question s n v) (hn : n.Ripens o) :
    p.Read R m c question s o v where
  delivers := h.delivers
  rereads hc hR := (h.rereads hc hR).later hn

/-- The declared name of a provider only lengthens a missing path. -/
theorem Provider.Read.value (h : p.Read R m c (evalValue · .strict) s n v) :
    p.Read R m c (Ask.value · .strict) s n (v.push p.declaredName) where
  delivers := by
    rw [Value.delivery_push]
    exact h.delivers
  rereads hc hR := (h.rereads hc hR).value

/-- Both questions about the provider proceed. -/
structure Provider.Answers (R : Region) (m : Machine) (p : Provider) (m₁ : Machine) : Prop where
  value (c : Reading) :
    Proceeds m (Ask.value p c) m₁ (p.Read R m c (Ask.value · .strict) m₁.stack)
  producer : Proceeds m (Ask.producer p) m₁ fun _ _ => True

/-! ### Rules -/

section Rules

variable (ih : ∀ (q : Provider) (n : Machine), m.Consulted n → q.Twin R q →
  n.stack.room < s.room → q.Answers R m n)

section Parts

variable (hn : m.Consulted n) (hs : n.stack = s) (o : Owner) (hq : q.Twin R q)

include ih hn hs hq

/-- The value of a part, read inside the scope of the provider. -/
theorem Proceeds.part_value : Proceeds m (ProviderGraph.within o (Ask.value q c)) n fun n' v =>
    ∃ t, s.enter o = .ok t ∧ q.Read R m c (Ask.value · .strict) t n' v := by
  subst hs
  refine .within (P := fun t => q.Read R m c (Ask.value · .strict) t) hn (fun t ht => ?_)
    fun t n' v ht hread => ⟨t, ht, hread.later ((Machine.Evolves.refl n').stack _).ripens⟩
  exact (ih q { n with stack := t } (hn.stack t) hq (ScopeStack.room_lt_of_enter ht)).value c

/-- The producers of a part, asked for inside the scope of the provider. -/
theorem Proceeds.part_producer :
    Proceeds m (ProviderGraph.within o (Ask.producer q)) n fun _ _ => True := by
  subst hs
  refine .within (P := fun _ _ _ => True) hn (fun t ht => ?_) fun _ _ _ _ h => h
  exact (ih q { n with stack := t } (hn.stack t) hq (ScopeStack.room_lt_of_enter ht)).producer

end Parts

variable (hR : R.Computes) (hm : m.Minted) (hg : m.Twin R m) (hm₁ : m.Consulted m₁)
  (hs₁ : m₁.stack = s)

include ih hg hm₁ hs₁

/-- What a property would keep delivers what the property does. -/
theorem Proceeds.computeFrozen {r : PropertyRef} (hr : R.property r.id)
    (heq : m₁.property r.id = m.property r.id) :
    Proceeds m (computeFrozen r (m₁.property r.id).effective) m₁ fun n k =>
      k.1.Minted n.supply ∧ ∃ w, k.1.kept? = some w ∧
        ∀ r' : PropertyRef, r'.id = r.id → (Provider.property r').Delivers m w.delivery := by
  have heff := hg.effective r.id hr
  rw [heq]
  generalize hq : (m.property r.id).effective = held at heff
  cases held with
  | none =>
    refine .lift_bind rfl (.fresh m₁) rfl (.pure (hm₁.evolves (.fresh m₁)) ?_)
    exact ⟨Nat.lt_succ_self _, _, rfl, fun r' hr' => .unset (hr' ▸ hq)⟩
  | some q =>
    cases heff with
    | some htwin =>
      refine .bind (.part_producer ih hm₁ hs₁ _ htwin) fun t n hn _ hs _ => ?_
      refine .bind (.part_value ih hn (hs.trans hs₁) _ htwin) fun v n' hn' _ _ hread => ?_
      obtain ⟨_, -, hread⟩ := hread
      obtain ⟨p, o, hrun, ho, hs, hp, hminted⟩ :=
        Classification.run_toProvider_ofValue v r.type n'
      refine .lift_bind hrun ho hs (.pure (hn'.evolves ho) ⟨hminted, v, hp.kept, ?_⟩)
      exact fun r' hr' => .property (hr' ▸ hq) hread.delivers

/-- A property that has to be finalized is finalized. -/
theorem Proceeds.finalize {r : PropertyRef} (hr : R.property r.id)
    (hmust : (m₁.property r.id).mustFinalize .strict = true) :
    Proceeds m (Ask.finalize r) m₁ fun n _ => (n.property r.id).finalized = true := by
  have heq := hm₁.property_eq hmust
  have hopen := (Property.mustFinalize_eq_true_iff.mp hmust).2.2
  refine .rule ((Eval.run_ask _ _ _).trans (run_evalFinalize_of_open hopen)) ?_
  refine .bind (.computeFrozen ih hg hm₁ hs₁ hr heq) fun k n hn hm₁n hs ⟨hk, w, hkept, hw⟩ => ?_
  rw [heq] at hmust
  refine ⟨_, _, rfl, hn.commit hmust hkept hk k.2 hw, hn.ripens_commit hmust k.2, rfl,
    fun _ _ => ?_⟩
  change ((n.setProperty r.id _).property r.id).finalized = true
  rw [Machine.property_setProperty_self]
  exact Property.finalized_commit _ _ _

/-- Before a strict reading goes on, a property that has to be finalized is finalized. -/
theorem Proceeds.finalizeFor {r : PropertyRef} (hr : R.property r.id) (c : Reading) :
    Proceeds m (finalizeFor r c) m₁ fun n _ =>
      c = .strict → (n.property r.id).mustFinalize .strict = false := by
  refine .property_bind ?_
  cases hmust : (m₁.property r.id).mustFinalize c with
  | false => exact .pure hm₁ fun hc => hc ▸ hmust
  | true =>
    obtain ⟨rfl, -, -⟩ := Property.mustFinalize_eq_true_iff.mp hmust
    refine (Proceeds.finalize ih hg hm₁ hs₁ hr hmust).imp fun n _ _ hn _ => ?_
    simp [Property.mustFinalize, hn]

section Provider

variable (hp : p.Twin R p)

include hm hp

/-- A flat map goes on with what it chose. -/
theorem Proceeds.goesOn {i : Identity} {choice : Recipe} {type : PayloadType}
    (hpq : p = .flatMap i q choice type) (hc : choice.Twin R choice) {x : Payload}
    {e : Option Effect} (hread : q.Read R m c (Ask.value · .strict) t m₁ (.present x e))
    (ht : s.enter p.owner = .ok t) :
    Proceeds m (ProviderGraph.chooseNext p choice type (.present x e) >>= fun next =>
        ProviderGraph.within p.owner (Ask.value next c)) m₁
      (p.Read R m c (evalValue · .strict) s) := by
  refine .bind (.chooseNext hg hm₁ hp hm hc type x e) fun q' n hn hm₁n hs ⟨hq', hchosen⟩ => ?_
  refine (Proceeds.part_value ih hn (hs.trans hs₁) p.owner hq').imp fun n' v hnn' hread' => ?_
  obtain ⟨t', ht', hread'⟩ := hread'
  cases ht.symm.trans ht'
  subst hpq
  constructor
  · exact .flatMap_of_chosen hread.delivers hchosen hread'.delivers.blur
  · intro hstrict hsteady
    have hbase := (hread.later (hm₁n.trans hnn')).rereads hstrict hsteady
    have hreg := hm₁.sameRegisters.trans (hm₁n.trans hnn').toSameRegisters
    exact .flatMap ht hbase hm hreg hc.pure hchosen rfl (hread'.rereads hstrict hsteady)

include hR

/-- The rule for the value of the provider. -/
theorem Proceeds.evalValue (c : Reading) :
    Proceeds m (evalValue p c) m₁ (p.Read R m c (evalValue · .strict) s) := by
  have htwin := hp
  cases hp with
  | fixed i x => exact .pure hm₁ ⟨.fixed, fun _ _ => .fixed⟩
  | undefined i type path => exact .pure hm₁ ⟨.undefined, fun _ _ => .undefined⟩
  | @changing i type node calls _ hl =>
    have hpure := hR _ _ hl
    refine .lift_bind (hpure _).run_nextCall (.bump m₁ calls.counter) rfl ?_
    have hn := hm₁.evolves (.bump m₁ calls.counter)
    refine .bind (.settle hn rfl (.refl _) rfl _) fun y n hn _ _ hy => .pure hn ⟨?_, ?_⟩
    · rw [Value.delivery_ofOption]
      exact .changing hy
    · exact fun _ hsteady => .changing fun k =>
        ⟨hpure k, (hsteady _ _ hl _ k).trans ((hsteady _ _ hl _ _).symm.trans hy)⟩
  | map i type hbase hf =>
    refine .bind (.part_value ih hm₁ hs₁ _ hbase) fun v n hn hm₁n hs hread => ?_
    obtain ⟨t, ht, hread⟩ := hread
    cases v with
    | missing path =>
      exact .pure hn ⟨.mapMissing hread.delivers, fun hc hsteady =>
        .mapMissing ht (hread.rereads hc hsteady)⟩
    | present x e =>
      refine .bind (.applyTransform hg hn htwin hf x) fun y o ho hno _ hy => .pure ho ⟨?_, ?_⟩
      · rw [Value.delivery_withEffect_boundTo]
        exact .map hread.delivers hy
      · exact fun hc hsteady => .map ht ((hread.later hno).rereads hc hsteady) hf hy
  | flatMap i type hbase hc =>
    refine .bind (.part_value ih hm₁ hs₁ _ hbase) fun v n hn hm₁n hs hread => ?_
    obtain ⟨t, ht, hread⟩ := hread
    cases v with
    | missing path =>
      exact .pure hn ⟨.flatMapMissing hread.delivers, fun hc hsteady =>
        .flatMapMissing ht (hread.rereads hc hsteady)⟩
    | present x e => exact .goesOn ih hm hg hn (hs.trans hs₁) htwin rfl hc hread ht
  | orElse i hl hr =>
    refine .bind (.part_value ih hm₁ hs₁ _ hl) fun v n hn hm₁n hs hread => ?_
    obtain ⟨t, ht, hread⟩ := hread
    cases v with
    | present x e =>
      exact .pure hn ⟨.left hread.delivers, fun hc hsteady =>
        .left ht (hread.rereads hc hsteady) rfl⟩
    | missing path =>
      refine .bind (.part_value ih hn (hs.trans hs₁) _ hr) fun w o ho hno _ hread' => ?_
      obtain ⟨t', ht', hread'⟩ := hread'
      cases ht.symm.trans ht'
      have hleft := hread.later hno
      have hagain (hc : c = .strict) (hsteady : R.Steady) :=
        Provider.Rereads.right ht (hleft.rereads hc hsteady) rfl (hread'.rereads hc hsteady)
      cases w with
      | present y e => exact .pure ho ⟨.right hread.delivers hread'.delivers, hagain⟩
      | missing path' => exact .pure ho ⟨.right hread.delivers hread'.delivers, hagain⟩
  | withEffect i e h =>
    refine .bind (.part_value ih hm₁ hs₁ _ h) fun v n hn hm₁n hs hread => ?_
    obtain ⟨t, ht, hread⟩ := hread
    refine .pure hn ⟨?_, fun hc hsteady => .withEffect ht (hread.rereads hc hsteady)⟩
    rw [Value.delivery_withEffect]
    exact .withEffect hread.delivers
  | named i name h =>
    refine (Proceeds.part_value ih hm₁ hs₁ _ h).imp fun n v _ hread => ?_
    obtain ⟨t, ht, hread⟩ := hread
    exact ⟨.named hread.delivers, fun hc hsteady => .named ht (hread.rereads hc hsteady)⟩
  | @property r hr =>
    refine .bind (.finalizeFor ih hg hm₁ hs₁ hr c) fun _ n hn hm₁n hs hmust => ?_
    refine .property_bind ?_
    have heff := (hn.twin hg).effective r.id hr
    generalize hq : (n.property r.id).effective = held at heff
    cases heff with
    | none => exact .pure hn ⟨hn.unset hq, fun hc _ => .unset (hmust hc) hq⟩
    | @some q _ htwin =>
      refine (Proceeds.part_value ih hn (hs.trans hs₁) _ htwin).imp fun o v hno hread => ?_
      obtain ⟨t, ht, hread⟩ := hread
      refine ⟨hn.delivers hq hread.delivers, fun hc hsteady => ?_⟩
      have heq := hno.property_eq (hmust hc)
      refine .property (heq ▸ hmust hc) (heq ▸ hq) ?_ ht (hread.rereads hc hsteady)
      exact (hn.minted hm hq).mono hno.supply_le

end Provider

include hm

/-- The rule for the producers of the provider. -/
theorem Proceeds.evalProducer (hp : p.Twin R p) :
    Proceeds m (evalProducer p) m₁ fun _ _ => True := by
  have htwin := hp
  cases hp with
  | fixed | undefined => exact .pure hm₁ trivial
  | changing i type node hl =>
    cases node with
    | some name => exact .pure hm₁ trivial
    | none => exact .pure hm₁ trivial
  | map i type h hf => exact .part_producer ih hm₁ hs₁ _ h
  | flatMap i type h hc =>
    refine .bind (P := fun _ q => q.Twin R q) ?_ fun q n hn _ hs hq =>
      .part_producer ih hn (hs.trans hs₁) _ hq
    refine .bind (.part_value ih hm₁ hs₁ _ h) fun v n hn _ _ _ => ?_
    cases v with
    | missing path =>
      refine ⟨_, _, rfl, hn.evolves (.fresh n), (Machine.Evolves.fresh n).ripens, rfl, ?_⟩
      rintro _ ⟨⟩
      exact .undefined _ type []
    | present x e =>
      exact (Proceeds.chooseNext hg hn htwin hm hc type x e).imp fun _ _ _ h => h.1
  | orElse i hl hr =>
    refine .bind (.part_producer ih hm₁ hs₁ _ hl) fun t n hn _ hs _ => ?_
    exact .bind (.part_producer ih hn (hs.trans hs₁) _ hr) fun _ o ho _ _ _ => .pure ho trivial
  | withEffect i e h => exact .part_producer ih hm₁ hs₁ _ h
  | named i name h => exact .part_producer ih hm₁ hs₁ _ h
  | @property r hr =>
    refine .property_bind ?_
    have heff := (hm₁.twin hg).effective r.id hr
    generalize (m₁.property r.id).effective = held at heff
    cases (m₁.property r.id).frozenProducer with
    | some frozen => exact .pure hm₁ trivial
    | none =>
      cases heff with
      | none => exact .pure hm₁ trivial
      | some h =>
        exact .bind (.part_producer ih hm₁ hs₁ _ h) fun _ n hn _ _ _ => .pure hn trivial

end Rules

/-- Whatever is read strictly or asked for its producers proceeds. -/
theorem Provider.Twin.answers (hR : R.Computes) (hm : m.Minted) (hg : m.Twin R m)
    (hp : p.Twin R p) (hm₁ : m.Consulted m₁) : p.Answers R m m₁ := by
  generalize hr : m₁.stack.room = r
  induction r using Nat.strongRecOn generalizing p m₁ with
  | ind r ih =>
    have ih (q : Provider) (n : Machine) (hn : m.Consulted n) (hq : q.Twin R q)
        (hlt : n.stack.room < m₁.stack.room) : q.Answers R m n := ih _ (hr ▸ hlt) hq hn rfl
    constructor
    · intro c
      refine .bind (P := p.Read R m c (evalValue · .strict) m₁.stack) ?_ fun v n hn _ _ hread =>
        .pure hn hread.value
      exact .rule (Ask.run_rule (.ownValue p c) m₁) (.evalValue ih hR hm hg hm₁ rfl hp c)
    · exact .rule (Ask.run_rule (.producer p) m₁) (.evalProducer ih hm hg hm₁ rfl hp)

/-! ### Unpacking -/

/-- Run actions one after the other, each on its payload. Their results play no part. -/
def actAll (deeds : List (Action × Payload)) : Eval Unit :=
  deeds.forM fun d => discard (Ask.act d.1 none d.2)

/-- Deeds are performed by running their actions one after the other. -/
theorem perform_eq_actAll (deeds : List (Action × Payload)) : perform deeds = actAll deeds := by
  induction deeds with
  | nil => rfl
  | cons d deeds ih =>
    rw [perform, ih]
    rfl

/-- How `get` and `get?` end from a machine: the value is computed, which comes to the machine `n`,
and then the deeds are done in order and the payload is given, or there is nothing. -/
inductive Provider.Gets (p : Provider) (m : Machine) : Delivery → Machine → Prop where
  | payload {x : Payload} {deeds : List (Action × Payload)} {n : Machine}
    (hget : (Ask.get p).run.run engine m =
      ((actAll deeds).run engine n).map fun r => (.ok x, r.2))
    (hget? : (Ask.get? p).run.run engine m =
      ((actAll deeds).run engine n).map fun r => (.ok (some x), r.2)) :
    Gets p m (some (x, deeds)) n
  | nothing {path : List String} {n : Machine}
    (hget : (Ask.get p).run.run engine m = some (.error (.missingValue path), n))
    (hget? : (Ask.get? p).run.run engine m = some (.ok none, n)) :
    Gets p m none n

/-- Unpacking does what the value delivers. -/
theorem Provider.gets_of_run_value
    (h : (Ask.value p .strict).run.run engine m = some (.ok v, n)) : p.Gets m v.delivery n := by
  have hget := Eval.run_bind_ok h unpack
  have hget? := Eval.run_bind_ok h unpack?
  cases v with
  | missing path => exact .nothing hget hget?
  | present x e =>
    have hunpack : (unpack (.present x e)).run.run engine n =
        ((actAll (SideEffect.deedsOf e x)).run engine n).map fun r => (.ok x, r.2) := by
      rw [← perform_eq_actAll]
      refine (congrArg (Eval.run engine · n) (Eval.run_lift_bind _ _)).trans ?_
      rw [Eval.run_bind, Option.map_eq_bind]
      rfl
    refine .payload (hget.trans hunpack) (hget?.trans ?_)
    change (some <$> unpack (.present x e)).run.run engine n = _
    rw [ExceptT.run_map, map_eq_pure_bind, Eval.run_bind, hunpack, Option.bind_map,
      Option.map_eq_bind]
    rfl

/-- A finalized property gives what it keeps, and is left as it is. -/
theorem Property.Keeps.gets {r : PropertyRef} (h : (m.property r.id).Keeps q v)
    (ht : m.stack.enterAll ((Provider.property r).owner :: q.keptScopes) = .ok t) :
    (Provider.property r).Gets m v.delivery m := by
  have hrun := h.run_value .strict
  rw [ht] at hrun
  rw [← Value.delivery_push v r.name]
  exact Provider.gets_of_run_value hrun

/-- A reading that fails does nothing. -/
theorem run_get_of_error {f : Fault}
    (h : (Ask.value p .strict).run.run engine m = some (.error f, n)) :
    (Ask.get p).run.run engine m = some (.error f, n) ∧
      (Ask.get? p).run.run engine m = some (.error f, n) :=
  ⟨Eval.run_bind_error h unpack, Eval.run_bind_error h unpack?⟩

/-- Of a graph whose code computes, `get` and `get?` find the value first and then do the deeds that
the provider delivers with its payload, each once and in order; without a payload nothing is done.
While the value is found no deed is done: the machine stays as it was but for identities, counted
calls and properties that the reading finalizes. If the leaves give the same each time, there is
nothing else that the provider may deliver, and it delivers this again as long as the graph is left
so. A finalized property delivers what it keeps each time. -/
theorem get_does_what_is_delivered (hR : R.Computes) (hm : m.Minted) (hg : m.Twin R m)
    (hp : p.Twin R p) (hpm : p.Minted m.supply) :
    (∃ r n, (Ask.value p .strict).run.run engine m = some (r, n) ∧ m.Consulted n ∧
      n.stack = m.stack ∧
      (∀ v, r = .ok v → p.Delivers m v.delivery ∧ p.Gets m v.delivery n ∧
        (R.Steady → (∀ d, p.Delivers m d → d = v.delivery) ∧
          ∀ N, n.Ripens N → N.stack = m.stack →
            ∃ o, N.Evolves o ∧ o.stack = N.stack ∧ p.Gets N v.delivery o)) ∧
      ∀ f, r = .error f → (Ask.get p).run.run engine m = some (.error f, n) ∧
        (Ask.get? p).run.run engine m = some (.error f, n)) ∧
    ∀ N (r : PropertyRef) q w t, (N.property r.id).Keeps q w →
      N.stack.enterAll ((Provider.property r).owner :: q.keptScopes) = .ok t →
      (Provider.property r).Gets N w.delivery N := by
  refine ⟨?_, fun N r q w t hk ht => hk.gets ht⟩
  obtain ⟨r, n, hrun, hn, hmn, hs, hread⟩ := (hp.answers hR hm hg (.refl m)).value .strict
  refine ⟨r, n, hrun, hn, hs, ?_, ?_⟩
  · rintro v rfl
    obtain ⟨hdelivers, hrereads⟩ := hread v rfl
    refine ⟨hdelivers, Provider.gets_of_run_value hrun, fun hsteady => ⟨?_, ?_⟩⟩
    · intro d hd
      exact hdelivers.unique hsteady hm hg hp hd
    · intro N hN hsN
      have hle : m.supply ≤ N.supply := Nat.le_trans hn.supply_le hN.supply_le
      have hframes : ∀ o ∈ N.stack.frames, o.id < N.supply := by
        intro o ho
        rw [hsN] at ho
        exact Nat.lt_of_lt_of_le (hm.frames o ho) hle
      have hrecurs := Provider.Recurs.self (hpm.mono hle) hframes hN
      rw [hsN] at hrecurs
      obtain ⟨o, hagain, ho, hs'⟩ := hrereads rfl hsteady N.supply N p hrecurs
      exact ⟨o, ho, hs', Provider.gets_of_run_value hagain⟩
  · rintro f rfl
    exact run_get_of_error hrun

/-! ### Fixed graphs -/

/-- A flat map over a leaf, with effects on the base and on what is chosen. -/
def chosenWithEffects : Provider :=
  .flatMap 4 (.withEffect 3 (.changing 2 .int none ⟨1, givingCalls, none⟩) (.deed (.record "base")))
    (.withEffect (.result (.compute fun x => .ok (x.add x))) (.deed (.record "chosen"))) .int

def chosenDeeds : List (Action × Payload) :=
  [(.record "chosen", .int 2), (.record "base", .int 1)]

def effectful : Provider :=
  .withEffect 5 (.property ⟨0, .int, some "p"⟩) (.deed (.record "last"))

/-- A machine on which the property holds the flat map, and is finalized by the first reading. -/
def effectfulMachine : Machine :=
  { Machine.fresh 8 with supply := 6 }.setProperty 0
    (Property.blank.setValue chosenWithEffects).markFinalizeOnRead

def effectfulRegion : Region :=
  ⟨(· = 0), fun _ => False, fun _ => False, fun code code' => code = givingCalls ∧ code' = code⟩

/-- The leaf of the region computes a payload. -/
theorem effectfulRegion_computes : effectfulRegion.Computes := by
  rintro _ _ ⟨rfl, rfl⟩ n
  exact .compute _

/-- The leaf of the region gives the same each time. -/
theorem effectfulRegion_steady : effectfulRegion.Steady := by
  rintro _ _ ⟨rfl, rfl⟩ held n
  rfl

/-- Only old identities are on the machine. -/
theorem effectfulMachine_minted : effectfulMachine.Minted where
  frames _ h := nomatch h
  providers _ _ h := nomatch h
  properties _ _ h := nomatch h
  effective i q h := by
    by_cases hi : i = 0
    · subst hi
      cases h
      show chosenWithEffects.Minted 6
      simp [chosenWithEffects, Provider.Minted]
    · rw [effectfulMachine, Machine.property_setProperty_of_ne _ hi] at h
      cases h

theorem chosenWithEffects_twin : chosenWithEffects.Twin effectfulRegion chosenWithEffects :=
  .flatMap 4 .int (.withEffect 3 _ (.changing 2 .int none ⟨rfl, rfl⟩))
    (.withEffect _ (.result (.compute _)))

/-- The machine holds twins of itself. -/
theorem effectfulMachine_twin : effectfulMachine.Twin effectfulRegion effectfulMachine where
  effective := by
    rintro _ rfl
    exact .some chosenWithEffects_twin
  providers _ h := h.elim
  properties _ h := h.elim

theorem effectful_twin : effectful.Twin effectfulRegion effectful := .withEffect 5 _ (.property rfl)

theorem effectful_minted : effectful.Minted effectfulMachine.supply :=
  ⟨Nat.lt_succ_self 5, Nat.succ_pos 5⟩

/-- What is chosen comes first, and the effect behind the property last. The second reading does the
same again, after the property was finalized by the first one. -/
theorem get_does_what_is_delivered_effectful :
    effectfulRegion.Computes ∧ effectfulRegion.Steady ∧ effectfulMachine.Minted ∧
    effectfulMachine.Twin effectfulRegion effectfulMachine ∧
    effectful.Twin effectfulRegion effectful ∧ effectful.Minted effectfulMachine.supply ∧
    ∃ d n o, d = some (.int 2, chosenDeeds ++ [(.record "last", .int 2)]) ∧
      effectful.Delivers effectfulMachine d ∧ effectful.Gets effectfulMachine d n ∧
      effectful.Gets n d o ∧
      (Provider.property ⟨0, .int, some "p"⟩).Gets n (some (.int 2, chosenDeeds)) n := by
  refine ⟨effectfulRegion_computes, effectfulRegion_steady, effectfulMachine_minted,
    effectfulMachine_twin, effectful_twin, effectful_minted, ?_⟩
  have hvalue : ∃ v n q w t,
      (Ask.value effectful .strict).run.run engine effectfulMachine = some (.ok v, n) ∧
      v.delivery = some (.int 2, chosenDeeds ++ [(.record "last", .int 2)]) ∧
      (n.property 0).Keeps q w ∧
      n.stack.enterAll ((Provider.property ⟨0, .int, some "p"⟩).owner :: q.keptScopes) = .ok t ∧
      w.delivery = some (.int 2, chosenDeeds) :=
    ⟨_, _, _, _, _, Eval.run_engine_of_answer 9 rfl, rfl, ⟨rfl, rfl, rfl⟩, rfl, rfl⟩
  obtain ⟨v, n, q, w, t, hrun, hd, hkeeps, ht, hw⟩ := hvalue
  obtain ⟨⟨r, n', hrun', -, hs, hfound, -⟩, hkept⟩ := get_does_what_is_delivered
    effectfulRegion_computes effectfulMachine_minted effectfulMachine_twin effectful_twin
    effectful_minted
  cases hrun.symm.trans hrun'
  obtain ⟨hdelivers, hgets, hagain⟩ := hfound v rfl
  obtain ⟨o, -, -, hgets'⟩ := (hagain effectfulRegion_steady).2 n (.refl n) hs
  have hproperty := hkept n ⟨0, .int, some "p"⟩ q w t hkeeps ht
  rw [hw] at hproperty
  exact ⟨_, n, o, hd, hdelivers, hgets, hgets', hproperty⟩

/-- A provider that falls back to a payload with an effect. -/
def withFallback (left : Provider) : Provider :=
  .orElse 5 left (.withEffect 4 (.fixed 3 (.int 5)) (.deed (.record "b")))

/-- A property with an effect that clears the property, and a fallback. -/
def selfClearing : Provider :=
  withFallback (.withEffect 2 (.property ⟨0, .int, none⟩)
    (.both (.deed (.record "a")) (.deed (.perform (.property "x" .unset)))))

/-- Calls of which only the first gives a payload. -/
def givingOnce : Nat → Action
  | 0 => .compute fun _ => .ok (some (.int 1))
  | _ + 1 => .compute fun _ => .ok none

/-- A leaf that makes these calls, with an effect and a fallback. -/
def spent : Provider :=
  withFallback (.withEffect 7 (.changing 6 .int none ⟨6, givingOnce, none⟩) (.deed (.record "a")))

/-- A leaf without a payload that reads something with an effect. -/
def meddling : Provider :=
  .changing 8 .int none ⟨8, fun _ => .andThen
    (.inquire .get (.withEffect (.fixed (.int 1)) (.deed (.record "a"))))
    (.compute fun _ => .ok none), none⟩

/-- A machine with the property in a register. It holds a fixed payload. -/
def looseMachine : Machine :=
  ({ Machine.fresh 8 with supply := 9 }.setProperty 0
    (Property.blank.setValue (.fixed 1 (.int 1)))).keepProperty "x" ⟨0, .int, none⟩

def looseRegion : Region := ⟨(· = 0), fun _ => False, fun _ => False, fun _ _ => True⟩

theorem withFallback_twin {left : Provider} (h : left.Twin looseRegion left) :
    (withFallback left).Twin looseRegion (withFallback left) :=
  .orElse 5 h (.withEffect 4 _ (.fixed 3 _))

/-- Deeds may change the graph and leaves may give something else when they are called again, so the
second time another effect runs. And what a leaf does when it is called may have effects of its
own, also where nothing is found. -/
theorem second_get_may_differ :
    looseMachine.Twin looseRegion looseMachine ∧ selfClearing.Twin looseRegion selfClearing ∧
    spent.Twin looseRegion spent ∧ meddling.Twin looseRegion meddling ∧
    (∃ n n', (Ask.get selfClearing).run.run engine looseMachine = some (.ok (.int 1), n) ∧
      (Ask.get selfClearing).run.run engine n = some (.ok (.int 5), n') ∧
      n.events = [.reply .done, .note "a(1)"] ∧ n'.events = [.note "b(5)"] ++ n.events) ∧
    (∃ n n', (Ask.get spent).run.run engine looseMachine = some (.ok (.int 1), n) ∧
      (Ask.get spent).run.run engine n = some (.ok (.int 5), n') ∧
      n.events = [.note "a(1)"] ∧ n'.events = [.note "b(5)"] ++ n.events) ∧
    ∃ n, (Ask.get? meddling).run.run engine looseMachine = some (.ok none, n) ∧
      n.events = [.note "a(1)"] := by
  refine ⟨⟨?_, fun _ h => h.elim, fun _ h => h.elim⟩,
    withFallback_twin (.withEffect 2 _ (.property rfl)),
    withFallback_twin (.withEffect 7 _ (.changing 6 .int none trivial)),
    .changing 8 .int none trivial, ?_, ?_, ?_⟩
  · rintro _ rfl
    exact .some (.fixed 1 (.int 1))
  · exact ⟨_, _, Eval.run_engine_of_answer 9 rfl, Eval.run_engine_of_answer 9 rfl, rfl, rfl⟩
  · exact ⟨_, _, Eval.run_engine_of_answer 9 rfl, Eval.run_engine_of_answer 9 rfl, rfl, rfl⟩
  · exact ⟨_, Eval.run_engine_of_answer 9 rfl, rfl⟩

end ProviderGraph
