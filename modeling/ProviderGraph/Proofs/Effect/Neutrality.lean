import ProviderGraph.Proofs.DepthLimit.ShownRefusals
import ProviderGraph.Proofs.Effect.MirroredRules

/-!
# Effects cannot be observed

Values, presence, producers and classifications of an acyclic graph are those of the graph without
effects (`effects_are_neutral`). A property keeps the value that it is finalized with next to its
effect, so finalizations of both graphs go side by side as well.
-/

namespace ProviderGraph

variable {ρ σ : Pairing} {m a a' b b' : Machine} {p q : Provider} {r : PropertyRef} {k : Nat}

/-! ### Finalization -/

/-- Without effects a property is finalized by the same readings. -/
theorem Property.Strips.mustFinalize_eq {s s' : Property} (h : s.Strips ρ s') (c : Reading) :
    s'.mustFinalize c = s.mustFinalize c := by
  cases c <;> simp [Property.mustFinalize, h.finalized, h.finalizeOnRead]

/-- Providers that reproduce a value are built, with the effect or without it. -/
theorem Machine.Strips.exists_frozen (hs : a.Strips ρ b) (v : Outcome) (type : PayloadType) :
    ∃ σ a' b' p q,
      ((Classification.ofValue v).toProvider type).run engine a = some (p, a') ∧
      ((Classification.ofValue v.bare).toProvider type).run engine b = some (q, b') ∧
      Along ρ a b σ a' b' ∧ p.Strips σ q ∧ p.Frozen a.supply a'.supply := by
  have hab := Along.fresh hs
  have hself := ρ.add_self a.supply b.supply
  have hlo := Nat.le_refl a.supply
  have hhi := Nat.lt_succ_self a.supply
  cases v with
  | missing path =>
    exact ⟨_, _, _, _, _, rfl, rfl, hab, .undefined hself type path, .undefined hlo hhi type path⟩
  | present x e =>
    cases e with
    | none => exact ⟨_, _, _, _, _, rfl, rfl, hab, .fixed hself x, .fixed hlo hhi x⟩
    | some e =>
      exact ⟨_, _, _, _, _, rfl, rfl, hab.trans (.freshLeft hab.strips),
        .withEffect _ e (.fixed hself x), .withEffect hlo hhi (Nat.lt_succ_self _) x e⟩

/-- A property keeps a value, with the effect or without it. -/
theorem Mirrors.keep (hs : a.Strips ρ b) (v : Outcome) (type : PayloadType) (i : Identity)
    (u : Producer) :
    Mirrors ρ a b
      (do
        let p ← (Classification.ofValue v).toProvider type
        updateProperty i (·.commit p u) : Attempt Unit)
      (do
        let p ← (Classification.ofValue v.bare).toProvider type
        updateProperty i (·.commit p u)) fun _ _ _ => True := by
  obtain ⟨σ, a', b', p, q, hx, hy, hab, hpq, hp⟩ := hs.exists_frozen v type
  rw [Mirrors, Eval.run_lift_bind, Eval.run_lift_bind]
  exact .of_run ((Eval.run_bind_of hx _).trans rfl) ((Eval.run_bind_of hy _).trans rfl)
    (hab.commit hpq hp i u) (.ok trivial)

section Properties

variable (hm : m.Minted) (ih : m.MirrorsBelow k) (hk : a.stack.room ≤ k) (hs : a.Strips ρ b)
  (hp : (Provider.property r).Ready m a) (hid : ρ r.id r.id)

include hm ih hk hs hp hid

/-- A property is finalized on both machines. -/
theorem Mirrors.finalize :
    Mirrors ρ a b (Ask.finalize r) (Ask.finalize r) fun _ _ _ => True := by
  have hopen := hp.not_isOpen
  refine Eval.Mirrors.ask (Mirrors.property_bind hs ?_)
  rw [(hs.property r.id).finalized]
  split
  · exact .pure hs trivial
  rcases hs.effective_cases r.id with ⟨hq, hq'⟩ | ⟨q, q', hq, hq', hqq'⟩ <;> rw [hq, hq'] <;>
    simp only [computeFrozen, bind_assoc, pure_bind]
  · exact .keep hs (.missing []) r.type r.id .none
  · refine .bind (.part ih hk hs hopen (fun t ht => hp.held hm hq rfl ht) hqq' hid
      fun _ _ h => h.producer) fun σ a' b' u u' _ hab h => ?_
    subst h
    -- The property may have been finalized meanwhile, but `q` is what is read.
    have hready (t : ScopeStack) (ht : a'.stack.enter (Provider.property r).owner = .ok t) :
        q.Ready m { a' with stack := t } :=
      (hp.held hm hq rfl (hab.left_stack ▸ ht)).later (hab.grows.scopes t t) rfl
    refine .bind (.partLater ih hk hopen hab hready (hqq'.mono hab.within) hid
      fun _ _ h => h.value .strict) fun τ a'' b'' v w _ hab' h => ?_
    subst h
    exact .keep hab'.strips v r.type r.id u

theorem Mirrors.finalizeFor (c : Reading) :
    Mirrors ρ a b (finalizeFor r c) (finalizeFor r c) fun _ _ _ => True := by
  refine .property_bind hs ?_
  rw [(hs.property r.id).mustFinalize_eq]
  split
  · exact .finalize hm ih hk hs hp hid
  · exact .pure hs trivial

/-- A property is mirrored by itself on the bare machine. -/
theorem Provider.mirrored_property :
    (Provider.property r).Mirrored ρ a b (.property r) := by
  have hopen := hp.not_isOpen
  refine .of_rules rfl (fun c => ?_) (fun c => ?_) ?_ ?_
  · refine .bind (.finalizeFor hm ih hk hs hp hid c) fun σ a' b' _ _ _ hab _ => ?_
    refine .property_bind hab.strips ?_
    rcases hab.strips.effective_cases r.id with ⟨hq, hq'⟩ | ⟨q, q', hq, hq', hqq'⟩ <;> rw [hq, hq']
    · exact .pure hab.strips rfl
    · have hp' := hp.later hab.grows hab.left_stack
      exact .partLater ih hk hopen hab (fun t ht => hp'.held hm hq rfl ht) hqq' hid
        fun _ _ h => h.value c
  · refine .property_bind hs ?_
    rcases hs.effective_cases r.id with ⟨hq, hq'⟩ | ⟨q, q', hq, hq', hqq'⟩ <;> rw [hq, hq']
    · exact .pure hs rfl
    · exact .part ih hk hs hopen (fun t ht => hp.held hm hq rfl ht) hqq' hid
        fun _ _ h => h.presence c
  · refine .property_bind hs ?_
    rw [(hs.property r.id).attached, (hs.property r.id).frozenProducer]
    rcases hs.effective_cases r.id with ⟨hq, hq'⟩ | ⟨q, q', hq, hq', hqq'⟩ <;> rw [hq, hq'] <;>
      cases (a.property r.id).frozenProducer
    · exact .pure hs rfl
    · exact .pure hs rfl
    · refine .bind (.part ih hk hs hopen (fun t ht => hp.held hm hq rfl ht) hqq' hid
        fun _ _ h => h.producer) fun σ a' b' u u' _ hab h => ?_
      subst h
      exact .pure hab.strips rfl
    · exact .pure hs rfl
  · refine .property_bind hs ?_
    rcases hs.effective_cases r.id with ⟨hq, hq'⟩ | ⟨q, q', hq, hq', hqq'⟩ <;> rw [hq, hq']
    · exact .pure hs (.missing [])
    · exact .part ih hk hs hopen (fun t ht => hp.held hm hq rfl ht) hqq' hid
        fun _ _ h => h.classification

end Properties

/-! ### All providers -/

/-- On machines that correspond, providers that correspond are answered alike. -/
theorem Provider.Ready.mirrored (hm : m.Minted) (hs : a.Strips ρ b) (hp : p.Ready m a)
    (hpq : p.Strips ρ q) : p.Mirrored ρ a b q := by
  generalize hk : a.stack.room = k
  induction k using Nat.strongRecOn generalizing ρ a b p q with
  | ind k ih =>
    have below : m.MirrorsBelow k := fun ρ a b p q hs hp hpq hlt => ih _ hlt hs hp hpq rfl
    have hk := Nat.le_of_eq hk
    cases hpq with
    | fixed hid x => exact mirrored_fixed hs x
    | undefined hid type path => exact mirrored_undefined hs type path
    | changing hid type node c c' code held =>
      have hlives := hp.lives_of fun _ _ h => by cases h
      obtain ⟨r, hr⟩ : ∃ r, (⟨c, code, held⟩ : Calls).Steady r := hlives.plain.plain
      exact mirrored_changing hs hr type node
    | map hid f type h => exact mirrored_map hm below hk hs hp hid h
    | flatMap hid choice type h => exact mirrored_flatMap hm below hk hs hid h hp
    | orElse hid hl hr => exact mirrored_orElse below hk hs hp hid hl hr
    | withEffect i e h => exact mirrored_withEffect below hk hs hp h
    | named hid name h => exact mirrored_named below hk hs hp hid h
    | property hid => exact mirrored_property hm below hk hs hp hid
    | custom hid form producer c c' e =>
      have hlives := hp.lives_of fun _ _ h => by cases h
      exact hlives.plain.plain.elim

/-- A limit that is met while a value is asked for is met while the question is answered. -/
theorem Ask.meetsLimit_of_value {c : Reading} (h : (Ask.value p c).run.MeetsLimit m) :
    (Query.ownValue p c).MeetsLimit m := by
  rcases (Eval.meetsLimit_bind _ _).mp h with h | ⟨⟨v, n⟩, -, h⟩
  · exact Eval.meetsLimit_ask.mp h
  · cases v <;> exact (Eval.not_meetsLimit_pure _ h).elim

/-- A computation that does not meet the limit ends as the one that mirrors it. -/
theorem Eval.Mirrors.exists_runs {α β : Type} {x : Eval α} {y : Eval β}
    {P : Pairing → α → β → Prop} (h : Eval.Mirrors ρ a b x y P) (hx : ¬ x.MeetsLimit a) :
    ∃ σ v w n n', x.run engine a = some (v, n) ∧ y.run engine b = some (w, n') ∧ P σ v w := by
  obtain ⟨σ, v, w, n, n', hx, hy, -, hP⟩ := h.resolve_left hx
  exact ⟨σ, v, w, n, n', hx, hy, hP⟩

/-- Effects cannot be observed by reading. On an acyclic graph of plain providers, of which none is
open at the start, take every effect off, also off the providers that flat maps choose. The value is
the same but for its effect, whichever way it is read: the same payload, the same path of names or
the same fault. So are presence and producers, and the classification is of the same kind with the
same payload or path. This is so as long as no scope is refused for the depth limit; the graph
without effects opens no others. -/
theorem effects_are_neutral (hm : m.Minted) (hp : p.Minted m.supply)
    (hplain : p.AllPlain m .lenient) (hacyclic : p.Acyclic m)
    (hopen : ∀ q, p.Reaches m q → m.stack.isOpen q.id = false) :
    (∀ c, ¬ (Query.ownValue p c).MeetsLimit m → ∃ r n n',
      (Ask.value p c).run.run engine m = some (r, n) ∧
      (Ask.value p.bare c).run.run engine m.bare = some (r.map Value.bare, n')) ∧
    (∀ c, ¬ (Query.presence p c).MeetsLimit m → ∃ r n n',
      (Ask.presence p c).run.run engine m = some (r, n) ∧
      (Ask.presence p.bare c).run.run engine m.bare = some (r, n')) ∧
    (¬ (Query.producer p).MeetsLimit m → ∃ r n n',
      (Ask.producer p).run.run engine m = some (r, n) ∧
      (Ask.producer p.bare).run.run engine m.bare = some (r, n')) ∧
    (¬ (Query.classification p).MeetsLimit m → ∃ σ r r' n n',
      (Ask.classification p).run.run engine m = some (r, n) ∧
      (Ask.classification p.bare).run.run engine m.bare = some (r', n') ∧
      SameResult (Classification.Strips σ) r r') := by
  have hbare : p.Strips (fun i j => i = j ∧ i < m.supply) p.bare := .bare hp fun _ h => ⟨rfl, h⟩
  have hready : p.Ready m m := .lives (.start hm hp hplain hacyclic hopen)
  have hmirrored := hready.mirrored hm hm.strips hbare
  refine ⟨fun c hc => ?_, fun c hc => ?_, fun hc => ?_, fun hc => ?_⟩
  · obtain ⟨σ, r, r', n, n', hr, hr', h⟩ :=
      (hmirrored.value c).exists_runs fun h => hc (Ask.meetsLimit_of_value h)
    refine ⟨r, n, n', hr, hr'.trans ?_⟩
    cases h with
    | ok h => rw [h]; rfl
    | error f => rfl
  · obtain ⟨σ, r, r', n, n', hr, hr', h⟩ :=
      (hmirrored.presence c).exists_runs fun h => hc (Eval.meetsLimit_ask.mp h)
    exact ⟨r, n, n', hr, h.eq ▸ hr'⟩
  · obtain ⟨σ, r, r', n, n', hr, hr', h⟩ :=
      hmirrored.producer.exists_runs fun h => hc (Eval.meetsLimit_ask.mp h)
    exact ⟨r, n, n', hr, h.eq ▸ hr'⟩
  · exact hmirrored.classification.exists_runs fun h => hc (Eval.meetsLimit_ask.mp h)

/-! ### A property behind a flat map -/

def readProperty : Provider := .property ⟨0, .int, some "p"⟩

def announcedChoice : Provider :=
  .flatMap 6 readProperty (.withEffect (.fixed (.int 2)) (.deed (.record "chosen"))) .int

/-- The flat map stands in for something named that has no value. -/
def announcedFallback : Provider :=
  .orElse 7 (.named 5 (.undefined 4 .int []) "absent") announcedChoice

def announced : Provider := .property ⟨3, .int, none⟩

/-- The first property reads from a payload with an effect, the second one from the fallback, and a
work node produces the second. -/
def announcedMachine : Machine :=
  { Machine.fresh 8 with
    supply := 8
    properties := [
      (0, { Property.blank with
        value := some (.withEffect 2 (.fixed 1 (.int 1)) (.deed (.record "read")))
        finalizeOnRead := true }),
      (3, { Property.blank with value := some announcedFallback, attached := some "build" })] }

def announcedNodes : List Provider :=
  [announced, announcedFallback, .named 5 (.undefined 4 .int []) "absent", .undefined 4 .int [],
    announcedChoice, readProperty, .withEffect 2 (.fixed 1 (.int 1)) (.deed (.record "read")),
    .fixed 1 (.int 1)]

/-- What may come up in an evaluation: the providers of the graph and what the flat map chooses. -/
inductive AnnouncedPart : Provider → Prop where
  | node {q : Provider} (h : q ∈ announcedNodes) : AnnouncedPart q
  | payload : AnnouncedPart (.fixed 8 (.int 2))
  | chosen : AnnouncedPart (.withEffect 8 (.fixed 8 (.int 2)) (.deed (.record "chosen")))
  | behind (e : Effect) : AnnouncedPart
    (.withEffect 8 (.withEffect 8 (.fixed 8 (.int 2)) (.deed (.record "chosen"))) e)
  | absent : AnnouncedPart (.undefined 8 .int [])

theorem property_announcedMachine {i : Identity} (h : i ≠ 0) (h' : i ≠ 3) :
    announcedMachine.property i = .blank := by
  simp [announcedMachine, Machine.property, Table.find?, List.lookup_cons, beq_false_of_ne h,
    beq_false_of_ne h']

theorem effective_announcedMachine {i : Identity}
    (h : (announcedMachine.property i).effective = some q) :
    i = 0 ∧ q = .withEffect 2 (.fixed 1 (.int 1)) (.deed (.record "read")) ∨
      i = 3 ∧ q = announcedFallback := by
  by_cases h₀ : i = 0
  · subst h₀
    exact .inl ⟨rfl, (Option.some.inj h).symm⟩
  · by_cases h₃ : i = 3
    · subst h₃
      exact .inr ⟨rfl, (Option.some.inj h).symm⟩
    · simp [property_announcedMachine h₀ h₃] at h

/-- Only old identities are on the machine. -/
theorem announcedMachine_minted : announcedMachine.Minted where
  frames := by simp [announcedMachine, Machine.fresh, ScopeStack.empty]
  providers := by simp [announcedMachine, Machine.fresh]
  properties := by simp [announcedMachine, Machine.fresh]
  effective i q h := by
    rcases effective_announcedMachine h with ⟨-, rfl⟩ | ⟨-, rfl⟩
    · simp [announcedMachine, Provider.Minted]
    · simp [announcedMachine, announcedFallback, announcedChoice, readProperty, Provider.Minted]

/-- What the flat map goes on with, whatever effect is to follow. -/
theorem AnnouncedPart.of_chosen {x : Payload} {e : Option Effect}
    (h : Provider.chosen announcedMachine (.withEffect (.fixed (.int 2)) (.deed (.record "chosen")))
      .int x e = .ok q) : AnnouncedPart q := by
  obtain rfl := Except.ok.inj h
  cases e with
  | none => exact .chosen
  | some e => exact .behind e

/-- The parts of the graph lead to its parts. -/
theorem AnnouncedPart.leads {r : Provider} (hq : AnnouncedPart q)
    (hr : q.Leads announcedMachine r) : AnnouncedPart r := by
  have node {r : Provider} (h : r ∈ announcedNodes := by simp [announcedNodes]) : AnnouncedPart r :=
    .node h
  cases hq with
  | node hq =>
    simp only [announcedNodes, List.mem_cons, List.not_mem_nil, or_false] at hq
    rcases hq with rfl | rfl | rfl | rfl | rfl | rfl | rfl | rfl
    · cases hr with
      | property h =>
        obtain rfl := Option.some.inj h
        exact node
    · cases hr <;> exact node
    · cases hr
      exact node
    · exact nomatch hr
    · cases hr with
      | flatMap => exact node
      | chosen h => exact .of_chosen h
      | absent => exact .absent
    · cases hr with
      | property h =>
        obtain rfl := Option.some.inj h
        exact node
    · cases hr
      exact node
    · exact nomatch hr
  | payload | absent => exact nomatch hr
  | chosen =>
    cases hr
    exact .payload
  | behind e =>
    cases hr
    exact .chosen

/-- The parts are all that may come up. -/
theorem AnnouncedPart.of_reaches (h : announced.Reaches announcedMachine q) : AnnouncedPart q :=
  h.mem (.node (List.mem_cons_self ..)) fun _ _ hq hr => hq.leads hr

/-- Each part is plain to a lenient reading. -/
theorem AnnouncedPart.plain (h : AnnouncedPart q) : q.Plain announcedMachine .lenient := by
  cases h with
  | node h =>
    simp only [announcedNodes, List.mem_cons, List.not_mem_nil, or_false] at h
    rcases h with rfl | rfl | rfl | rfl | rfl | rfl | rfl | rfl
    any_goals trivial
    · exact .withEffect _ (.fixed _)
  | payload | chosen | behind | absent => trivial

/-- The graph is acyclic. -/
theorem announced_acyclic : announced.Acyclic announcedMachine where
  acc := by
    have fixed (j : Identity) (x : Payload) :
        Acc (fun r q => Provider.Leads announcedMachine q r) (.fixed j x) :=
      .intro _ fun r h => nomatch h
    have undefined (j : Identity) :
        Acc (fun r q => Provider.Leads announcedMachine q r) (.undefined j .int []) :=
      .intro _ fun r h => nomatch h
    have withEffect {j : Identity} {q : Provider} {e : Effect}
        (hq : Acc (fun r q => Provider.Leads announcedMachine q r) q) :
        Acc (fun r q => Provider.Leads announcedMachine q r) (.withEffect j q e) := by
      refine .intro _ fun r h => ?_
      cases h
      exact hq
    have source : Acc (fun r q => Provider.Leads announcedMachine q r) readProperty := by
      refine .intro _ fun r h => ?_
      cases h with
      | property h =>
        obtain rfl := Option.some.inj h
        exact withEffect (fixed _ _)
    have choice : Acc (fun r q => Provider.Leads announcedMachine q r) announcedChoice := by
      refine .intro _ fun r h => ?_
      cases h with
      | flatMap => exact source
      | absent => exact undefined _
      | @chosen _ _ _ _ _ _ e h =>
        obtain rfl := Except.ok.inj h
        cases e with
        | none => exact withEffect (fixed _ _)
        | some e => exact withEffect (withEffect (fixed _ _))
    refine .intro _ fun r h => ?_
    cases h with
    | property h =>
      obtain rfl := Option.some.inj h
      refine .intro _ fun r h => ?_
      cases h with
      | right => exact choice
      | left =>
        refine .intro _ fun r h => ?_
        cases h
        exact undefined _
  identified q r hq hr h hlt := by
    have old {q : Provider} (hq : AnnouncedPart q) (h : q.id < 8) : q ∈ announcedNodes := by
      cases hq with
      | node hq => exact hq
      | payload | chosen | behind | absent => exact absurd h (Nat.lt_irrefl 8)
    have hnodup : (announcedNodes.map Provider.id).Nodup := by decide
    exact List.inj_on_of_nodup_map hnodup (old (.of_reaches hq) hlt) (old (.of_reaches hr) (h ▸ hlt)) h

/-- All that the machine calls is plain computation. -/
theorem announcedMachine_calls : announcedMachine.CallsOnly fun a => ∃ f, a = .compute f where
  effective i q h := by
    rcases effective_announcedMachine h with ⟨-, rfl⟩ | ⟨-, rfl⟩
    · trivial
    · exact ⟨trivial, trivial, .withEffect _ (.fixed _)⟩
  providers name q h := by cases h

/-- The effect of the payload that the flat map chose is done first, then that of the payload that it
read. Without effects all is the same but for these. -/
theorem effects_are_neutral_announced :
    (∃ n n', (Ask.value announced .strict).run.run engine announcedMachine =
        some (.ok (.present (.int 2) (some (.both (.deed (.record "chosen"))
          (.bound (.int 1) (.deed (.record "read")))))), n) ∧
      (Ask.value announced.bare .strict).run.run engine announcedMachine.bare =
        some (.ok (.present (.int 2) none), n')) ∧
    (∃ n n', (Ask.presence announced .strict).run.run engine announcedMachine =
        some (.ok true, n) ∧
      (Ask.presence announced.bare .strict).run.run engine announcedMachine.bare =
        some (.ok true, n')) ∧
    (∃ n n', (Ask.producer announced).run.run engine announcedMachine =
        some (.ok (.node "build"), n) ∧
      (Ask.producer announced.bare).run.run engine announcedMachine.bare =
        some (.ok (.node "build"), n')) ∧
    ∃ n n', (Ask.classification announced).run.run engine announcedMachine =
        some (.ok (.fixed (.int 2) (some (.both (.deed (.record "chosen"))
          (.bound (.int 1) (.deed (.record "read")))))), n) ∧
      (Ask.classification announced.bare).run.run engine announcedMachine.bare =
        some (.ok (.fixed (.int 2) none), n') := by
  have unrefused {q : Query} {r : q.Answer} {n : Machine}
      (hq : (Terms.reading (fun a => ∃ f, a = .compute f) announcedMachine .strict).asks q)
      (h : answer 12 q announcedMachine = some (r, n)) (hok : q.failure? r = none)
      (hfallible : q.Fallible) : ¬ q.MeetsLimit announcedMachine :=
    Action.outside_compute.unrefused hq (announcedMachine_calls.holds .strict) hfallible r n
      (engine_of_answer h) hok
  obtain ⟨hvalue, hpresence, hproducer, hclassification⟩ :=
    effects_are_neutral (p := announced) announcedMachine_minted (by decide : 3 < 8)
      (fun _ h => (AnnouncedPart.of_reaches h).plain) announced_acyclic fun _ _ => rfl
  refine ⟨?_, ?_, ?_, ?_⟩
  · obtain ⟨r, n, n', hr, hr'⟩ := hvalue .strict
      (unrefused (q := .ownValue announced .strict) ⟨trivial, fun _ => .inl rfl⟩ rfl rfl trivial)
    cases hr.symm.trans (Eval.run_engine_of_answer 12 rfl)
    exact ⟨_, n', hr, hr'⟩
  · obtain ⟨r, n, n', hr, hr'⟩ := hpresence .strict
      (unrefused (q := .presence announced .strict) trivial rfl rfl trivial)
    cases hr.symm.trans (Eval.run_engine_of_answer 12 rfl)
    exact ⟨_, n', hr, hr'⟩
  · obtain ⟨r, n, n', hr, hr'⟩ := hproducer
      (unrefused (q := .producer announced) trivial rfl rfl trivial)
    cases hr.symm.trans (Eval.run_engine_of_answer 12 rfl)
    exact ⟨_, n', hr, hr'⟩
  · obtain ⟨σ, r, r', n, n', hr, hr', h⟩ := hclassification
      (unrefused (q := .classification announced) trivial rfl rfl trivial)
    cases hr.symm.trans (Eval.run_engine_of_answer 12 rfl)
    cases h with
    | ok h =>
      cases h
      exact ⟨_, n', hr, hr'⟩

end ProviderGraph
