import ProviderGraph.Proofs.Reference.EngineAgreement
import ProviderGraph.Proofs.Reference.Evaluator

/-!
# Scopes are transparent on acyclic graphs

Where no provider comes back to itself, the scopes only count: as long as there is room for them,
and none of the graph is open at the start, a value is what the reference evaluator finds.
-/

namespace ProviderGraph

namespace Provider

variable {m : Machine} {p q r : Provider} {s t : ScopeStack}

/-- No provider that may come up leads back to itself, and each has an identity of its own. -/
structure Acyclic (m : Machine) (p : Provider) : Prop where
  acc : Acc (fun r q => q.Leads m r) p
  identified : p.Identified m

/-- None of the old providers that may come up is open. -/
def Unopened (m : Machine) (s : ScopeStack) (p : Provider) : Prop :=
  ∀ q, p.Reaches m q → q.id < m.supply → s.isOpen q.id = false

/-- An acyclic provider leads to acyclic ones. -/
theorem Acyclic.leads (h : p.Acyclic m) (hq : p.Leads m q) : q.Acyclic m :=
  ⟨h.acc.inv hq, h.identified.leads hq⟩

/-- In an acyclic graph nothing leads back. -/
theorem not_leads_reaches_of_acc (h : Acc (fun r q => q.Leads m r) p) (hq : p.Leads m q) :
    ¬ q.Reaches m p := by
  induction h generalizing q with
  | intro p _ ih =>
    intro hp
    rcases Relation.ReflTransGen.cases_head hp with rfl | ⟨r, hr, hp⟩
    · exact ih q hq hq (.refl q)
    · exact ih q hq hr (hp.trans hq.reaches)

/-- What a provider leads to has another identity. -/
theorem Acyclic.ne_id (h : p.Acyclic m) (hq : p.Leads m q) (hr : q.Reaches m r)
    (hid : r.id < m.supply) : p.id ≠ r.id := by
  intro he
  obtain rfl := h.identified p r (.refl p) (hq.trans hr) he (he ▸ hid)
  exact not_leads_reaches_of_acc h.acc hq hr

/-- Below an acyclic provider nothing is open when its own scope is opened. -/
theorem Unopened.leads (h : p.Unopened m s) (hp : p.Acyclic m) {o : Owner} (ho : o.id = p.id)
    (ht : m.enter s o = .ok t) (hq : p.Leads m q) : q.Unopened m t := by
  intro r hr hid
  obtain ⟨-, -, rfl⟩ := Machine.enter_eq_ok_iff.mp ht
  rw [ScopeStack.isOpen, List.any_cons, Bool.or_eq_false_iff, ho]
  exact ⟨beq_false_of_ne (hp.ne_id hq hr hid), h r (hq.trans hr) hid⟩

/-- A provider that is not open can be entered where there is room. -/
theorem Unopened.exists_enter (h : p.Unopened m s) {o : Owner} (ho : o.id = p.id)
    (hs : s.depth < s.limit) : ∃ t, m.enter s o = .ok t :=
  Machine.exists_enter (fun hid => ho ▸ h p (.refl p) (ho ▸ hid)) hs

end Provider

namespace Machine

variable {m : Machine} {p : Provider} {s t : ScopeStack} {n : Nat}

/-- With room for all levels the text is the one without scopes. -/
theorem text_eq_of_described {label u : String} (h : m.described n p = some u)
    (hp : p.Acyclic m) (hs : p.Unopened m s) (hroom : s.depth + n ≤ s.limit) :
    m.text p label s = u := by
  induction n generalizing p s label u with
  | zero => exact nomatch h
  | succ n ih =>
    obtain ⟨t, ht⟩ := hs.exists_enter (o := ⟨p.id, label⟩) rfl (by omega)
    rw [text_of_enter m ht]
    refine describe_of_describe h fun q u hq hu => ih hu (hp.leads hq) (hs.leads hp rfl ht hq) ?_
    rw [depth_of_enter ht, limit_of_enter ht]
    omega

/-- With room for it an answer at rest is that of the reference evaluator. -/
theorem atRest_eq_of_reference {d : Demand} {r : Except Fault d.Answer}
    (h : m.reference n d = some r) (hp : d.provider.Acyclic m) (hs : d.provider.Unopened m s)
    (hroom : s.depth + n ≤ s.limit) : m.atRest d s = r := by
  induction n generalizing d s with
  | zero => exact nomatch h
  | succ n ih =>
    obtain ⟨r', hr', h⟩ := Option.bind_eq_some_iff.mp h
    obtain ⟨t, ht⟩ := hs.exists_enter (o := d.provider.owner) rfl (by omega)
    rw [atRest_eq]
    have hrun : (d.agenda m).run (m.asked d.provider.owner s) = r' := by
      refine Agenda.run_of_run? hr' fun d' a hd ha => ?_
      have hq := Provider.leads_of_asks hd
      rw [asked_of_enter ht]
      refine ih ha (hp.leads hq) (hs.leads hp rfl ht hq) ?_
      rw [depth_of_enter ht, limit_of_enter ht]
      omega
    rw [hrun]
    exact blame_of_blame? h fun u hu => text_eq_of_described hu hp hs hroom

end Machine

/-- On an acyclic graph of plain providers, of which none is open at the start, the value of a
provider is that of the reference evaluator: the same payload with the same effect, the same path
of names or the same fault, whichever way it is read. The reference evaluator has a value, and the
levels that it takes are room enough. -/
theorem value_eq_reference {m : Machine} {p : Provider} {c : Reading} (hm : m.Minted)
    (hp : p.Minted m.supply) (hplain : p.AllPlain m c) (hacyclic : p.Acyclic m)
    (hopen : ∀ q, p.Reaches m q → m.stack.isOpen q.id = false) :
    (∃ n, (m.referenceValue n p).run.isSome) ∧
      ∀ n r, (m.referenceValue n p).run = some r → m.stack.depth + n ≤ m.stack.limit →
        ∃ m', (Ask.value p c).run.run engine m = some (r, m') ∧
          m.Evolves m' ∧ m'.stack = m.stack := by
  refine ⟨?_, fun n r hr hroom => ?_⟩
  · obtain ⟨n, r, hr⟩ := Machine.exists_reference (d := .value p) hacyclic.acc
    exact ⟨n, by rw [Machine.referenceValue_eq hplain, hr]; rfl⟩
  · rw [Machine.referenceValue_eq hplain] at hr
    obtain ⟨v, hv, rfl⟩ := Option.map_eq_some_iff.mp hr
    obtain ⟨m', hrun, hm'⟩ := run_value hm hp hplain
    refine ⟨m', ?_, hm'⟩
    rw [hrun, Machine.atRest_eq_of_reference hv hacyclic (fun q hq _ => hopen q hq) hroom]

/-- A machine with a property that is set to a payload, or is not set. -/
def propertyMachine (x? : Option Payload) : Machine :=
  { Machine.fresh 8 with
    supply := 6
    properties := [(0, { Property.blank with value := x?.map (.fixed 5) })] }

/-- The property, doubled, where something named has no value. -/
def doubledFallback : Provider :=
  .orElse 4 (.named 2 (.undefined 1 .int ["u"]) "n")
    (.map 3 (.property ⟨0, .int, some "x"⟩) ⟨.compute fun y => .ok (y.add y), none⟩ .int)

/-- What may come up in an evaluation of the fallback. -/
inductive FallbackPart (x? : Option Payload) : Provider → Prop where
  | whole : FallbackPart x? doubledFallback
  | named : FallbackPart x? (.named 2 (.undefined 1 .int ["u"]) "n")
  | undefined : FallbackPart x? (.undefined 1 .int ["u"])
  | doubled : FallbackPart x?
    (.map 3 (.property ⟨0, .int, some "x"⟩) ⟨.compute fun y => .ok (y.add y), none⟩ .int)
  | property : FallbackPart x? (.property ⟨0, .int, some "x"⟩)
  | held {x : Payload} (h : x? = some x) : FallbackPart x? (.fixed 5 x)

section Fallback

variable {x? : Option Payload} {q r : Provider}

theorem property_propertyMachine (i : Identity) (hi : i ≠ 0) :
    (propertyMachine x?).property i = .blank := by
  simp [propertyMachine, Machine.property, Table.find?, List.lookup_cons, beq_false_of_ne hi]

/-- A property of the machine holds the payload, if it holds anything. -/
theorem exists_held_of_effective {i : Identity}
    (h : ((propertyMachine x?).property i).effective = some q) :
    ∃ x, x? = some x ∧ .fixed 5 x = q := by
  by_cases hi : i = 0
  · subst hi
    cases x? with
    | none => exact nomatch h
    | some x => exact ⟨x, rfl, Option.some.inj h⟩
  · simp [property_propertyMachine i hi] at h

/-- Only old identities are on the machine. -/
theorem propertyMachine_minted : (propertyMachine x?).Minted where
  frames := by simp [propertyMachine, Machine.fresh, ScopeStack.empty]
  providers := by simp [propertyMachine, Machine.fresh]
  properties := by simp [propertyMachine, Machine.fresh]
  effective i q h := by
    obtain ⟨x, -, rfl⟩ := exists_held_of_effective h
    exact (by decide : 5 < 6)

/-- The parts are all that may come up. -/
theorem FallbackPart.of_reaches (h : doubledFallback.Reaches (propertyMachine x?) q) :
    FallbackPart x? q := by
  refine h.mem .whole fun q r hq hr => ?_
  cases hq with
  | whole =>
    cases hr with
    | left => exact .named
    | right => exact .doubled
  | named =>
    cases hr
    exact .undefined
  | doubled =>
    cases hr
    exact .property
  | property =>
    cases hr with
    | property h =>
      obtain ⟨x, hx, rfl⟩ := exists_held_of_effective h
      exact .held hx
  | undefined | held => exact nomatch hr

/-- Each part is plain. -/
theorem FallbackPart.plain (h : FallbackPart x? q) : q.Plain (propertyMachine x?) .strict := by
  cases h with
  | doubled => exact .compute _
  | property => cases x? <;> rfl
  | whole | named | undefined | held => trivial

/-- The fallback is acyclic. -/
theorem doubledFallback_acyclic : doubledFallback.Acyclic (propertyMachine x?) where
  acc := by
    have property : Acc (fun r q => Provider.Leads (propertyMachine x?) q r)
        (Provider.property ⟨0, .int, some "x"⟩) := by
      refine .intro _ fun q h => ?_
      cases h with
      | property h =>
        obtain ⟨x, -, rfl⟩ := exists_held_of_effective h
        exact .intro _ fun q h => nomatch h
    refine .intro _ fun q h => ?_
    cases h with
    | left =>
      refine .intro _ fun q h => ?_
      cases h
      exact .intro _ fun q h => nomatch h
    | right =>
      refine .intro _ fun q h => ?_
      cases h
      exact property
  identified q r hq hr h _ := by
    cases FallbackPart.of_reaches hq <;> cases FallbackPart.of_reaches hr <;>
      simp_all [Provider.id, doubledFallback]

end Fallback

/-- With the property set the fallback doubles it. Without it the names of the left side stand in
front of those of the right side. -/
theorem value_eq_reference_doubledFallback :
    (∃ m', (Ask.value doubledFallback .strict).run.run engine (propertyMachine (some (.int 1))) =
      some (.ok (.present (.int 2) none), m')) ∧
    ∃ m', (Ask.value doubledFallback .strict).run.run engine (propertyMachine none) =
      some (.ok (.missing ["n", "u", "x"]), m') := by
  have value {x? : Option Payload} {r : Except Fault Outcome}
      (hr : ((propertyMachine x?).referenceValue 4 doubledFallback).run = some r) :
      ∃ m', (Ask.value doubledFallback .strict).run.run engine (propertyMachine x?) =
        some (r, m') := by
    obtain ⟨m', hrun, -⟩ := (value_eq_reference propertyMachine_minted (p := doubledFallback)
      ⟨(by decide : 4 < 6), ⟨(by decide : 2 < 6), (by decide : 1 < 6)⟩, (by decide : 3 < 6),
        (by decide : 0 < 6)⟩
      (fun q hq => (FallbackPart.of_reaches hq).plain) doubledFallback_acyclic
      (fun _ _ => rfl)).2 4 r hr (show 0 + 4 ≤ 8 by decide)
    exact ⟨m', hrun⟩
  exact ⟨value rfl, value rfl⟩

end ProviderGraph
