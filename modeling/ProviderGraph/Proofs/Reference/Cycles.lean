import ProviderGraph.Proofs.Graph.WiredGraphs
import ProviderGraph.Proofs.Reference.EngineAgreement
import ProviderGraph.Proofs.Reference.Evaluator
import ProviderGraph.Proofs.Reference.Walks
import ProviderGraph.Proofs.Scope.Frames

/-!
# Cycles are found

On a wired graph every query ends. Where the limit leaves room for two scopes to each node, a query
ends in a cycle if and only if its walk comes back to a provider on its path: the open scopes are
the path, and the depth that is left does not run out before the nodes do.
-/

namespace ProviderGraph

variable {m : Machine} {nodes path : List Provider} {p q : Provider} {s s₀ t : ScopeStack}

open Provider (Inside)

/-! ### Room -/

/-- The identities of the nodes that are not open. -/
def unopened (nodes : List Provider) (s : ScopeStack) : Finset Identity :=
  (nodes.map Provider.id).toFinset.filter fun i => s.isOpen i = false

/-- The nodes that are not open are listed by their identities. -/
theorem mem_unopened {i : Identity} :
    i ∈ unopened nodes s ↔ (∃ p ∈ nodes, p.id = i) ∧ s.isOpen i = false := by
  simp [unopened]

/-- To open the scope of a node takes its identity out of those that are not open. -/
theorem unopened_of_nesting (h : m.nesting s p t) :
    unopened nodes t = (unopened nodes s).erase p.id := by
  ext i
  rw [Finset.mem_erase, mem_unopened, mem_unopened, ← Bool.not_eq_true, ← Bool.not_eq_true,
    Machine.isOpen_of_nesting h]
  tauto

/-- There is room for two scopes to each node that is not open, and for the provider, if it is
new. -/
def HasRoom (m : Machine) (nodes : List Provider) (s : ScopeStack) (p : Provider) : Prop :=
  s.depth + 2 * (unopened nodes s).card + (if p.id < m.supply then 0 else 1) ≤ s.limit

/-- There is room if twice as many scopes can be opened as there are nodes. -/
theorem hasRoom_of_length (hp : p.id < m.supply) (h : s.depth + 2 * nodes.length ≤ s.limit) :
    HasRoom m nodes s p := by
  have hcard : (unopened nodes s).card ≤ nodes.length := by
    refine (Finset.card_filter_le _ _).trans ((List.toFinset_card_le _).trans ?_)
    rw [List.length_map]
  rw [HasRoom, if_pos hp]
  omega

/-- With room to spare only an open scope keeps a provider from being asked. -/
theorem HasRoom.depth_lt (h : HasRoom m nodes s p) (hp : p.Inside m nodes)
    (hopen : ¬ (p.id < m.supply ∧ s.isOpen p.id = true)) : s.depth < s.limit := by
  rw [HasRoom] at h
  by_cases hid : p.id < m.supply
  · have hmem : p.id ∈ unopened nodes s :=
      mem_unopened.mpr ⟨⟨p, hp.mem hid, rfl⟩, Bool.eq_false_iff.mpr fun ho => hopen ⟨hid, ho⟩⟩
    have hcard := Finset.card_pos.mpr ⟨_, hmem⟩
    omega
  · rw [if_neg hid] at h
    omega

/-- Room for a provider is room for what it leads to. -/
theorem HasRoom.leads (h : HasRoom m nodes s p) (hw : Wired m nodes) (hp : p.Inside m nodes)
    (ht : m.nesting s p t) (hq : p.Leads m q) : HasRoom m nodes t q := by
  rw [HasRoom] at h ⊢
  rw [Machine.depth_of_enter ht, Machine.limit_of_enter ht, unopened_of_nesting ht]
  by_cases hid : p.id < m.supply
  · -- a node is open from now on, which leaves two more scopes
    have hopen : s.isOpen p.id = false :=
      Bool.eq_false_iff.mpr fun ho => (Machine.enter_eq_ok_iff.mp ht).1 ⟨hid, ho⟩
    have hmem : p.id ∈ unopened nodes s := mem_unopened.mpr ⟨⟨p, hp.mem hid, rfl⟩, hopen⟩
    have hcard := Finset.card_erase_add_one hmem
    rw [if_pos hid] at h
    split <;> omega
  · -- a new scope is followed by one of a node
    have hqid : q.id < m.supply := by
      cases hp with
      | node hp => exact absurd (hw.minted p hp).id_lt hid
      | effect hp e =>
        cases hq
        exact (hw.minted _ hp).id_lt
      | absent type => exact nomatch hq
    have hcard := Finset.card_erase_le (s := unopened nodes s) (a := p.id)
    rw [if_neg hid] at h
    rw [if_pos hqid]
    omega

/-! ### Paths -/

/-- The stack holds the path above the scopes that were open at the start. -/
structure Along (m : Machine) (nodes : List Provider) (s₀ : ScopeStack) (path : List Provider)
    (s : ScopeStack) : Prop where
  frames : s.frames = path.map Provider.owner ++ s₀.frames
  inside : ∀ p ∈ path, p.Inside m nodes
  start : ∀ p ∈ nodes, s₀.isOpen p.id = false

namespace Along

/-- A node is open if and only if it is on the path. -/
theorem isOpen_iff (h : Along m nodes s₀ path s) (hw : Wired m nodes) (hp : p ∈ nodes) :
    s.isOpen p.id = true ↔ p ∈ path := by
  constructor
  · intro ho
    rw [ScopeStack.isOpen, h.frames, List.any_append, Bool.or_eq_true] at ho
    rcases ho with ho | ho
    · obtain ⟨o, ho, hid⟩ := List.any_eq_true.mp ho
      obtain ⟨q, hq, rfl⟩ := List.mem_map.mp ho
      have hid : q.id = p.id := beq_iff_eq.mp hid
      have hmem := (h.inside q hq).mem (hid ▸ (hw.minted p hp).id_lt)
      exact hw.distinct q hmem p hp hid ▸ hq
    · exact absurd ho (Bool.eq_false_iff.mp (h.start p hp))
  · intro hpath
    rw [ScopeStack.isOpen, h.frames]
    exact List.any_eq_true.mpr
      ⟨p.owner, List.mem_append_left _ (List.mem_map_of_mem hpath), beq_self_eq_true _⟩

/-- To open one more scope makes the path longer by its provider. -/
theorem enter (h : Along m nodes s₀ path s) (hp : p.Inside m nodes) (ht : m.nesting s p t) :
    Along m nodes s₀ (p :: path) t where
  frames := by
    obtain ⟨-, -, rfl⟩ := Machine.enter_eq_ok_iff.mp ht
    rw [h.frames]
    rfl
  inside := List.forall_mem_cons.mpr ⟨hp, h.inside⟩
  start := h.start

/-- The scope of a provider can be opened, or the provider is on the path and is refused with the
labels along it. -/
theorem enter_or_reenter (h : Along m nodes s₀ path s) (hw : Wired m nodes)
    (hp : p.Inside m nodes) (hroom : HasRoom m nodes s p) :
    (∃ t, m.nesting s p t ∧ m.walking path p (p :: path)) ∨
      ∃ inner outer, p.id < m.supply ∧ p ∉ inner ∧ path = inner ++ p :: outer ∧
        m.enter s p.owner =
          .error (.circular (p.label :: (inner.reverse.map Provider.label ++ [p.label]))) := by
  by_cases hopen : p.id < m.supply ∧ s.isOpen p.id = true
  · right
    obtain ⟨hid, ho⟩ := hopen
    have hmem := hp.mem hid
    obtain ⟨inner, outer, rfl, hnot⟩ := List.eq_append_cons_of_mem ((h.isOpen_iff hw hmem).mp ho)
    refine ⟨inner, outer, hid, hnot, rfl, (if_pos ⟨hid, ho⟩).trans ?_⟩
    have hframes : s.frames =
        inner.map Provider.owner ++ p.owner :: (outer.map Provider.owner ++ s₀.frames) := by
      rw [h.frames, List.map_append, List.map_cons, List.append_assoc, List.cons_append]
    have hcycle := ScopeStack.cycleFrom_append (o := p.owner) (fun o ho => ?_) hframes
    · rw [hcycle, ← List.map_reverse, List.map_map]
      rfl
    · obtain ⟨q, hq, rfl⟩ := List.mem_map.mp ho
      intro hqp
      have hqp : q.id = p.id := hqp
      have hqmem := (h.inside q (List.mem_append_left _ hq)).mem (hqp ▸ hid)
      exact hnot (hw.distinct q hqmem p hmem hqp ▸ hq)
  · left
    have hd := hroom.depth_lt hp hopen
    refine ⟨_, Machine.enter_eq_ok_iff.mpr ⟨hopen, hd, rfl⟩, fun hid hpath => ?_, rfl⟩
    exact hopen ⟨hid, (h.isOpen_iff hw (hp.mem hid)).mpr hpath⟩

end Along

/-! ### Walks of the engine -/

section Walked

variable {α : Type} {x : Agenda α} {r : Except Fault α} {cycle : List String}

/-- What comes of an agenda below a path: the result of its walk, or the cycle that ends it. -/
inductive Agenda.Walked (m : Machine) (path : List Provider) (p : Provider) (x : Agenda α) :
    Except Fault α → Prop where
  | ok {a : α} (h : x.Yields m m.walking path p a) : Walked m path p x (.ok a)
  | circular {cycle : List String} (h : x.Reenters m path p cycle) :
    Walked m path p x (.error (.circular cycle))

/-- A walk ends in a cycle where it comes back to its path. -/
theorem Agenda.Walked.eq_circular_iff (h : x.Walked m path p r) :
    r = .error (.circular cycle) ↔ x.Reenters m path p cycle := by
  constructor
  · rintro rfl
    cases h with
    | circular h => exact h
  · intro hcycle
    cases h with
    | ok h => exact absurd h hcycle.not_yields
    | circular h => rw [h.deterministic hcycle]

/-- Any fault is a cycle whose first and last label are the same. -/
theorem Agenda.Walked.labels {f : Fault} (h : x.Walked m path p (.error f)) :
    ∃ label between, f = .circular (label :: (between ++ [label])) := by
  cases h with
  | circular h =>
    obtain ⟨label, between, rfl⟩ := h.labels
    exact ⟨label, between, rfl⟩

/-- The agenda of a provider that can open its scope is walked, if its demands are. -/
theorem Agenda.run_walked (hx : x.Total) (ht : m.nesting s p t)
    (hwalk : m.walking path p (p :: path))
    (hd : ∀ d, x.Asks d → (d.agenda m).Walked m (p :: path) d.provider (m.atRest d t)) :
    ∃ r, x.run (m.asked p.owner s) = r.mapError .fault ∧ x.Walked m path p r := by
  induction x with
  | done r =>
    obtain ⟨a, rfl⟩ := hx
    exact ⟨.ok a, rfl, .ok (.done a)⟩
  | ask d next ih =>
    have hfirst := hd d (.inl rfl)
    generalize ha : m.atRest d t = a at hfirst
    replace ha := (Machine.asked_of_enter ht).trans ha
    cases hfirst with
    | @ok b hb =>
      obtain ⟨r, hr, hwalked⟩ := ih b (hx b) fun d' hd' => hd d' (.inr ⟨b, hd'⟩)
      refine ⟨r, (run_ask_ok ha).trans hr, ?_⟩
      cases hwalked with
      | ok h => exact .ok (.ask hwalk hb h)
      | circular h => exact .circular (.later hwalk hb h)
    | circular h => exact ⟨_, run_ask_error ha, .circular (.inside hwalk h)⟩

/-- The agenda of a provider on the path comes back to it, unless there is nothing to ask. -/
theorem Agenda.run_reentered {inner outer : List Provider} (hx : x.Total) (hid : p.id < m.supply)
    (hp : p ∉ inner) (henter : m.enter s p.owner =
      .error (.circular (p.label :: (inner.reverse.map Provider.label ++ [p.label])))) :
    ∃ r, x.run (m.asked p.owner s) = r.mapError .fault ∧
      x.Walked m (inner ++ p :: outer) p r := by
  cases x with
  | done r =>
    obtain ⟨a, rfl⟩ := hx
    exact ⟨.ok a, rfl, .ok (.done a)⟩
  | ask d next =>
    exact ⟨_, run_ask_error (Machine.asked_of_enter_error henter),
      .circular (.here inner outer hid hp)⟩

/-- What the engine at rest answers is what comes of the walk. -/
theorem Wired.walked (hw : Wired m nodes) {d : Demand} (hd : d.provider.Inside m nodes)
    (hs : Along m nodes s₀ path s) (hroom : HasRoom m nodes s d.provider) :
    (d.agenda m).Walked m path d.provider (m.atRest d s) := by
  generalize hr : s.room = n
  induction n using Nat.strongRecOn generalizing d path s with
  | ind n ih =>
    have htotal := hw.total hd
    have hrun : ∃ r, (d.agenda m).run (m.asked d.provider.owner s) = r.mapError .fault ∧
        (d.agenda m).Walked m path d.provider r := by
      rcases hs.enter_or_reenter hw hd hroom with
        ⟨t, ht, hwalk⟩ | ⟨inner, outer, hid, hnot, rfl, henter⟩
      · refine Agenda.run_walked htotal ht hwalk fun d' hd' => ?_
        have hleads := Provider.leads_of_asks hd'
        exact ih _ (hr ▸ ht.room_lt) (hd.leads hw hleads) (hs.enter hd ht)
          (hroom.leads hw hd ht hleads) rfl
      · exact Agenda.run_reentered htotal hid hnot henter
    obtain ⟨r, hr, hwalked⟩ := hrun
    rw [Machine.atRest_eq, hr, blame_mapError]
    exact hwalked

end Walked

/-! ### Queries -/

/-- Query a provider, as code that holds it does. -/
def Ask.query (c : Reading) : (d : Demand) → Attempt d.Answer
  | .value p => Ask.value p c
  | .presence p => Ask.presence p c
  | .producer p => Ask.producer p
  | .classification p => Ask.classification p

/-- Results that correspond to each other fail alike. -/
theorem SameResult.error_iff {ε α β : Type} {R : α → β → Prop} {r : Except ε α} {r' : Except ε β}
    (h : SameResult R r r') (e : ε) : r = .error e ↔ r' = .error e := by
  cases h <;> simp

/-- A demand to a provider without new identities is not blurred. -/
theorem Demand.blur_eq {k : Identity} {d : Demand} (h : d.provider.Minted k) : d.blur k = d := by
  cases d <;> exact congrArg _ (Provider.Minted.blur_eq h)

/-- A query of a plain provider ends, and fails as it fails at rest. -/
theorem run_query (hm : m.Minted) {c : Reading} {d : Demand} (hp : d.provider.Minted m.supply)
    (hplain : d.provider.AllPlain m c) :
    ∃ r n, (Ask.query c d).run.run engine m = some (r, n) ∧ m.Evolves n ∧ n.stack = m.stack ∧
      ∀ f, r = .error f ↔ m.atRest d m.stack = .error f := by
  have hfit : d.provider.Fits m c m := .start hm hp hplain
  obtain ⟨r, n, hrun, hn, hs, hr⟩ := Provider.Fits.faithful hm hfit
  have herror (f : Fault) : r = .error f ↔ m.atRest d m.stack = .error f := by
    have h := hr.error_iff f
    rwa [Demand.blur_eq hp, ScopeStack.blur_eq hm.frames] at h
  cases d with
  | value p =>
    cases r with
    | ok v =>
      refine ⟨_, n, Eval.run_bind_ok hrun _, hn, hs, fun f => ?_⟩
      exact Iff.trans (iff_of_false (nomatch ·) (nomatch ·)) (herror f)
    | error e => exact ⟨_, n, Eval.run_bind_error hrun _, hn, hs, herror⟩
  | presence p => exact ⟨r, n, hrun, hn, hs, herror⟩
  | producer p => exact ⟨r, n, hrun, hn, hs, herror⟩
  | classification p => exact ⟨r, n, hrun, hn, hs, herror⟩

/-- On a wired graph of which no node is open, every query ends, whatever the limit is. Where there
is room for two scopes to each node, the query ends in a cycle if and only if its walk comes back to
a provider on its path, with the labels along this path, and it fails in no other way. -/
theorem query_ends_in_cycle_iff {d : Demand} (c : Reading) (hm : m.Minted) (hw : Wired m nodes)
    (hd : d.provider ∈ nodes) (hstart : ∀ p ∈ nodes, m.stack.isOpen p.id = false) :
    ∃ r n, (Ask.query c d).run.run engine m = some (r, n) ∧ n.stack = m.stack ∧
      (m.stack.depth + 2 * nodes.length ≤ m.stack.limit →
        (∀ cycle, r = .error (.circular cycle) ↔ m.Reenters d cycle) ∧
        ∀ f, r = .error f → ∃ label between, f = .circular (label :: (between ++ [label]))) := by
  have hminted := hw.minted _ hd
  obtain ⟨r, n, hrun, -, hs, herror⟩ := run_query (c := c) hm hminted (hw.allPlain hd c)
  refine ⟨r, n, hrun, hs, fun hroom => ?_⟩
  have halong : Along m nodes m.stack [] m.stack := ⟨rfl, fun _ h => (nomatch h), hstart⟩
  have hwalked := hw.walked (.node hd) halong (hasRoom_of_length hminted.id_lt hroom)
  refine ⟨fun cycle => (herror _).trans hwalked.eq_circular_iff, fun f hf => ?_⟩
  exact Agenda.Walked.labels ((herror f).mp hf ▸ hwalked)

/-! Two properties that hold each other. -/

def namedProperty (i : Identity) (name : String) : Provider := .property ⟨i, .int, some name⟩

/-- A machine on which `x` is set to `y` and `y` to `x`. -/
def mutualMachine : Machine :=
  { Machine.fresh 8 with
    supply := 2
    properties := [(0, Property.blank.setValue (namedProperty 1 "y")),
      (1, Property.blank.setValue (namedProperty 0 "x"))] }

theorem property_mutualMachine (i : Identity) (h₀ : i ≠ 0) (h₁ : i ≠ 1) :
    mutualMachine.property i = .blank := by
  simp [mutualMachine, Machine.property, Table.find?, List.lookup_cons, beq_false_of_ne h₀,
    beq_false_of_ne h₁]

/-- Only old identities are on the machine. -/
theorem mutualMachine_minted : mutualMachine.Minted where
  frames := by simp [mutualMachine, Machine.fresh, ScopeStack.empty]
  providers := by simp [mutualMachine, Machine.fresh]
  properties := by simp [mutualMachine, Machine.fresh]
  effective i q h := by
    by_cases h₀ : i = 0
    · subst h₀
      obtain rfl := Option.some.inj h
      exact (by decide : 1 < 2)
    by_cases h₁ : i = 1
    · subst h₁
      obtain rfl := Option.some.inj h
      exact (by decide : 0 < 2)
    · simp [property_mutualMachine i h₀ h₁] at h

/-- Both properties belong to a wired graph. -/
theorem mutualMachine_wired :
    Wired mutualMachine [namedProperty 0 "x", namedProperty 1 "y"] := by
  refine ⟨?_, ?_, ?_⟩
  · simp only [List.forall_mem_cons]
    exact ⟨(by decide : 0 < 2), (by decide : 1 < 2), fun _ h => nomatch h⟩
  · simp [namedProperty, Provider.id]
  · simp only [List.forall_mem_cons]
    refine ⟨⟨rfl, fun q hq => ?_⟩, ⟨rfl, fun q hq => ?_⟩, fun _ h => nomatch h⟩
    · obtain rfl := Option.some.inj hq
      exact List.mem_cons_of_mem _ List.mem_cons_self
    · obtain rfl := Option.some.inj hq
      exact List.mem_cons_self

/-- The walk from `x` comes back to `x` through `y`. -/
theorem mutualMachine_reenters :
    mutualMachine.Reenters (.value (namedProperty 0 "x")) ["x", "y", "x"] := by
  have hx : (namedProperty 0 "x").valueAgenda mutualMachine =
      Agenda.askValue (namedProperty 1 "y") := rfl
  have hy : (namedProperty 1 "y").valueAgenda mutualMachine =
      Agenda.askValue (namedProperty 0 "x") := rfl
  rw [Machine.Reenters, Demand.agenda, hx]
  refine .inside ⟨fun _ => List.not_mem_nil, rfl⟩ ?_
  rw [Demand.agenda, hy]
  refine .inside ⟨fun _ => by simp [Demand.provider, namedProperty], rfl⟩ ?_
  rw [Demand.agenda, hx]
  exact .here [_] [] (by decide) (by simp [Demand.provider, namedProperty])

theorem query_ends_in_cycle_iff_mutualMachine :
    ∃ n, (Ask.query .strict (.value (namedProperty 0 "x"))).run.run engine mutualMachine =
      some (.error (.circular ["x", "y", "x"]), n) := by
  obtain ⟨r, n, hrun, -, hlimit⟩ := query_ends_in_cycle_iff (d := .value (namedProperty 0 "x"))
    .strict mutualMachine_minted mutualMachine_wired List.mem_cons_self (fun _ _ => rfl)
  obtain ⟨hcycle, -⟩ := hlimit (by decide)
  rw [(hcycle _).mpr mutualMachine_reenters] at hrun
  exact ⟨n, hrun⟩

end ProviderGraph
