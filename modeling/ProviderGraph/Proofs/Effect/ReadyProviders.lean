import ProviderGraph.Proofs.Effect.MirroredRuns
import ProviderGraph.Proofs.Reference.ScopeTransparency

/-!
# Providers whose scopes can be opened

On an acyclic graph no scope is opened a second time. After readings have finalized properties this
is so of two sorts of providers: those of the graph and what was built from it
(`Provider.Lives`), and those that reproduce the value of a property (`Provider.Rests`).
-/

namespace ProviderGraph

variable {m a n : Machine} {p q q' : Provider} {o : Owner} {t : ScopeStack} {i lo hi : Identity}

/-! ### Identities of providers that reproduce values -/

/-- Reading the provider, which reproduces a value, opens scopes with these identities. -/
def Provider.Opens : Provider → Identity → Prop
  | .withEffect i inner _, j => j = i ∨ j = inner.id
  | p, j => j = p.id

theorem Provider.opens_id (p : Provider) : p.Opens p.id := by
  cases p with
  | withEffect i inner e => exact .inl rfl
  | _ => exact rfl

/-- A provider whose identities are old opens old scopes. -/
theorem Provider.Minted.lt_of_opens {k : Identity} (h : p.Minted k) (hp : p.Opens i) : i < k := by
  cases p with
  | withEffect j inner e =>
    rcases hp with rfl | rfl
    · exact h.1
    · exact h.2.id_lt
  | _ => exact hp ▸ h.id_lt

/-- What reproduces a value opens scopes of its own identities. -/
theorem Provider.Frozen.of_opens (h : p.Frozen lo hi) (hp : p.Opens i) : lo ≤ i ∧ i < hi := by
  cases h with
  | fixed hlo hhi | undefined hlo hhi => exact hp ▸ ⟨hlo, hhi⟩
  | withEffect hlo hij hhi =>
    rcases hp with rfl | rfl
    · exact ⟨Nat.le_trans hlo (Nat.le_of_lt hij), hhi⟩
    · exact ⟨hlo, Nat.lt_trans hij hhi⟩

/-- Since the machine was `m` a property has come to reproduce a value through a scope with this
identity. -/
def Machine.Occupied (m a : Machine) (i : Identity) : Prop :=
  m.supply ≤ i ∧ ∃ j q, (a.property j).effective = some q ∧ q.Opens i

namespace Machine.Occupied

/-- What is occupied was handed out. -/
theorem lt (hm : m.Minted) (ha : m.Grows a) (h : m.Occupied a i) : i < a.supply := by
  obtain ⟨hi, j, q, hq, hopens⟩ := h
  rcases ha.property j with heq | ⟨q', hq', hfrozen⟩
  · rw [heq] at hq
    exact absurd ((hm.effective j q hq).lt_of_opens hopens) (Nat.not_lt.mpr hi)
  · obtain rfl := Option.some.inj (hq.symm.trans hq')
    exact (hfrozen.of_opens hopens).2

/-- What comes to be occupied has been handed out meanwhile. -/
theorem of_grows (ha : a.Grows n) (h : m.Occupied n i) : m.Occupied a i ∨ a.supply ≤ i := by
  obtain ⟨hi, j, q, hq, hopens⟩ := h
  rcases ha.property j with heq | ⟨q', hq', hfrozen⟩
  · exact .inl ⟨hi, j, q, heq ▸ hq, hopens⟩
  · obtain rfl := Option.some.inj (hq.symm.trans hq')
    exact .inr (hfrozen.of_opens hopens).1

end Machine.Occupied

/-! ### Providers of the graph -/

/-- The provider belongs to an acyclic graph of plain providers on `m`, or was built from it since.
None of what it leads to is open, and no new scope is one that reproduces a value. -/
structure Provider.Lives (m a : Machine) (p : Provider) : Prop extends p.Sits m.supply a where
  grows : m.Grows a
  plain : (p.blur m.supply).AllPlain m .lenient
  acyclic : (p.blur m.supply).Acyclic m
  unopened : (p.blur m.supply).Unopened m (a.stack.blur m.supply)
  free : ∀ o ∈ a.stack.frames, ¬ m.Occupied a o.id
  spared : ∃ lo hi, p.Placed m.supply lo hi ∧ hi ≤ a.supply ∧
    ∀ i, m.Occupied a i → lo ≤ i → hi ≤ i

namespace Provider.Lives

/-- The scope of a provider that lives on the machine is not open. -/
theorem not_isOpen (h : p.Lives m a) : a.stack.isOpen p.id = false := by
  rcases h.toSits.not_isOpen with hid | hclosed
  · have hlt : (p.blur m.supply).id < m.supply := by
      rw [h.id_blur]
      exact Nat.lt_of_le_of_lt (Nat.min_le_left _ _) hid
    have hclosed := h.unopened _ (.refl _) hlt
    rwa [h.id_blur, Nat.min_eq_left (Nat.le_of_lt hid), ScopeStack.isOpen_blur_of_lt hid] at hclosed
  · exact hclosed

/-- No property came to reproduce a value through the scope of a provider that lives on the machine.
-/
theorem not_occupied (h : p.Lives m a) : ¬ m.Occupied a p.id := by
  intro hocc
  obtain ⟨lo, hi, hp, -, hspared⟩ := h.spared
  rcases hp.id with hid | ⟨hlo, hhi⟩
  · exact absurd hid (Nat.not_lt.mpr hocc.1)
  · exact absurd hhi (Nat.not_lt.mpr (hspared _ hocc hlo))

theorem later (h : p.Lives m a) (hn : a.Grows n) (hs : n.stack = a.stack) : p.Lives m n where
  toSits := h.toSits.later hn.supply_le hs
  grows := h.grows.trans hn
  plain := h.plain
  acyclic := h.acyclic
  unopened := hs ▸ h.unopened
  free o ho hocc := by
    rw [hs] at ho
    rcases hocc.of_grows hn with hocc | hle
    · exact h.free o ho hocc
    · exact absurd (h.frames o ho) (Nat.not_lt.mpr hle)
  spared := by
    obtain ⟨lo, hi, hp, hhi, hspared⟩ := h.spared
    refine ⟨lo, hi, hp, Nat.le_trans hhi hn.supply_le, fun i hocc hlo => ?_⟩
    rcases hocc.of_grows hn with hocc | hle
    · exact hspared i hocc hlo
    · exact Nat.le_trans hhi hle

/-- An old provider of an acyclic graph, of which none is open at the start. -/
theorem start (hm : m.Minted) (hp : p.Minted m.supply) (hplain : p.AllPlain m .lenient)
    (hacyclic : p.Acyclic m) (hopen : ∀ q, p.Reaches m q → m.stack.isOpen q.id = false) :
    p.Lives m m where
  toSits := .of_minted hp (Nat.le_refl _) hm.frames
  grows := .refl m
  plain := hp.blur_eq.symm ▸ hplain
  acyclic := hp.blur_eq.symm ▸ hacyclic
  unopened q hq hid := by
    rw [hp.blur_eq] at hq
    rw [ScopeStack.isOpen_blur_of_lt hid]
    exact hopen q hq
  free o ho hocc := absurd (hocc.lt hm (.refl m)) (Nat.not_lt.mpr hocc.1)
  spared := ⟨m.supply, m.supply, hp.placed, Nat.le_refl _, fun _ hocc _ => hocc.1⟩

section Scope

variable (h : p.Lives m a) (ho : o.id = p.id) (ht : a.stack.enter o = .ok t)

include h ho ht

/-- What the provider leads to may be asked in its scope. -/
theorem leads (hn : a.Grows n) (hl : (p.blur m.supply).Leads m (q.blur m.supply))
    (hsits : q.Sits m.supply { n with stack := t })
    (hspared : ∃ lo hi, q.Placed m.supply lo hi ∧ hi ≤ n.supply ∧
      ∀ i, m.Occupied n i → lo ≤ i → hi ≤ i) : q.Lives m { n with stack := t } where
  toSits := hsits
  grows := ⟨(h.grows.trans hn).toSameRegisters.trans ⟨Nat.le_refl _, rfl, rfl⟩,
    (h.grows.trans hn).property⟩
  plain := h.plain.leads hl
  acyclic := h.acyclic.leads hl
  unopened := by
    have hclosed : a.stack.isOpen o.id = false := ho ▸ h.not_isOpen
    have hblur : m.enter (a.stack.blur m.supply) (o.blur m.supply) = .ok (t.blur m.supply) := by
      rw [ScopeStack.enter_blur (.inr hclosed), ht]
      rfl
    have hid : (o.blur m.supply).id = (p.blur m.supply).id := by
      rw [h.id_blur, ← ho]
      rfl
    exact h.unopened.leads h.acyclic hid hblur hl
  free o' ho' hocc := by
    rcases hocc.of_grows (a := a) hn with hocc | hle
    · rcases ScopeStack.mem_frames_of_enter ht ho' with rfl | hmem
      · exact h.not_occupied (ho ▸ hocc)
      · exact h.free o' hmem hocc
    · exact absurd (h.frames_of_enter ho ht o' ho') (Nat.not_lt.mpr hle)
  spared := hspared

/-- A part of the provider may be asked in its scope. -/
theorem part (hl : (p.blur m.supply).Leads m (q.blur m.supply))
    (hpart : ∀ lo hi, p.Placed m.supply lo hi → q.Placed m.supply lo p.id) :
    q.Lives m { a with stack := t } := by
  refine h.leads ho ht (.refl a) hl (h.toSits.part ho ht hpart) ?_
  obtain ⟨lo, hi, hp, hhi, hspared⟩ := h.spared
  refine ⟨lo, p.id, hpart lo hi hp, Nat.le_of_lt h.id_lt, fun i hocc hlo => ?_⟩
  rcases hp.id with hid | ⟨-, hid⟩
  · exact Nat.le_of_lt (Nat.lt_of_lt_of_le hid hocc.1)
  · exact Nat.le_of_lt (Nat.lt_of_lt_of_le hid (hspared i hocc hlo))

/-- What was built meanwhile may be asked there as well. -/
theorem built (hm : m.Minted) (hn : a.Evolves n) (hq : q.Placed m.supply a.supply n.supply)
    (hl : (p.blur m.supply).Leads m (q.blur m.supply)) : q.Lives m { n with stack := t } := by
  refine h.leads ho ht (.of_evolves hn) hl (h.toSits.built ho hn.supply_le ht hq) ?_
  refine ⟨a.supply, n.supply, hq, Nat.le_refl _, fun i hocc hlo => ?_⟩
  have hocc : m.Occupied a i := by simpa only [Machine.Occupied, hn.property_eq] using hocc
  exact absurd (hocc.lt hm h.grows) (Nat.not_lt.mpr hlo)

/-- What a property has held from the start may be asked there. -/
theorem held (hq : q.Minted m.supply) (hl : (p.blur m.supply).Leads m q) :
    q.Lives m { a with stack := t } := by
  refine h.leads ho ht (.refl a) (hq.blur_eq.symm ▸ hl) ?_ ?_
  · exact .of_minted hq h.supply_le (h.frames_of_enter ho ht)
  · exact ⟨m.supply, m.supply, hq.placed, h.supply_le, fun _ hocc _ => hocc.1⟩

end Scope

end Provider.Lives

/-! ### Providers that reproduce values -/

/-- The provider reproduces a value, and none of its scopes is open. -/
structure Provider.Rests (a : Machine) (p : Provider) : Prop where
  frozen : ∃ lo hi, p.Frozen lo hi
  closed : ∀ i, p.Opens i → a.stack.isOpen i = false

/-- The provider may be asked. -/
inductive Provider.Ready (m a : Machine) (p : Provider) : Prop where
  | lives (h : p.Lives m a) : Ready m a p
  | rests (h : p.Rests a) : Ready m a p

namespace Provider.Ready

/-- What does not reproduce a value belongs to the graph. -/
theorem lives_of (h : p.Ready m a) (hp : ∀ lo hi, ¬ p.Frozen lo hi) : p.Lives m a := by
  cases h with
  | lives h => exact h
  | rests h =>
    obtain ⟨lo, hi, hfrozen⟩ := h.frozen
    exact absurd hfrozen (hp lo hi)

/-- The scope of a provider that may be asked is not open. -/
theorem not_isOpen (h : p.Ready m a) : a.stack.isOpen p.id = false := by
  cases h with
  | lives h => exact h.not_isOpen
  | rests h => exact h.closed _ p.opens_id

theorem later (h : p.Ready m a) (hn : a.Grows n) (hs : n.stack = a.stack) : p.Ready m n := by
  cases h with
  | lives h => exact .lives (h.later hn hs)
  | rests h => exact .rests ⟨h.frozen, hs ▸ h.closed⟩

section Parts

variable (ho : o.id = i) (ht : a.stack.enter o = .ok t)

include ho ht

theorem base_map {f : Closure} {type : PayloadType} (h : (Provider.map i p f type).Ready m a) :
    p.Ready m { a with stack := t } := by
  have h := h.lives_of fun _ _ h => by cases h
  exact .lives (h.part ho ht .map fun _ _ hp => hp.2)

theorem base_flatMap {choice : Recipe} {type : PayloadType}
    (h : (Provider.flatMap i p choice type).Ready m a) : p.Ready m { a with stack := t } := by
  have h := h.lives_of fun _ _ h => by cases h
  exact .lives (h.part ho ht .flatMap fun _ _ hp => hp.2)

theorem left_orElse (h : (Provider.orElse i p q).Ready m a) : p.Ready m { a with stack := t } := by
  have h := h.lives_of fun _ _ h => by cases h
  exact .lives (h.part ho ht .left fun _ _ hp => hp.2.1)

theorem right_orElse (h : (Provider.orElse i p q).Ready m a) :
    q.Ready m { a with stack := t } := by
  have h := h.lives_of fun _ _ h => by cases h
  exact .lives (h.part ho ht .right fun _ _ hp => hp.2.2)

theorem inner_named {name : String} (h : (Provider.named i p name).Ready m a) :
    p.Ready m { a with stack := t } := by
  have h := h.lives_of fun _ _ h => by cases h
  exact .lives (h.part ho ht .named fun _ _ hp => hp.2)

/-- What carries an effect may be asked in the scope. -/
theorem inner {e : Effect} (h : (Provider.withEffect i p e).Ready m a) :
    p.Ready m { a with stack := t } := by
  cases h with
  | lives h => exact .lives (h.part ho ht .withEffect fun _ _ hp => hp.2)
  | rests h =>
    obtain ⟨lo, hi, hfrozen⟩ := h.frozen
    cases hfrozen with
    | @withEffect _ j hlo hij hhi x _ =>
      refine .rests ⟨⟨lo, hi, .fixed hlo (Nat.lt_trans hij hhi) x⟩, fun k hk => ?_⟩
      obtain rfl : k = j := hk
      refine ScopeStack.isOpen_eq_false_iff.mpr fun o' ho' => ?_
      rcases ScopeStack.mem_frames_of_enter ht ho' with rfl | hmem
      · exact ho ▸ Nat.ne_of_gt hij
      · exact ScopeStack.isOpen_eq_false_iff.mp (h.closed k (.inr rfl)) o' hmem

end Parts

/-- What a property holds may be asked in the scope of the property. -/
theorem held (hm : m.Minted) {r : PropertyRef} (h : (Provider.property r).Ready m a)
    (hq : (a.property r.id).effective = some q) (ho : o.id = r.id)
    (ht : a.stack.enter o = .ok t) : q.Ready m { a with stack := t } := by
  have h := h.lives_of fun _ _ hr => by cases hr
  rcases h.grows.property r.id with heq | ⟨q', hq', hfrozen⟩
  · rw [heq] at hq
    exact .lives (h.held ho ht (hm.effective r.id q hq) (.property hq))
  · obtain rfl := Option.some.inj (hq.symm.trans hq')
    refine .rests ⟨⟨_, _, hfrozen⟩, fun i hi => ?_⟩
    have hle := (hfrozen.of_opens hi).1
    refine ScopeStack.isOpen_eq_false_iff.mpr fun o' ho' hid => ?_
    rcases ScopeStack.mem_frames_of_enter ht ho' with rfl | hmem
    · obtain ⟨lo, hi', hr, -, -⟩ := h.spared
      exact absurd (hid ▸ ho ▸ hr) (Nat.not_lt.mpr hle)
    · exact h.free o' hmem (hid ▸ ⟨hle, r.id, q, hq, hi⟩)

end Provider.Ready

end ProviderGraph
