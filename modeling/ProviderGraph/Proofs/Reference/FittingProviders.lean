import ProviderGraph.Proofs.Graph.Basic
import ProviderGraph.Proofs.Reference.PureBuilding
import ProviderGraph.Proofs.Scope.Frames

/-!
# Where providers may be asked

While plain providers are evaluated the machine stays what it was, but for new identities and open
scopes. `Provider.Fits` says that a provider may be asked at such a moment as it could be asked at
the start: what is new in it is not open.
-/

namespace ProviderGraph

variable {m m₁ n : Machine} {c : Reading} {p q q' : Provider} {o : Owner} {t : ScopeStack}

/-! ### Blurred stacks -/

/-- A scope with an old identity, or one that is not open, can be opened if and only if it can be
opened at rest. -/
theorem ScopeStack.enter_blur {s : ScopeStack} (h : o.id < m.supply ∨ s.isOpen o.id = false) :
    m.enter (s.blur m.supply) (o.blur m.supply) = (s.enter o).map (ScopeStack.blur m.supply) := by
  have hcond : ((o.blur m.supply).id < m.supply ∧
      (s.blur m.supply).isOpen (o.blur m.supply).id = true) ↔ s.isOpen o.id = true := by
    rcases h with hlt | hnot
    · have hid : (o.blur m.supply).id = o.id := Nat.min_eq_left (Nat.le_of_lt hlt)
      rw [hid, isOpen_blur_of_lt hlt]
      exact and_iff_right hlt
    · by_cases hlt : o.id < m.supply
      · have hid : (o.blur m.supply).id = o.id := Nat.min_eq_left (Nat.le_of_lt hlt)
        rw [hid, isOpen_blur_of_lt hlt]
        exact and_iff_right hlt
      · have hid : (o.blur m.supply).id = m.supply := Nat.min_eq_right (Nat.not_lt.mp hlt)
        simp [hid, hnot]
  rw [Machine.enter, ScopeStack.enter]
  simp only [hcond, depth_blur, limit_blur]
  split
  · next ho =>
    have hlt : o.id < m.supply := h.resolve_right (by simp [ho])
    have hid : (o.blur m.supply).id = o.id := Nat.min_eq_left (Nat.le_of_lt hlt)
    rw [hid, cycleFrom_blur_of_lt hlt]
    rfl
  · split <;> rfl

/-! ### Fitting providers -/

/-- Where the identities below `k` are old: the new identities of the provider lie where those of
the open scopes do not. -/
structure Provider.Sits (k : Identity) (p : Provider) (m₁ : Machine) : Prop where
  supply_le : k ≤ m₁.supply
  frames : ∀ o ∈ m₁.stack.frames, o.id < m₁.supply
  apart : ∃ lo hi, p.Placed k lo hi ∧ hi ≤ m₁.supply ∧
    ∀ o ∈ m₁.stack.frames, k ≤ o.id → lo ≤ o.id → hi ≤ o.id

namespace Provider.Sits

variable {k lo hi : Identity}

theorem later (h : p.Sits k m₁) (hn : m₁.supply ≤ n.supply) (hs : n.stack = m₁.stack) :
    p.Sits k n where
  supply_le := Nat.le_trans h.supply_le hn
  frames o ho := Nat.lt_of_lt_of_le (h.frames o (hs ▸ ho)) hn
  apart := by
    obtain ⟨lo, hi, hp, hhi, hf⟩ := h.apart
    exact ⟨lo, hi, hp, Nat.le_trans hhi hn, fun o ho => hf o (hs ▸ ho)⟩

/-- The identity of the provider was handed out. -/
theorem id_lt (h : p.Sits k m₁) : p.id < m₁.supply := by
  obtain ⟨lo, hi, hp, hhi, -⟩ := h.apart
  rcases hp.id with hid | ⟨-, hid⟩
  · exact Nat.lt_of_lt_of_le hid h.supply_le
  · exact Nat.lt_of_lt_of_le hid hhi

/-- What is new in a provider is not open. -/
theorem not_isOpen (h : p.Sits k m₁) : p.id < k ∨ m₁.stack.isOpen p.id = false := by
  obtain ⟨lo, hi, hp, -, hf⟩ := h.apart
  rcases hp.id with hid | ⟨hlo, hhi⟩
  · exact .inl hid
  · by_cases hlt : p.id < k
    · exact .inl hlt
    · refine .inr (Bool.eq_false_iff.mpr fun hopen => ?_)
      obtain ⟨o, ho⟩ := ScopeStack.isOpen_iff.mp hopen
      have hmem := List.mem_of_find?_eq_some ho
      have hid := ScopeStack.id_of_frameOf? ho
      have := hf o hmem (hid ▸ Nat.not_lt.mp hlt) (hid ▸ hlo)
      exact absurd (Nat.lt_of_lt_of_le hhi this) (hid ▸ Nat.lt_irrefl _)

/-- Inside the scope of the provider the frames are old enough. -/
theorem frames_of_enter (h : p.Sits k m₁) (ho : o.id = p.id) (ht : m₁.stack.enter o = .ok t) :
    ∀ o' ∈ t.frames, o'.id < m₁.supply := by
  intro o' ho'
  rcases ScopeStack.mem_frames_of_enter ht ho' with rfl | hmem
  · exact ho ▸ h.id_lt
  · exact h.frames o' hmem

/-- A part of the provider sits inside its scope. -/
theorem part (h : p.Sits k m₁) (ho : o.id = p.id) (ht : m₁.stack.enter o = .ok t)
    (hpart : ∀ lo hi, p.Placed k lo hi → q.Placed k lo p.id) :
    q.Sits k { m₁ with stack := t } where
  supply_le := h.supply_le
  frames := h.frames_of_enter ho ht
  apart := by
    obtain ⟨lo, hi, hp, hhi, hf⟩ := h.apart
    refine ⟨lo, p.id, hpart lo hi hp, Nat.le_of_lt h.id_lt, fun o' ho' hk hlo => ?_⟩
    rcases ScopeStack.mem_frames_of_enter ht ho' with rfl | hmem
    · exact Nat.le_of_eq ho.symm
    · rcases hp.id with hid | ⟨-, hid⟩
      · exact Nat.le_trans (Nat.le_of_lt hid) hk
      · exact Nat.le_of_lt (Nat.lt_of_lt_of_le hid (hf o' hmem hk hlo))

/-- What was built meanwhile sits inside the scope of the provider. -/
theorem built (h : p.Sits k m₁) (ho : o.id = p.id) (hn : m₁.supply ≤ n.supply)
    (ht : m₁.stack.enter o = .ok t) (hq : q.Placed k m₁.supply n.supply) :
    q.Sits k { n with stack := t } where
  supply_le := Nat.le_trans h.supply_le hn
  frames o' ho' := Nat.lt_of_lt_of_le (h.frames_of_enter ho ht o' ho') hn
  apart := by
    refine ⟨m₁.supply, n.supply, hq, Nat.le_refl _, fun o' ho' _ hlo => ?_⟩
    exact absurd hlo (Nat.not_le.mpr (h.frames_of_enter ho ht o' ho'))

/-- A new identity is blurred, and an old one is kept. -/
theorem id_blur (h : p.Sits k m₁) : (p.blur k).id = min p.id k := by
  cases p with
  | property r =>
    obtain ⟨lo, hi, hp, -, -⟩ := h.apart
    exact (Nat.min_eq_left (Nat.le_of_lt hp)).symm
  | _ => rfl

/-- The owner is blurred as the provider is. -/
theorem owner_blur (h : p.Sits k m₁) : (p.blur k).owner = p.owner.blur k := by
  rw [Provider.owner, Provider.owner, h.id_blur, Provider.label_blur]
  rfl

/-- The scope of the provider can be opened if and only if it can be opened at rest. -/
theorem enter_blur (h : p.Sits m.supply m₁) :
    m.enter (m₁.stack.blur m.supply) (p.blur m.supply).owner =
      (m₁.stack.enter p.owner).map (ScopeStack.blur m.supply) := by
  rw [h.owner_blur]
  exact ScopeStack.enter_blur h.not_isOpen

/-- An old provider sits wherever the frames are old enough. -/
theorem of_minted (hp : p.Minted k) (hk : k ≤ m₁.supply)
    (hf : ∀ o ∈ m₁.stack.frames, o.id < m₁.supply) : p.Sits k m₁ where
  supply_le := hk
  frames := hf
  apart := ⟨k, k, hp.placed, hk, fun _ _ h _ => h⟩

end Provider.Sits

/-- The provider may be asked on the machine `m₁` as on the machine `m` that it evolved from. -/
structure Provider.Fits (m : Machine) (c : Reading) (p : Provider) (m₁ : Machine) : Prop
    extends p.Sits m.supply m₁ where
  evolves : m.Evolves m₁
  plain : (p.blur m.supply).AllPlainIn m c m₁.stack

namespace Provider.Fits

theorem later (h : p.Fits m c m₁) (hn : m₁.Evolves n) (hs : n.stack = m₁.stack) :
    p.Fits m c n where
  toSits := h.toSits.later hn.supply_le hs
  evolves := h.evolves.trans hn
  plain := hs ▸ h.plain

/-- What may be asked strictly may be asked leniently. -/
theorem lenient (h : p.Fits m c m₁) : p.Fits m .lenient m₁ :=
  { h with plain := h.plain.lenient }

/-- A part of the provider fits inside its scope. -/
theorem part (h : p.Fits m c m₁) (ho : o.id = p.id) (ht : m₁.stack.enter o = .ok t)
    (hpart : ∀ lo hi, p.Placed m.supply lo hi → q.Placed m.supply lo p.id)
    (hl : (p.blur m.supply).Leads m (q.blur m.supply)) :
    q.Fits m c { m₁ with stack := t } where
  toSits := h.toSits.part ho ht hpart
  evolves := h.evolves.stack t
  plain := (h.plain.leads hl).mono fun _ => ScopeStack.isOpen_of_enter ht

/-- What was built meanwhile fits inside the scope of the provider. -/
theorem built (h : p.Fits m c m₁) (ho : o.id = p.id) (hn : m₁.Evolves n)
    (ht : m₁.stack.enter o = .ok t) (hq : q.LooksLike m.supply m₁.supply n.supply q')
    (hplain : q'.AllPlainIn m c m₁.stack) : q.Fits m c { n with stack := t } where
  toSits := h.toSits.built ho hn.supply_le ht hq.placed
  evolves := (h.evolves.trans hn).stack t
  plain := (hq.blur_eq ▸ hplain).mono fun _ => ScopeStack.isOpen_of_enter ht

/-- An old provider fits at the start. -/
theorem start (hm : m.Minted) (hp : p.Minted m.supply) (h : p.AllPlain m c) : p.Fits m c m where
  toSits := .of_minted hp (Nat.le_refl _) hm.frames
  evolves := .refl m
  plain := hp.blur_eq.symm ▸ h.allPlainIn m.stack

/-- What is asked in the scope of a provider is asked in the scope that opens. -/
theorem asked_eq (h : p.Fits m c m₁) (d : Demand) :
    m.asked (p.blur m.supply).owner (m₁.stack.blur m.supply) d =
      (do m.atRest d ((← m₁.stack.enter p.owner).blur m.supply)) := by
  rw [Machine.asked, h.enter_blur]
  cases m₁.stack.enter p.owner <;> rfl

/-- Inside the scope that was opened demands are met as they are at rest. -/
theorem asked_of_enter (h : p.Fits m c m₁) (ht : m₁.stack.enter p.owner = .ok t) (d : Demand) :
    m.asked (p.blur m.supply).owner (m₁.stack.blur m.supply) d =
      m.atRest d (t.blur m.supply) := by
  rw [h.asked_eq, ht]
  rfl

/-- The opening fails as it does at rest. -/
theorem asked_of_enter_error {f : Fault} (h : p.Fits m c m₁)
    (ht : m₁.stack.enter p.owner = .error f)
    (d : Demand) : m.asked (p.blur m.supply).owner (m₁.stack.blur m.supply) d = .error f := by
  rw [h.asked_eq, ht]
  rfl

end Provider.Fits

end ProviderGraph
