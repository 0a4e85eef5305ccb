import ProviderGraph.Proofs.Finalization.FinalizingAndReading
import ProviderGraph.Proofs.Finalization.Meanings

/-!
# Machines on which properties were finalized

Finalizing a property finalizes others on the way, and readings finalize more. Since then the
machine is the same but for identities, counted calls and these properties (`Machine.Matured`). Each
of them keeps the value and the producers that the graph determines, and what a strict reading of it
comes to is finalized as well. `Machine.Reads` says which properties a reading has finalized.
-/

namespace ProviderGraph

variable {m n o a : Machine} {p q : Provider} {w : Outcome} {t : Producer} {i j : Identity}

def Machine.Final (m : Machine) (i : Identity) : Prop := (m.property i).finalized = true

/-- What a property that held `held` keeps, where the properties of `F` are finalized. -/
inductive Machine.Preserves (m : Machine) (F : Identity → Prop) :
    (held : Option Provider) → Outcome → Producer → Prop where
  | unset : Preserves m F none (.missing []) .none
  | held {p : Provider} {w : Outcome} {t : Producer} (hw : p.Has m w)
    (ht : m.Means (.producer p) t) (hF : ∀ j, p.Closes m .strict j → F j) :
    Preserves m F (some p) w t

/-- The property has been finalized since the machine was `m`, and keeps `w` and `t` in `q`. -/
structure Machine.Matures (m n : Machine) (i : Identity) (q : Provider) (w : Outcome)
    (t : Producer) : Prop where
  unfinalized : (m.property i).finalized = false
  property_eq : n.property i = (m.property i).commit q t
  made : q.MadeFor m.supply w
  minted : q.Minted n.supply
  preserves : m.Preserves n.Final (m.property i).effective w t

/-- Since the machine was `m` identities were handed out, calls counted, scopes opened or closed and
properties finalized, and nothing else has happened. -/
structure Machine.Matured (m n : Machine) : Prop where
  supply_le : m.supply ≤ n.supply
  eq : n = { m with
    stack := n.stack
    supply := n.supply
    counters := n.counters
    properties := n.properties }
  property (i : Identity) : n.property i = m.property i ∨ ∃ q w t, m.Matures n i q w t

namespace Machine.Preserves

variable {F G : Identity → Prop} {held : Option Provider} {w' : Outcome} {t' : Producer}

theorem mono (h : m.Preserves F held w t) (hF : ∀ j, F j → G j) : m.Preserves G held w t := by
  cases h with
  | unset => exact .unset
  | held hw ht hclosed => exact .held hw ht fun j hj => hF j (hclosed j hj)

/-- What is preserved is one value and one tree. -/
theorem unique (h : m.Preserves F held w t) (h' : m.Preserves G held w' t') :
    w = w' ∧ t = t' := by
  cases h with
  | unset =>
    cases h'
    exact ⟨rfl, rfl⟩
  | held hw ht _ =>
    cases h' with
    | held hw' ht' _ => exact ⟨hw.unique hw', ht.unique ht'⟩

end Machine.Preserves

namespace Machine.Matures

/-- A property that has matured keeps the value. -/
theorem keeps (h : m.Matures n i q w t) : (n.property i).Keeps q w := by
  rw [h.property_eq]
  exact Property.keeps_commit h.unfinalized h.made.kept

theorem final (h : m.Matures n i q w t) : n.Final i := h.keeps.finalized

theorem frozenProducer (h : m.Matures n i q w t) : (n.property i).frozenProducer = some t := by
  rw [h.property_eq, Property.commit, if_neg (by simp [h.unfinalized])]

theorem attached (h : m.Matures n i q w t) :
    (n.property i).attached = (m.property i).attached := by
  rw [h.property_eq, Property.commit, if_neg (by simp [h.unfinalized])]

theorem mono (h : m.Matures n i q w t) (hsupply : n.supply ≤ o.supply)
    (hi : o.property i = n.property i) (hfinal : ∀ j, n.Final j → o.Final j) :
    m.Matures o i q w t where
  unfinalized := h.unfinalized
  property_eq := hi.trans h.property_eq
  made := h.made
  minted := h.minted.mono hsupply
  preserves := h.preserves.mono hfinal

end Machine.Matures

namespace Machine.Matured

theorem refl (m : Machine) : m.Matured m := ⟨Nat.le_refl _, rfl, fun _ => .inl rfl⟩

theorem evolves (h : m.Matured n) (ho : n.Evolves o) : m.Matured o where
  supply_le := Nat.le_trans h.supply_le ho.supply_le
  eq := by
    rw [ho.eq, h.eq]
  property i := by
    rw [ho.property_eq]
    refine (h.property i).imp_right fun ⟨q, w, t, hi⟩ => ⟨q, w, t, ?_⟩
    refine hi.mono ho.supply_le (ho.property_eq i) fun j hj => ?_
    rw [Final, ho.property_eq]
    exact hj

theorem stack (h : m.Matured n) (s : ScopeStack) : m.Matured { n with stack := s } :=
  h.evolves ((Machine.Evolves.refl n).stack s)

theorem sameRegisters (h : m.Matured n) : m.SameRegisters n where
  supply_le := h.supply_le
  providerRegisters_eq := by rw [h.eq]
  propertyRegisters_eq := by rw [h.eq]

/-- A property is finalized with what the graph determines, unless it was finalized before. -/
theorem commit (h : m.Matured n) (hi : (m.property i).finalized = false)
    (hq : q.MadeFor m.supply w) (hminted : q.Minted n.supply)
    (hpreserves : m.Preserves n.Final (m.property i).effective w t) :
    m.Matured (n.setProperty i ((n.property i).commit q t)) := by
  have heq : n.setProperty i ((n.property i).commit q t) = { m with
      stack := n.stack
      supply := n.supply
      counters := n.counters
      properties := (n.setProperty i ((n.property i).commit q t)).properties } := by
    rw [h.eq]
    rfl
  have hsupply : n.supply ≤ (n.setProperty i ((n.property i).commit q t)).supply := Nat.le_refl _
  have hself := n.property_setProperty_self i ((n.property i).commit q t)
  have hother {j : Identity} (hj : j ≠ i) :=
    n.property_setProperty_of_ne hj ((n.property i).commit q t)
  refine ⟨h.supply_le, heq, ?_⟩
  clear heq
  generalize n.setProperty i ((n.property i).commit q t) = o at hsupply hself hother
  have hfinal (j : Identity) (hj : n.Final j) : o.Final j := by
    by_cases hji : j = i
    · subst hji
      rw [Final, hself]
      exact Property.finalized_commit _ _ _
    · rw [Final, hother hji]
      exact hj
  intro j
  by_cases hji : j = i
  · subst hji
    rcases h.property j with hj | ⟨q', w', t', hj⟩
    · rw [hj] at hself
      exact .inr ⟨q, w, t, hi, hself, hq, hminted.mono hsupply, hpreserves.mono hfinal⟩
    · rw [Property.commit_of_finalized hj.final] at hself
      exact .inr ⟨q', w', t', hj.mono hsupply hself hfinal⟩
  · rw [hother hji]
    exact (h.property j).imp_right fun ⟨q', w', t', hj⟩ =>
      ⟨q', w', t', hj.mono hsupply (hother hji) hfinal⟩

end Machine.Matured

/-! ### Reserved identities -/

/-- The only scope of a kept provider is its own. -/
theorem Provider.eq_owner_of_mem_keptScopes {o : Owner} (h : o ∈ p.keptScopes) : o = p.owner := by
  cases p with
  | withEffect => exact List.mem_singleton.mp h
  | _ => cases h

/-- To read a property that has been finalized since `m` a scope with this identity is opened. -/
def Machine.Reserved (m n : Machine) (i : Identity) : Prop :=
  m.supply ≤ i ∧ ∃ j q, (n.property j).effective = some q ∧ ∃ o ∈ q.keptScopes, o.id = i

/-- What is reserved is old by now. -/
theorem Machine.Reserved.lt (hm : m.Minted) (hn : m.Matured n) (h : m.Reserved n i) :
    i < n.supply := by
  obtain ⟨-, j, q, hq, o, ho, rfl⟩ := h
  rw [Provider.eq_owner_of_mem_keptScopes ho]
  rcases hn.property j with hj | ⟨q', w, t, hj⟩
  · exact Nat.lt_of_lt_of_le (hm.effective j q (hj ▸ hq)).id_lt hn.supply_le
  · obtain rfl := Option.some.inj (hj.keeps.effective.symm.trans hq)
    exact hj.minted.id_lt

theorem Machine.Evolves.reserved_iff (h : n.Evolves o) : m.Reserved o i ↔ m.Reserved n i := by
  simp only [Reserved, h.property_eq]

/-! ### Readings -/

/-- From the machine `a` to the machine `n` the properties of `D` were finalized, unless they were
before, and no other ones. -/
structure Machine.Reads (m : Machine) (D : Identity → Prop) (a n : Machine) : Prop where
  matured : m.Matured n
  supply_le : a.supply ≤ n.supply
  stack_eq : n.stack = a.stack
  final_iff (i : Identity) : n.Final i ↔ a.Final i ∨ D i
  reserved (i : Identity) : m.Reserved n i → m.Reserved a i ∨ a.supply ≤ i

namespace Machine.Reads

variable {D D' : Identity → Prop}

/-- Nothing is finalized that was not before. -/
theorem evolves (ha : m.Matured a) (hn : a.Evolves n) (hs : n.stack = a.stack)
    (hD : ∀ i, D i → a.Final i) : m.Reads D a n where
  matured := ha.evolves hn
  supply_le := hn.supply_le
  stack_eq := hs
  final_iff i := by
    rw [Final, hn.property_eq]
    exact ⟨.inl, fun h => h.elim id (hD i)⟩
  reserved i h := .inl (hn.reserved_iff.mp h)

theorem refl (ha : m.Matured a) (hD : ∀ i, D i → a.Final i) : m.Reads D a a :=
  evolves ha (.refl a) rfl hD

theorem trans (h : m.Reads D a n) (h' : m.Reads D' n o) : m.Reads (fun i => D i ∨ D' i) a o where
  matured := h'.matured
  supply_le := Nat.le_trans h.supply_le h'.supply_le
  stack_eq := h'.stack_eq.trans h.stack_eq
  final_iff i := by rw [h'.final_iff, h.final_iff, or_assoc]
  reserved i hi := by
    rcases h'.reserved i hi with hi | hi
    · exact h.reserved i hi
    · exact .inr (Nat.le_trans h.supply_le hi)

theorem congr (h : m.Reads D a n) (hD : ∀ i, D i ↔ D' i) : m.Reads D' a n :=
  { h with final_iff := fun i => (h.final_iff i).trans (or_congr_right (hD i)) }

/-- Afterwards nothing else is finalized. -/
theorem then_evolves (h : m.Reads D a n) (hn : n.Evolves o) (hs : o.stack = n.stack) :
    m.Reads D a o :=
  (h.trans (.evolves (D := D) h.matured hn hs fun i hi => (h.final_iff i).mpr (.inr hi))).congr
    fun _ => or_self_iff

/-- The scope that was opened first is closed at the end. -/
theorem within {s : ScopeStack} (h : m.Reads D { a with stack := s } n) :
    m.Reads D a { n with stack := a.stack } where
  matured := h.matured.stack _
  supply_le := h.supply_le
  stack_eq := rfl
  final_iff := h.final_iff
  reserved := h.reserved

/-- In the end one more property is finalized. -/
theorem commit (h : m.Reads D a n) (hi : (m.property i).finalized = false)
    (ha : m.supply ≤ a.supply) (hq : q.MadeFor a.supply w) (hminted : q.Minted n.supply)
    (hpreserves : m.Preserves n.Final (m.property i).effective w t) :
    m.Reads (fun j => D j ∨ i = j) a (n.setProperty i ((n.property i).commit q t)) where
  matured := h.matured.commit hi (hq.mono ha) hminted hpreserves
  supply_le := h.supply_le
  stack_eq := h.stack_eq
  final_iff j := by
    by_cases hji : j = i
    · subst hji
      rw [Final, Machine.property_setProperty_self]
      exact ⟨fun _ => .inr (.inr rfl), fun _ => Property.finalized_commit _ _ _⟩
    · rw [Final, Machine.property_setProperty_of_ne _ hji]
      change n.Final j ↔ _
      rw [h.final_iff, or_iff_left (Ne.symm hji)]
  reserved j := by
    rintro ⟨hj, k, q', hq', o, ho, rfl⟩
    by_cases hki : k = i
    · subst hki
      rw [Machine.property_setProperty_self] at hq'
      cases hk : (n.property k).finalized with
      | true =>
        rw [Property.commit_of_finalized hk] at hq'
        exact h.reserved _ ⟨hj, k, q', hq', o, ho, rfl⟩
      | false =>
        have heff := (Property.keeps_commit (t := t) hk hq.kept).effective
        obtain rfl := Option.some.inj (heff.symm.trans hq')
        rcases hq.scopes with hscopes | ⟨o', x, e, hscopes, ho', -⟩
        · rw [hscopes] at ho
          cases ho
        · rw [hscopes, List.mem_singleton] at ho
          exact .inr (ho ▸ ho')
    · rw [Machine.property_setProperty_of_ne _ hki] at hq'
      exact h.reserved _ ⟨hj, k, q', hq', o, ho, rfl⟩

end Machine.Reads

end ProviderGraph
