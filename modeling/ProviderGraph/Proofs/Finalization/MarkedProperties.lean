import ProviderGraph.Proofs.Graph.Basic
import ProviderGraph.Proofs.Identity.OldAndNew

/-!
# Marked properties

Whether the first strict reading finalizes a property is a mark. Nothing that is found at rest
depends on it: the graph is the same with the mark and without (`Machine.SameGraph.atRest_eq`).
-/

namespace ProviderGraph

/-- The machines have the same identities and registers, and their properties read from the same
providers and have the same producers. -/
structure Machine.SameGraph (m n : Machine) : Prop where
  supply_eq : m.supply = n.supply
  providerRegisters_eq : m.providerRegisters = n.providerRegisters
  propertyRegisters_eq : m.propertyRegisters = n.propertyRegisters
  effective_eq (i : Identity) : (m.property i).effective = (n.property i).effective
  frozenProducer_eq (i : Identity) : (m.property i).frozenProducer = (n.property i).frozenProducer
  attached_eq (i : Identity) : (m.property i).attached = (n.property i).attached

namespace Machine.SameGraph

variable {m n : Machine} (h : m.SameGraph n) {p q : Provider} {s : ScopeStack}

include h

theorem symm : n.SameGraph m where
  supply_eq := h.supply_eq.symm
  providerRegisters_eq := h.providerRegisters_eq.symm
  propertyRegisters_eq := h.propertyRegisters_eq.symm
  effective_eq i := (h.effective_eq i).symm
  frozenProducer_eq i := (h.frozenProducer_eq i).symm
  attached_eq i := (h.attached_eq i).symm

theorem plan_eq (r : Recipe) (held : Option Payload) : r.plan m held = r.plan n held := by
  fun_induction Recipe.plan m held r with
  | case1 => rw [Recipe.plan, h.providerRegisters_eq]
  | case6 => rw [Recipe.plan, h.propertyRegisters_eq]
  | case9 left right ihl ihr => simp only [Recipe.plan, ihl, ihr, h.supply_eq]
  | case15 f ih => simp only [Recipe.plan, ih]
  | _ => simp only [Recipe.plan, *, h.supply_eq]

theorem withEffect?_eq (p : Provider) (e : Option Effect) : p.withEffect? m e = p.withEffect? n e := by
  cases e with
  | none => rfl
  | some e => rw [Provider.withEffect?, Provider.withEffect?, h.supply_eq]

theorem chosen_eq (choice : Recipe) (type : PayloadType) (x : Payload) (e : Option Effect) :
    Provider.chosen m choice type x e = Provider.chosen n choice type x e := by
  simp only [Provider.chosen, h.plan_eq, h.supply_eq, h.withEffect?_eq]

theorem next_eq (choice : Recipe) (type : PayloadType) (v : Outcome) :
    Provider.next m choice type v = Provider.next n choice type v := by
  cases v with
  | present x e => rw [Provider.next, Provider.next, h.chosen_eq]
  | missing path => rw [Provider.next, Provider.next, h.supply_eq]

/-- The same providers are led to. -/
theorem leads (hl : p.Leads m q) : p.Leads n q := by
  cases hl with
  | map => exact .map
  | flatMap => exact .flatMap
  | chosen hq => exact .chosen (h.chosen_eq .. ▸ hq)
  | absent => exact h.supply_eq ▸ .absent
  | left => exact .left
  | right => exact .right
  | withEffect => exact .withEffect
  | named => exact .named
  | property hq => exact .property (h.effective_eq _ ▸ hq)

/-- The same providers may come up. -/
theorem reaches (hr : p.Reaches m q) : p.Reaches n q :=
  hr.mem (S := fun q => p.Reaches n q) (.refl p) fun _ _ hq hl => hq.tail (h.leads hl)

/-- The same scopes can be opened. -/
theorem enter_eq (s : ScopeStack) (o : Owner) : m.enter s o = n.enter s o := by
  rw [Machine.enter, Machine.enter, h.supply_eq]

theorem describe_eq {M : Type → Type} [Monad M] (f : Provider → M String) (p : Provider) :
    m.describe f p = n.describe f p := by
  cases p with
  | changing i type node calls => cases node <;> rfl
  | property r => rw [Machine.describe_property, Machine.describe_property, h.effective_eq]
  | _ => rfl

/-- The same texts are shown. -/
theorem text_eq (p : Provider) (label : String) (s : ScopeStack) :
    m.text p label s = n.text p label s := by
  generalize hr : s.room = r
  induction r using Nat.strongRecOn generalizing p label s with
  | ind r ih =>
    cases ht : m.enter s ⟨p.id, label⟩ with
    | error f =>
      rw [Machine.text_of_enter_error m ht, Machine.text_of_enter_error n (h.enter_eq s _ ▸ ht)]
    | ok t =>
      rw [Machine.text_of_enter m ht, Machine.text_of_enter n (h.enter_eq s _ ▸ ht), h.describe_eq]
      congr 1
      funext q
      exact ih _ (hr ▸ Machine.room_lt_of_enter ht) q q.kind t rfl

/-- Values are found alike. -/
theorem valueAgenda_eq (p : Provider) : p.valueAgenda m = p.valueAgenda n := by
  cases p with
  | flatMap => simp only [Provider.valueAgenda, h.next_eq]
  | property r => simp only [Provider.valueAgenda, h.effective_eq]
  | _ => rfl

theorem ofClassification_eq (type : PayloadType) (x : Classification) :
    Provider.ofClassification m type x = Provider.ofClassification n type x := by
  cases x <;> simp only [Provider.ofClassification, h.supply_eq, h.withEffect?_eq]

/-- Classifications are found alike. -/
theorem classificationAgenda_eq (p : Provider) :
    p.classificationAgenda m = p.classificationAgenda n := by
  cases p with
  | fixed | undefined | custom => rfl
  | changing | map => simp only [Provider.classificationAgenda, h.supply_eq]
  | flatMap => simp only [Provider.classificationAgenda, h.chosen_eq, h.supply_eq]
  | orElse => simp only [Provider.classificationAgenda, h.ofClassification_eq, h.supply_eq]
  | withEffect i inner e =>
    have haddEffect (x : Classification) :
        Provider.withEffectOn m e x = Provider.withEffectOn n e x := by
      cases x <;> simp only [Provider.withEffectOn, h.supply_eq]
    simp only [Provider.classificationAgenda, haddEffect]
  | named i inner name =>
    have haddName (x : Classification) : Provider.nameOn m name x = Provider.nameOn n name x := by
      cases x <;> simp only [Provider.nameOn, h.supply_eq]
    simp only [Provider.classificationAgenda, haddName]
  | property r => simp only [Provider.classificationAgenda, h.effective_eq]

/-- Demands are met alike. -/
theorem agenda_eq (d : Demand) : d.agenda m = d.agenda n := by
  have backed (base : Provider) (choice : Recipe) (type : PayloadType) :
      Provider.backed m base choice type = Provider.backed n base choice type := by
    simp only [Provider.backed, h.next_eq]
  cases d with
  | value p => exact h.valueAgenda_eq p
  | presence p =>
    cases p with
    | flatMap => simp only [Demand.agenda, Provider.presenceAgenda, backed]
    | property r => simp only [Demand.agenda, Provider.presenceAgenda, h.effective_eq]
    | changing i type node calls => cases node <;> rfl
    | _ => rfl
  | producer p =>
    cases p with
    | flatMap => simp only [Demand.agenda, Provider.producerAgenda, backed]
    | property r =>
      simp only [Demand.agenda, Provider.producerAgenda, h.effective_eq, h.frozenProducer_eq,
        h.attached_eq]
    | changing i type node calls => cases node <;> rfl
    | _ => rfl
  | classification p => exact h.classificationAgenda_eq p

/-- Whatever is asked at rest has the same answer. -/
theorem atRest_eq (d : Demand) (s : ScopeStack) : m.atRest d s = n.atRest d s := by
  generalize hr : s.room = r
  induction r using Nat.strongRecOn generalizing d s with
  | ind r ih =>
    rw [Machine.atRest_eq, Machine.atRest_eq, h.agenda_eq, h.text_eq]
    congr 2
    funext d'
    rw [Machine.asked, Machine.asked, h.enter_eq]
    cases ht : n.enter s d.provider.owner with
    | error f => rfl
    | ok t => exact ih _ (hr ▸ Machine.room_lt_of_enter ht) d' t rfl

/-- Lenient readings finalize nothing, on either machine. -/
theorem allPlain_lenient {c : Reading} (hp : p.AllPlain n c) : p.AllPlain m .lenient := by
  intro q hq
  have hq := (hp q (h.reaches hq)).lenient
  cases q with
  | property r => rfl
  | _ => exact hq

end Machine.SameGraph

/-- The property with the mark set or cleared. -/
def Property.mark (b : Bool) (s : Property) : Property := { s with finalizeOnRead := b }

/-- The machine where the first strict reading of a property finalizes it, or does not. -/
def Machine.mark (m : Machine) (i : Identity) (b : Bool) : Machine :=
  m.setProperty i ((m.property i).mark b)

/-- The machines have the same graph and the same open scopes, and properties other than the one
are marked alike. -/
structure Machine.SameButMark (i : Identity) (m n : Machine) : Prop extends m.SameGraph n where
  stack_eq : m.stack = n.stack
  mustFinalize_eq {j : Identity} (hj : j ≠ i) (c : Reading) :
    (m.property j).mustFinalize c = (n.property j).mustFinalize c

namespace Machine.SameButMark

variable {m n o : Machine} {i : Identity} {p : Provider}

theorem symm (h : m.SameButMark i n) : n.SameButMark i m where
  toSameGraph := h.toSameGraph.symm
  stack_eq := h.stack_eq.symm
  mustFinalize_eq hj c := (h.mustFinalize_eq hj c).symm

theorem trans (h : m.SameButMark i n) (h' : n.SameButMark i o) : m.SameButMark i o where
  supply_eq := h.supply_eq.trans h'.supply_eq
  providerRegisters_eq := h.providerRegisters_eq.trans h'.providerRegisters_eq
  propertyRegisters_eq := h.propertyRegisters_eq.trans h'.propertyRegisters_eq
  effective_eq j := (h.effective_eq j).trans (h'.effective_eq j)
  frozenProducer_eq j := (h.frozenProducer_eq j).trans (h'.frozenProducer_eq j)
  attached_eq j := (h.attached_eq j).trans (h'.attached_eq j)
  stack_eq := h.stack_eq.trans h'.stack_eq
  mustFinalize_eq hj c := (h.mustFinalize_eq hj c).trans (h'.mustFinalize_eq hj c)

/-- What does not depend on the mark is the same for each property. -/
theorem apply_mark {α : Type} (f : Property → α) (hf : ∀ b s, f (s.mark b) = f s) (m : Machine)
    (i : Identity) (b : Bool) (j : Identity) : f (m.property j) = f ((m.mark i b).property j) := by
  by_cases hj : j = i
  · subst hj
    rw [mark, property_setProperty_self, hf]
  · rw [mark, m.property_setProperty_of_ne hj]

/-- Setting the mark changes nothing but the mark. -/
theorem of_mark (m : Machine) (i : Identity) (b : Bool) : m.SameButMark i (m.mark i b) where
  supply_eq := rfl
  providerRegisters_eq := rfl
  propertyRegisters_eq := rfl
  effective_eq := apply_mark _ (fun _ _ => rfl) m i b
  frozenProducer_eq := apply_mark _ (fun _ _ => rfl) m i b
  attached_eq := apply_mark _ (fun _ _ => rfl) m i b
  stack_eq := rfl
  mustFinalize_eq hj c := by rw [mark, m.property_setProperty_of_ne hj]

variable (h : m.SameButMark i n)

include h

/-- Both machines are minted. -/
theorem minted (hm : m.Minted) : n.Minted where
  frames := h.supply_eq ▸ h.stack_eq ▸ hm.frames
  providers := h.supply_eq ▸ h.providerRegisters_eq ▸ hm.providers
  properties := h.supply_eq ▸ h.propertyRegisters_eq ▸ hm.properties
  effective j q hq := h.supply_eq ▸ hm.effective j q (h.effective_eq j ▸ hq)

/-- What is plain on one machine is plain on the other inside the scope of the property. -/
theorem allPlainIn {c : Reading} {s : ScopeStack} (hp : p.AllPlain n c) (hs : s.isOpen i = true)
    (hi : (m.property i).effective.isSome = true) : p.AllPlainIn m c s := by
  intro q hq
  have hq := hp q (h.reaches hq)
  cases q with
  | property r =>
    by_cases hr : r.id = i
    · exact .inr (hr ▸ ⟨hs, hi⟩)
    · exact .inl ((h.mustFinalize_eq hr c).trans hq)
  | _ => exact hq

end Machine.SameButMark

end ProviderGraph
