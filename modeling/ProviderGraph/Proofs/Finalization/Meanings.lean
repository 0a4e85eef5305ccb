import ProviderGraph.Proofs.Classification.SimilarValues
import ProviderGraph.Proofs.Effect.Deliveries

/-!
# What providers mean

Where every scope can be opened a question about a provider has one answer at most, which the graph
determines (`Machine.Means`). Evaluation comes to this answer or to a fault. To find a value it
comes to certain properties (`Provider.ComesTo`), and it is these that a strict reading finalizes.
-/

namespace ProviderGraph

open Agenda (askValue demand)
open Machine (guarded)
open Provider (chosen)

variable {m : Machine} {p q base : Provider} {v w : Outcome} {i j : Identity}
  {type : PayloadType}

/-! ### Answers -/

/-- The answer to a demand where every scope can be opened. -/
def Machine.Means (m : Machine) (d : Demand) (a : d.Answer) : Prop :=
  m.Yields (guarded fun _ => True) () d a

/-- The value that others find, with the declared name of the provider. -/
def Provider.Has (m : Machine) (p : Provider) (v : Outcome) : Prop :=
  ∃ w, m.Means (.value p) w ∧ w.push p.declaredName = v

/-- A demand has one meaning. -/
theorem Machine.Means.unique {d : Demand} {a b : d.Answer} (h : m.Means d a) (h' : m.Means d b) :
    a = b :=
  Agenda.Yields.deterministic (fun _ _ _ _ _ _ => rfl) h h'

/-- A provider has one value. -/
theorem Provider.Has.unique (h : p.Has m v) (h' : p.Has m w) : v = w := by
  obtain ⟨a, ha, rfl⟩ := h
  obtain ⟨b, hb, rfl⟩ := h'
  rw [ha.unique hb]

/-- The value that others find is under the declared name. -/
theorem Machine.Means.has (h : m.Means (.value p) v) : p.Has m (v.push p.declaredName) :=
  ⟨v, h, rfl⟩

theorem Provider.Has.asked (h : base.Has m v) :
    (askValue base).Yields m (guarded fun _ => True) () p v := by
  obtain ⟨w, hw, rfl⟩ := h
  exact Agenda.yields_askValue_iff.mpr ⟨(), w, trivial, hw, rfl⟩

theorem Machine.Means.asked {d : Demand} {a : d.Answer} (h : m.Means d a) :
    (demand d).Yields m (guarded fun _ => True) () p a :=
  Agenda.yields_demand_iff.mpr ⟨(), trivial, h⟩

namespace Machine.Means

/-! ### Values -/

variable {x : Payload} {e : Option Effect} {path : List String} {choice : Recipe}
  {lhs rhs inner : Provider} {r : PropertyRef}

theorem fixed : m.Means (.value (.fixed i x)) (.present x none) := yields_fixed_iff.mpr rfl

theorem undefined : m.Means (.value (.undefined i type path)) (.missing path) :=
  yields_undefined_iff.mpr rfl

theorem changing {node : Option String} {calls : Calls} {y : Option Payload}
    (hy : (calls.code 0).result calls.held (.int 0) = .ok y) :
    m.Means (.value (.changing i type node calls)) (.ofOption y) := by
  refine Agenda.yields_done_iff.mpr ?_
  rw [hy]
  rfl

theorem map {f : Closure} (h : base.Has m v) (hw : f.mapped v = .ok w) :
    m.Means (.value (.map i base f type)) w :=
  yields_map_iff.mpr ⟨v, h.asked, hw⟩

theorem flatMapMissing (h : base.Has m (.missing path)) :
    m.Means (.value (.flatMap i base choice type)) (.missing path) :=
  yields_flatMap_iff.mpr ⟨_, h.asked, rfl⟩

/-- A flat map has the value of what it chooses. -/
theorem flatMap (h : base.Has m (.present x e))
    (hq : chosen m choice type x (SideEffect.boundTo x e) = .ok q) (h' : q.Has m v) :
    m.Means (.value (.flatMap i base choice type)) v :=
  yields_flatMap_iff.mpr ⟨_, h.asked, q, hq, h'.asked⟩

/-- A fallback has the value of its left side, if it is present. -/
theorem left (h : lhs.Has m (.present x e)) :
    m.Means (.value (.orElse i lhs rhs)) (.present x e) :=
  yields_orElse_iff.mpr ⟨_, h.asked, rfl⟩

/-- A fallback has the value of its right side, or lists both paths. -/
theorem right (h : lhs.Has m (.missing path)) (h' : rhs.Has m w) :
    m.Means (.value (.orElse i lhs rhs))
      (if w.isMissing then .missing (path ++ w.path) else w) :=
  yields_orElse_iff.mpr ⟨_, h.asked, w, h'.asked, rfl⟩

theorem withEffect {e : Effect} (h : inner.Has m v) :
    m.Means (.value (.withEffect i inner e)) (v.withEffect (some e)) :=
  yields_withEffect_iff.mpr ⟨v, h.asked, rfl⟩

theorem named {name : String} (h : inner.Has m v) : m.Means (.value (.named i inner name)) v :=
  yields_named_iff.mpr h.asked

theorem property (hq : (m.property r.id).effective = some q) (h : q.Has m v) :
    m.Means (.value (.property r)) v :=
  (yields_property_iff hq).mpr h.asked

theorem unset (hq : (m.property r.id).effective = none) :
    m.Means (.value (.property r)) (.missing []) :=
  (yields_unset_iff hq).mpr rfl

/-! ### Producers -/

variable {t u : Producer}

theorem noneOfFixed : m.Means (.producer (.fixed i x)) .none := .done _

theorem noneOfUndefined : m.Means (.producer (.undefined i type path)) .none := .done _

theorem ofLeaf {node : Option String} {calls : Calls} :
    m.Means (.producer (.changing i type node calls)) (node.elim .unknown .node) := by
  cases node <;> exact .done _

/-- A map is produced by what produces its base. -/
theorem ofBase {f : Closure} (h : m.Means (.producer base) t) :
    m.Means (.producer (.map i base f type)) t := h.asked

/-- A flat map without a payload to choose by needs no work. -/
theorem noneOfMissing (h : base.Has m (.missing path)) :
    m.Means (.producer (.flatMap i base choice type)) .none := by
  refine Agenda.yields_bind_iff.mpr ⟨.undefined m.supply type [], ?_, noneOfUndefined.asked⟩
  exact Agenda.yields_bind_iff.mpr ⟨_, h.asked, .done _⟩

/-- A flat map is produced by what produces its choice. -/
theorem ofChosen (h : base.Has m (.present x e))
    (hq : chosen m choice type x (SideEffect.boundTo x e) = .ok q) (h' : m.Means (.producer q) t) :
    m.Means (.producer (.flatMap i base choice type)) t := by
  refine Agenda.yields_bind_iff.mpr ⟨q, ?_, h'.asked⟩
  exact Agenda.yields_bind_iff.mpr ⟨_, h.asked, Agenda.yields_done_iff.mpr hq⟩

/-- A fallback is produced by what produces either side. -/
theorem ofBoth (h : m.Means (.producer lhs) t) (h' : m.Means (.producer rhs) u) :
    m.Means (.producer (.orElse i lhs rhs)) (t.plus u) :=
  Agenda.yields_bind_iff.mpr ⟨t, h.asked, Agenda.yields_bind_iff.mpr ⟨u, h'.asked, .done _⟩⟩

theorem ofEffectful {e : Effect} (h : m.Means (.producer inner) t) :
    m.Means (.producer (.withEffect i inner e)) t := h.asked

theorem ofNamed {name : String} (h : m.Means (.producer inner) t) :
    m.Means (.producer (.named i inner name)) t := h.asked

/-- A finalized property knows its producers. -/
theorem ofFrozen (ht : (m.property r.id).frozenProducer = some t) :
    m.Means (.producer (.property r))
      ((Producer.ofOption (m.property r.id).attached).plus t) := by
  rw [Means, Yields, Demand.agenda, Provider.producerAgenda, ht]
  exact .done _

/-- A property is produced by its work node and by what produces the provider it reads from. -/
theorem ofHeld (ht : (m.property r.id).frozenProducer = none)
    (hq : (m.property r.id).effective = some q) (h : m.Means (.producer q) t) :
    m.Means (.producer (.property r))
      ((Producer.ofOption (m.property r.id).attached).plus t) := by
  rw [Means, Yields, Demand.agenda, Provider.producerAgenda, ht, hq]
  exact Agenda.yields_bind_iff.mpr ⟨t, h.asked, .done _⟩

theorem ofUnset (ht : (m.property r.id).frozenProducer = none)
    (hq : (m.property r.id).effective = none) :
    m.Means (.producer (.property r)) (Producer.ofOption (m.property r.id).attached) := by
  rw [Means, Yields, Demand.agenda, Provider.producerAgenda, ht, hq]
  exact .done _

end Machine.Means

/-! ### Properties on the way -/

/-- To find the value of the provider the property is read. -/
inductive Provider.ComesTo (m : Machine) (j : Identity) : Provider → Prop where
  | map {i : Identity} {base : Provider} {f : Closure} {type : PayloadType}
    (h : ComesTo m j base) : ComesTo m j (.map i base f type)
  | base {i : Identity} {base : Provider} {choice : Recipe} {type : PayloadType}
    (h : ComesTo m j base) : ComesTo m j (.flatMap i base choice type)
  | chosen {i : Identity} {base q : Provider} {choice : Recipe} {type : PayloadType} {x : Payload}
    {e : Option Effect} (hbase : base.Has m (.present x e))
    (hq : Provider.chosen m choice type x (SideEffect.boundTo x e) = .ok q)
    (h : ComesTo m j q) : ComesTo m j (.flatMap i base choice type)
  | left {i : Identity} {left right : Provider} (h : ComesTo m j left) :
    ComesTo m j (.orElse i left right)
  | right {i : Identity} {left right : Provider} {path : List String}
    (hleft : left.Has m (.missing path)) (h : ComesTo m j right) :
    ComesTo m j (.orElse i left right)
  | withEffect {i : Identity} {inner : Provider} {e : Effect} (h : ComesTo m j inner) :
    ComesTo m j (.withEffect i inner e)
  | named {i : Identity} {inner : Provider} {name : String} (h : ComesTo m j inner) :
    ComesTo m j (.named i inner name)
  | self {r : PropertyRef} (hr : r.id = j) : ComesTo m j (.property r)
  | held {r : PropertyRef} {q : Provider} (hq : (m.property r.id).effective = some q)
    (h : ComesTo m j q) : ComesTo m j (.property r)

/-- The reading finalizes the property if it finds the value of the provider. -/
def Provider.Closes (m : Machine) (c : Reading) (p : Provider) (j : Identity) : Prop :=
  (m.property j).mustFinalize c = true ∧ p.ComesTo m j

namespace Provider

variable {c : Reading} {x : Payload} {e : Option Effect} {path : List String} {choice : Recipe}
  {left right inner : Provider} {r : PropertyRef}

/-- A map finalizes what its base finalizes. -/
theorem closes_map_iff {f : Closure} :
    (Provider.map i base f type).Closes m c j ↔ base.Closes m c j := by
  refine and_congr_right fun _ => ⟨fun h => ?_, .map⟩
  cases h with
  | map h => exact h

theorem closes_flatMap_iff_of_missing (hb : base.Has m (.missing path)) :
    (Provider.flatMap i base choice type).Closes m c j ↔ base.Closes m c j := by
  refine and_congr_right fun _ => ⟨fun h => ?_, .base⟩
  cases h with
  | base h => exact h
  | chosen hbase _ _ => cases hb.unique hbase

/-- A flat map finalizes what its base and its choice finalize. -/
theorem closes_flatMap_iff (hb : base.Has m (.present x e))
    (hq : chosen m choice type x (SideEffect.boundTo x e) = .ok q) :
    (Provider.flatMap i base choice type).Closes m c j ↔
      base.Closes m c j ∨ q.Closes m c j := by
  rw [Closes, Closes, Closes, ← and_or_left]
  refine and_congr_right fun _ => ⟨fun h => ?_, fun h => h.elim .base (.chosen hb hq)⟩
  cases h with
  | base h => exact .inl h
  | chosen hbase hq' h =>
    cases hb.unique hbase
    cases hq.symm.trans hq'
    exact .inr h

/-- A fallback finalizes what its left side finalizes, if that is present. -/
theorem closes_orElse_iff_of_present (hl : left.Has m (.present x e)) :
    (Provider.orElse i left right).Closes m c j ↔ left.Closes m c j := by
  refine and_congr_right fun _ => ⟨fun h => ?_, .left⟩
  cases h with
  | left h => exact h
  | right hleft _ => cases hl.unique hleft

/-- A fallback finalizes what both its sides finalize, if the left one is missing. -/
theorem closes_orElse_iff (hl : left.Has m (.missing path)) :
    (Provider.orElse i left right).Closes m c j ↔
      left.Closes m c j ∨ right.Closes m c j := by
  rw [Closes, Closes, Closes, ← and_or_left]
  refine and_congr_right fun _ => ⟨fun h => ?_, fun h => h.elim .left (.right hl)⟩
  cases h with
  | left h => exact .inl h
  | right _ h => exact .inr h

theorem closes_withEffect_iff {e : Effect} :
    (Provider.withEffect i inner e).Closes m c j ↔ inner.Closes m c j := by
  refine and_congr_right fun _ => ⟨fun h => ?_, .withEffect⟩
  cases h with
  | withEffect h => exact h

theorem closes_named_iff {name : String} :
    (Provider.named i inner name).Closes m c j ↔ inner.Closes m c j := by
  refine and_congr_right fun _ => ⟨fun h => ?_, .named⟩
  cases h with
  | named h => exact h

/-- A property finalizes itself, if it is to, and what it reads from finalizes. -/
theorem closes_property_iff (hq : (m.property r.id).effective = some q) :
    (Provider.property r).Closes m c j ↔
      ((m.property r.id).mustFinalize c = true ∧ r.id = j) ∨ q.Closes m c j := by
  constructor
  · rintro ⟨hmust, h⟩
    cases h with
    | self hr => exact .inl ⟨hr ▸ hmust, hr⟩
    | held hq' h =>
      cases hq.symm.trans hq'
      exact .inr ⟨hmust, h⟩
  · rintro (⟨hmust, hr⟩ | ⟨hmust, h⟩)
    · exact ⟨hr ▸ hmust, .self hr⟩
    · exact ⟨hmust, .held hq h⟩

theorem closes_unset_iff (hq : (m.property r.id).effective = none) :
    (Provider.property r).Closes m c j ↔
      (m.property r.id).mustFinalize c = true ∧ r.id = j := by
  constructor
  · rintro ⟨hmust, h⟩
    cases h with
    | self hr => exact ⟨hr ▸ hmust, hr⟩
    | held hq' _ => cases hq.symm.trans hq'
  · rintro ⟨hmust, hr⟩
    exact ⟨hr ▸ hmust, .self hr⟩

end Provider

end ProviderGraph
