import ProviderGraph.Proofs.Graph.Basic
import ProviderGraph.Proofs.Identity.OldAndNew

/-!
# The roll of identities

Identities are handed out one after the other, each for one provider or for something else. The roll
tells for what. A machine is enrolled when all that it knows is on the roll as it is, which makes
its identities old (`Machine.Enrolled.minted`) and tells its providers apart
(`Machine.Enrolled.identified`).
-/

namespace ProviderGraph

/-- What each identity was handed out for, where it is a provider. -/
abbrev Roll := List (Option Provider)

/-- The provider and its parts are on the roll under their identities. -/
def Provider.Enrolled (roll : Roll) (p : Provider) : Prop :=
  roll[p.id]? = some (some p) ∧
    match p with
    | .fixed _ _ | .undefined _ _ _ | .property _ => True
    | .changing _ _ _ calls | .custom _ _ _ calls _ => calls.counter < roll.length
    | .map _ base _ _ | .flatMap _ base _ _ => base.Enrolled roll
    | .orElse _ left right => left.Enrolled roll ∧ right.Enrolled roll
    | .withEffect _ inner _ | .named _ inner _ => inner.Enrolled roll

def Classification.Enrolled (roll : Roll) : Classification → Prop
  | .changing p => p.Enrolled roll
  | .fixed _ _ | .missing _ => True

/-- What the property holds is on the roll. -/
structure Property.Enrolled (roll : Roll) (s : Property) : Prop where
  value : ∀ q, s.value = some q → q.Enrolled roll
  convention : ∀ q, s.convention = some q → q.Enrolled roll

/-- All that the machine knows is on the roll, and the next identity is that after its end. -/
structure Machine.Enrolled (roll : Roll) (m : Machine) : Prop where
  supply : m.supply = roll.length
  frames : ∀ o ∈ m.stack.frames, o.id < roll.length
  owners : ∀ name o, m.ownerRegisters.find? name = some o → o.id < roll.length
  providers : ∀ name p, m.providerRegisters.find? name = some p → p.Enrolled roll
  references : ∀ name r, m.propertyRegisters.find? name = some r →
    (Provider.property r).Enrolled roll
  properties : ∀ i, (m.property i).Enrolled roll
  classifications : ∀ name c, m.locals.classifications.find? name = some c →
    c.content.Enrolled roll

variable {roll roll' : Roll} {m : Machine} {p q : Provider}

/-! ### Longer rolls -/

/-- An entry of the roll stays. -/
theorem Roll.entry_of_prefix {e : Option Provider} {i : Identity} (h : roll <+: roll')
    (hi : roll[i]? = some e) : roll'[i]? = some e := by
  obtain ⟨hlt, hi⟩ := List.getElem?_eq_some_iff.mp hi
  exact List.getElem?_eq_some_iff.mpr
    ⟨Nat.lt_of_lt_of_le hlt h.length_le, (h.getElem hlt).symm.trans hi⟩

namespace Provider.Enrolled

/-- The provider stands in the entry of its identity. -/
theorem entry (hp : p.Enrolled roll) : roll[p.id]? = some (some p) := by
  cases p <;> exact hp.1

/-- The identity of a provider on the roll was handed out. -/
theorem id_lt (hp : p.Enrolled roll) : p.id < roll.length :=
  (List.getElem?_eq_some_iff.mp hp.entry).1

theorem mono (hp : p.Enrolled roll) (h : roll <+: roll') : p.Enrolled roll' := by
  have hid := Roll.entry_of_prefix h hp.entry
  induction p with
  | fixed | undefined | property => exact ⟨hid, trivial⟩
  | changing | custom => exact ⟨hid, Nat.lt_of_lt_of_le hp.2 h.length_le⟩
  | map _ _ _ _ ih | flatMap _ _ _ _ ih | withEffect _ _ _ ih | named _ _ _ ih =>
    exact ⟨hid, ih hp.2 (Roll.entry_of_prefix h hp.2.entry)⟩
  | orElse _ _ _ ihl ihr =>
    exact ⟨hid, ihl hp.2.1 (Roll.entry_of_prefix h hp.2.1.entry),
      ihr hp.2.2 (Roll.entry_of_prefix h hp.2.2.entry)⟩

/-- What is on the roll has no identity that is yet to be handed out. -/
theorem minted (hp : p.Enrolled roll) : p.Minted roll.length := by
  have hid := hp.id_lt
  induction p with
  | fixed | undefined | property => exact hid
  | changing | custom => exact ⟨hid, hp.2⟩
  | map _ _ _ _ ih | flatMap _ _ _ _ ih | withEffect _ _ _ ih | named _ _ _ ih =>
    exact ⟨hid, ih hp.2 hp.2.id_lt⟩
  | orElse _ _ _ ihl ihr => exact ⟨hid, ihl hp.2.1 hp.2.1.id_lt, ihr hp.2.2 hp.2.2.id_lt⟩

end Provider.Enrolled

theorem Classification.Enrolled.mono {c : Classification} (hc : c.Enrolled roll)
    (h : roll <+: roll') : c.Enrolled roll' := by
  cases c with
  | changing p => exact Provider.Enrolled.mono hc h
  | fixed | missing => trivial

theorem Property.Enrolled.mono {s : Property} (hs : s.Enrolled roll) (h : roll <+: roll') :
    s.Enrolled roll' :=
  ⟨fun q hq => (hs.value q hq).mono h, fun q hq => (hs.convention q hq).mono h⟩

/-- What a property reads from is on the roll with it. -/
theorem Property.Enrolled.effective {s : Property} (hs : s.Enrolled roll)
    (hq : s.effective = some q) : q.Enrolled roll := by
  rw [Property.effective] at hq
  cases hv : s.value with
  | some q' =>
    rw [hv] at hq
    exact Option.some.inj hq ▸ hs.value q' hv
  | none =>
    rw [hv] at hq
    exact hs.convention q hq

/-! ### Old identities, and what they belong to -/

theorem exists_of_bind_eq_ok {ε α β : Type} {x : Except ε α} {f : α → Except ε β} {b : β}
    (h : x >>= f = .ok b) : ∃ a, x = .ok a ∧ f a = .ok b := by
  cases x with
  | ok a => exact ⟨a, rfl, h⟩
  | error e => cases h

theorem find?_of_content {α : Type} {t : Table String α} {what name : String} {a : α}
    (h : t.content what name = .ok a) : t.find? name = some a := by
  rw [Table.content] at h
  split at h
  · next hfind => exact hfind.trans (congrArg some (Except.ok.inj h))
  · cases h

/-- Old identities in the provider are those of the roll. -/
def Provider.Grounded (roll : Roll) (p : Provider) : Prop :=
  (p.id < roll.length → roll[p.id]? = some (some p)) ∧
    match p with
    | .map _ base _ _ | .flatMap _ base _ _ => base.Grounded roll
    | .orElse _ left right => left.Grounded roll ∧ right.Grounded roll
    | .withEffect _ inner _ | .named _ inner _ => inner.Grounded roll
    | _ => True

namespace Provider

/-- A grounded provider with an old identity stands in the entry of it. -/
theorem Grounded.entry (hp : p.Grounded roll) (hid : p.id < roll.length) :
    roll[p.id]? = some (some p) := by
  cases p <;> exact hp.1 hid

/-- What is on the roll is grounded. -/
theorem Enrolled.grounded (hp : p.Enrolled roll) : p.Grounded roll := by
  have hid := hp.entry
  induction p with
  | fixed | undefined | property | changing | custom => exact ⟨fun _ => hid, trivial⟩
  | map _ _ _ _ ih | flatMap _ _ _ _ ih | withEffect _ _ _ ih | named _ _ _ ih =>
    exact ⟨fun _ => hid, ih hp.2 hp.2.entry⟩
  | orElse _ _ _ ihl ihr =>
    exact ⟨fun _ => hid, ihl hp.2.1 hp.2.1.entry, ihr hp.2.2 hp.2.2.entry⟩

end Provider

namespace Machine.Enrolled

variable (hm : m.Enrolled roll)

include hm

/-- The machine knows old identities only. -/
theorem minted : m.Minted where
  frames o ho := hm.supply ▸ hm.frames o ho
  providers name p hp := hm.supply ▸ (hm.providers name p hp).minted
  properties name r hr := hm.supply ▸ (hm.references name r hr).id_lt
  effective i _ hq := hm.supply ▸ ((hm.properties i).effective hq).minted

/-- What has the next identity is no old provider. -/
theorem new (hid : p.id = m.supply) : p.id < roll.length → roll[p.id]? = some (some p) :=
  fun h => absurd (hid.trans hm.supply ▸ h) (Nat.lt_irrefl _)

/-- What a recipe describes is new, or known to the machine. -/
theorem grounded_of_plan {r : Recipe} {held : Option Payload}
    (hq : r.plan m held = .ok (some q)) : q.Grounded roll := by
  fun_induction Recipe.plan m held r generalizing q with
  | case1 name =>
    obtain ⟨p, hp, hq⟩ := exists_of_bind_eq_ok hq
    cases hq
    exact (hm.providers name _ (find?_of_content hp)).grounded
  | case2 | case3 | case4 =>
    cases hq
    exact ⟨hm.new rfl, trivial⟩
  | case5 =>
    obtain ⟨_, -, hq⟩ := exists_of_bind_eq_ok hq
    cases hq
    exact ⟨hm.new rfl, trivial⟩
  | case6 name =>
    obtain ⟨r, hr, hq⟩ := exists_of_bind_eq_ok hq
    cases hq
    exact (hm.references name _ (find?_of_content hr)).grounded
  | case7 _ _ _ ih | case8 _ _ _ ih | case10 _ _ ih | case11 _ _ ih =>
    obtain ⟨p, hp, hq⟩ := exists_of_bind_eq_ok hq
    obtain ⟨p, rfl, rfl⟩ := Option.map_eq_some_iff.mp (Except.ok.inj hq)
    exact ⟨hm.new rfl, ih hp⟩
  | case9 left right ihl ihr =>
    obtain ⟨l, hl, hq⟩ := exists_of_bind_eq_ok hq
    cases l with
    | none => cases hq
    | some l =>
      obtain ⟨p, hp, hq⟩ := exists_of_bind_eq_ok hq
      obtain ⟨p, rfl, rfl⟩ := Option.map_eq_some_iff.mp (Except.ok.inj hq)
      exact ⟨hm.new rfl, ihl hl, ihr hp⟩
  | case12 => cases hq
  | case13 a =>
    obtain ⟨_, -, hq⟩ := exists_of_bind_eq_ok hq
    obtain ⟨_, -, hq⟩ := exists_of_bind_eq_ok hq
    obtain ⟨_, -, rfl⟩ := Option.map_eq_some_iff.mp (Except.ok.inj hq)
    exact ⟨hm.new rfl, trivial⟩
  | case14 a next ih =>
    obtain ⟨_, -, hq⟩ := exists_of_bind_eq_ok hq
    obtain ⟨y, -, hq⟩ := exists_of_bind_eq_ok hq
    cases y with
    | none => cases hq
    | some y => exact ih hq
  | case15 f ih =>
    obtain ⟨x, -, hq⟩ := exists_of_bind_eq_ok hq
    exact ih x hq

/-- What a provider leads to is new, or on the roll like the provider. -/
theorem grounded_of_leads (hp : p.Grounded roll) (hq : p.Leads m q) : q.Grounded roll := by
  cases hq with
  | map | flatMap | withEffect | named => exact hp.2
  | left => exact hp.2.1
  | right => exact hp.2.2
  | absent => exact ⟨hm.new rfl, trivial⟩
  | property hq => exact ((hm.properties _).effective hq).grounded
  | @chosen _ _ _ _ _ _ e hq =>
    obtain ⟨r, hr, hq⟩ := exists_of_bind_eq_ok hq
    cases r with
    | none =>
      cases hq
      exact ⟨hm.new rfl, trivial⟩
    | some r =>
      have hr := hm.grounded_of_plan hr
      cases e with
      | none => exact Except.ok.inj hq ▸ hr
      | some e => exact Except.ok.inj hq ▸ ⟨hm.new rfl, hr⟩

/-- Whatever may come up in an evaluation of an enrolled provider, an old identity tells it from all
others. -/
theorem identified (hp : p.Enrolled roll) : p.Identified m := by
  intro q r hq hr hid hlt
  have hgrounded {q : Provider} (hq : p.Reaches m q) : q.Grounded roll :=
    hq.mem hp.grounded fun _ _ => hm.grounded_of_leads
  rw [hm.supply] at hlt
  have hq := (hgrounded hq).entry hlt
  have hr := (hgrounded hr).entry (hid ▸ hlt)
  rw [hid, hr] at hq
  exact (Option.some.inj (Option.some.inj hq)).symm

end Machine.Enrolled

end ProviderGraph
