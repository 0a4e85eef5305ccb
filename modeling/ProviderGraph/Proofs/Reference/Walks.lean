import ProviderGraph.Proofs.Reference.ScopeDisciplines

/-!
# Walks

A query walks from provider to provider, as their agendas demand: a demand is followed after those
before it were met. The providers that are being walked through form a path, the innermost first,
and the walk ends at the first of them that would be walked through again. New providers are no
part of the graph and are never met again.
-/

namespace ProviderGraph

/-- The discipline of walking: no old provider is walked through twice at a time. -/
def Machine.walking (m : Machine) : Discipline (List Provider) := fun path p path' =>
  (p.id < m.supply → p ∉ path) ∧ path' = p :: path

/-- The walk through the agenda of `p` comes back to a provider on its path. The cycle has the
labels along the path from that provider to that provider again. -/
inductive Agenda.Reenters (m : Machine) :
    {α : Type} → List Provider → Provider → Agenda α → List String → Prop where
  | here {α : Type} (inner outer : List Provider) {p : Provider} {d : Demand}
      {next : d.Answer → Agenda α} (hid : p.id < m.supply) (hp : p ∉ inner) :
    Reenters m (inner ++ p :: outer) p (.ask d next)
      (p.label :: (inner.reverse.map Provider.label ++ [p.label]))
  | inside {α : Type} {path path' : List Provider} {p : Provider} {d : Demand}
      {next : d.Answer → Agenda α} {cycle : List String} (hp : m.walking path p path')
      (h : Reenters m path' d.provider (d.agenda m) cycle) : Reenters m path p (.ask d next) cycle
  | later {α : Type} {path path' : List Provider} {p : Provider} {d : Demand}
      {next : d.Answer → Agenda α} {a : d.Answer} {cycle : List String}
      (hp : m.walking path p path') (hd : m.Yields m.walking path' d a)
      (h : Reenters m path p (next a) cycle) : Reenters m path p (.ask d next) cycle

/-- The walk that a demand starts comes back to a provider on its path. -/
def Machine.Reenters (m : Machine) (d : Demand) (cycle : List String) : Prop :=
  Agenda.Reenters m [] d.provider (d.agenda m) cycle

variable {α : Type} {m : Machine} {path path' inner outer : List Provider} {p : Provider}
  {x : Agenda α} {a : α} {cycle cycle' : List String}

/-- There is one way to walk on. -/
theorem Machine.walking_deterministic : m.walking.Deterministic :=
  fun _ _ _ _ h h' => h.2.trans h'.2.symm

/-- An old provider on the path is not walked through again. -/
theorem Machine.not_walking (hid : p.id < m.supply) :
    ¬ m.walking (inner ++ p :: outer) p path' := fun h =>
  h.1 hid (List.mem_append_right inner List.mem_cons_self)

/-- What stands before the first occurrence is determined. -/
theorem eq_of_append_cons_eq {inner' outer' : List Provider} (hp : p ∉ inner) (hp' : p ∉ inner')
    (h : inner ++ p :: outer = inner' ++ p :: outer') : inner = inner' := by
  induction inner generalizing inner' with
  | nil =>
    cases inner' with
    | nil => rfl
    | cons q inner' => exact absurd (List.cons.inj h).1 (List.ne_of_not_mem_cons hp')
  | cons q inner ih =>
    cases inner' with
    | nil => exact absurd (List.cons.inj h).1.symm (List.ne_of_not_mem_cons hp)
    | cons q' inner' =>
      obtain ⟨rfl, htail⟩ := List.cons.inj h
      rw [ih (List.not_mem_of_not_mem_cons hp) (List.not_mem_of_not_mem_cons hp') htail]

namespace Agenda.Reenters

/-- The first and the last label of a cycle are the same. -/
theorem labels (h : x.Reenters m path p cycle) :
    ∃ label between, cycle = label :: (between ++ [label]) := by
  induction h with
  | here => exact ⟨_, _, rfl⟩
  | inside _ _ ih => exact ih
  | later _ _ _ ih => exact ih

/-- A walk that comes back to its path comes to no result. -/
theorem not_yields (h : x.Reenters m path p cycle) : ¬ x.Yields m m.walking path p a := by
  intro hx
  induction h with
  | here inner outer hid hp =>
    cases hx with
    | ask hw => exact Machine.not_walking hid hw
  | inside hw h ih =>
    cases hx with
    | ask hw' hd' =>
      obtain rfl := Machine.walking_deterministic _ _ _ _ hw hw'
      exact ih hd'
  | later hw hd h ih =>
    cases hx with
    | ask hw' hd' hx =>
      obtain rfl := Machine.walking_deterministic _ _ _ _ hw hw'
      obtain rfl := Agenda.Yields.deterministic Machine.walking_deterministic hd hd'
      exact ih hx

/-- A walk comes back to its path in one way. -/
theorem deterministic (h : x.Reenters m path p cycle) (h' : x.Reenters m path p cycle') :
    cycle = cycle' := by
  induction h with
  | @here _ inner outer p _ _ hid hp =>
    generalize hpath : inner ++ p :: outer = path at h'
    cases h' with
    | here _ _ _ hp' =>
      obtain rfl := eq_of_append_cons_eq hp hp' hpath
      rfl
    | inside hw => exact absurd (hpath ▸ hw) (Machine.not_walking hid)
    | later hw => exact absurd (hpath ▸ hw) (Machine.not_walking hid)
  | inside hw h ih =>
    cases h' with
    | here _ _ hid => exact absurd hw (Machine.not_walking hid)
    | inside hw' h' =>
      obtain rfl := Machine.walking_deterministic _ _ _ _ hw hw'
      exact ih h'
    | later hw' hd' _ =>
      obtain rfl := Machine.walking_deterministic _ _ _ _ hw hw'
      exact absurd hd' h.not_yields
  | later hw hd h ih =>
    cases h' with
    | here _ _ hid => exact absurd hw (Machine.not_walking hid)
    | inside hw' h' =>
      obtain rfl := Machine.walking_deterministic _ _ _ _ hw hw'
      exact absurd hd h'.not_yields
    | later hw' hd' h' =>
      obtain rfl := Machine.walking_deterministic _ _ _ _ hw hw'
      obtain rfl := Agenda.Yields.deterministic Machine.walking_deterministic hd hd'
      exact ih h'

end Agenda.Reenters

end ProviderGraph
