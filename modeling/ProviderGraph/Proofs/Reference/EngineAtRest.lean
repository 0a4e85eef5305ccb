import ProviderGraph.Proofs.Graph.Agendas

/-!
# The engine at rest

On a machine that nothing changes, an answer depends on the open scopes alone, and every question
has one: each scope that is opened takes from the room that the limit leaves. What is built on the
way is new and cannot be open, so only scopes with old identities are watched for.
-/

namespace ProviderGraph

/-- How many more scopes can be opened. -/
def ScopeStack.room (s : ScopeStack) : Nat := s.limit - s.depth

namespace Machine

variable (m : Machine)

/-- Open a scope. Those of new providers are not watched for. -/
def enter (s : ScopeStack) (o : Owner) : Except Fault ScopeStack :=
  if o.id < m.supply ∧ s.isOpen o.id = true then
    .error (.circular (s.cycleFrom o.id ++ [o.label]))
  else if s.limit ≤ s.depth then .error (.tooDeep (s.depth + 1) s.limit)
  else .ok { s with frames := o :: s.frames }

variable {m} {s t : ScopeStack} {o : Owner}

/-- At rest a scope can be opened where there is room, and where its identity is new or not open. -/
theorem enter_eq_ok_iff :
    m.enter s o = .ok t ↔
      ¬ (o.id < m.supply ∧ s.isOpen o.id = true) ∧ s.depth < s.limit ∧
        t = { s with frames := o :: s.frames } := by
  rw [enter]
  split
  · next h => simp [h]
  · next h =>
    split
    · next hd => simp [Nat.not_lt.mpr hd]
    · next hd =>
      simp only [Except.ok.injEq, not_false_eq_true, h, Nat.not_le.mp hd, true_and]
      exact eq_comm

/-- What is not open can be entered where there is room. -/
theorem exists_enter (h : o.id < m.supply → s.isOpen o.id = false) (hd : s.depth < s.limit) :
    ∃ t, m.enter s o = .ok t :=
  ⟨_, enter_eq_ok_iff.mpr ⟨fun ho => Bool.eq_false_iff.mp (h ho.1) ho.2, hd, rfl⟩⟩

/-- There is one more scope inside a scope. -/
theorem depth_of_enter (h : m.enter s o = .ok t) : t.depth = s.depth + 1 := by
  obtain ⟨-, -, rfl⟩ := enter_eq_ok_iff.mp h
  rfl

/-- The limit is the same inside a scope. -/
theorem limit_of_enter (h : m.enter s o = .ok t) : t.limit = s.limit := by
  obtain ⟨-, -, rfl⟩ := enter_eq_ok_iff.mp h
  rfl

/-- A scope takes the room of one. -/
theorem room_of_enter (h : m.enter s o = .ok t) : t.room + 1 = s.room := by
  obtain ⟨-, hd, -⟩ := enter_eq_ok_iff.mp h
  rw [ScopeStack.room, ScopeStack.room, depth_of_enter h, limit_of_enter h]
  omega

/-- There is less room inside a scope. -/
theorem room_lt_of_enter (h : m.enter s o = .ok t) : t.room < s.room :=
  Nat.lt_of_succ_le (Nat.le_of_eq (room_of_enter h))

variable (m)

/-- The text of a provider whose scope is open, given a way to find the texts of others. A property
without a name shows what it reads from: the provider that was set or, while none is, its
convention. -/
def describe {M : Type → Type} [Monad M] (text : Provider → M String) : Provider → M String
  | .fixed _ x => pure ("fixed(" ++ x.text ++ ")")
  | .undefined _ _ _ => pure "undefined"
  | .changing _ _ none _ => pure "changing"
  | .changing _ _ (some node) _ => pure ("output of " ++ node)
  | .map _ base _ _ => do return "map(" ++ (← text base) ++ ")"
  | .flatMap _ base _ _ => do return "flatmap(" ++ (← text base) ++ ")"
  | .orElse _ left right => do
    let l ← text left
    let r ← text right
    return "or(" ++ l ++ ", " ++ r ++ ")"
  | .withEffect _ inner _ => text inner
  | .named _ _ name => pure name
  | .property p =>
    match p.name, (m.property p.id).value, (m.property p.id).convention with
    | some name, _, _ => pure name
    | none, some q, _ => do return "property(" ++ (← text q) ++ ")"
    | none, none, some q => do return "property(" ++ (← text q) ++ ")"
    | none, none, none => pure "property(undefined)"
  | .custom _ form _ _ _ =>
    match form.kind with
    | .plain => pure form.kind.name
    | .spy => pure (form.kind.name ++ "<" ++ form.label ++ ">")

/-- A property without a name shows the provider that it reads from. -/
theorem describe_property {M : Type → Type} [Monad M] (text : Provider → M String)
    (p : PropertyRef) :
    m.describe text (.property p) =
      match p.name with
      | some name => pure name
      | none =>
        match (m.property p.id).effective with
        | some q => do return "property(" ++ (← text q) ++ ")"
        | none => pure "property(undefined)" := by
  rw [describe, Property.effective]
  cases p.name with
  | some name => rfl
  | none => cases (m.property p.id).value <;> cases (m.property p.id).convention <;> rfl

def text (p : Provider) (label : String) (s : ScopeStack) : String :=
  match _h : m.enter s ⟨p.id, label⟩ with
  | .error _ => label
  | .ok t => m.describe (M := Id) (fun q => text q q.kind t) p
termination_by s.room
decreasing_by exact room_lt_of_enter ‹_›

/-- What the engine answers to a demand. -/
def atRest (d : Demand) (s : ScopeStack) : Except Fault d.Answer :=
  blame (m.text d.provider d.provider.kind s) <| (d.agenda m).run fun d' =>
    match _h : m.enter s d.provider.owner with
    | .error f => .error f
    | .ok t => atRest d' t
termination_by s.room
decreasing_by exact room_lt_of_enter ‹_›

/-- What the engine answers to a demand from inside the scope of an owner. -/
def asked (o : Owner) (s : ScopeStack) (d : Demand) : Except Fault d.Answer := do
  m.atRest d (← m.enter s o)

variable {m} in
/-- What is asked where the scope can be opened is answered inside it. -/
theorem asked_of_enter {d : Demand} (h : m.enter s o = .ok t) : m.asked o s d = m.atRest d t := by
  rw [asked, h]
  rfl

variable {m} in
/-- What is asked where the scope cannot be opened fails as the opening does. -/
theorem asked_of_enter_error {d : Demand} {f : Fault} (h : m.enter s o = .error f) :
    m.asked o s d = .error f := by
  rw [asked, h]
  rfl

/-- At rest a demand is met by its agenda, from inside the scope of the provider. -/
theorem atRest_eq (d : Demand) (s : ScopeStack) :
    m.atRest d s =
      blame (m.text d.provider d.provider.kind s)
        ((d.agenda m).run (m.asked d.provider.owner s)) := by
  rw [atRest]
  congr 2
  funext d'
  rw [asked]
  cases h : m.enter s d.provider.owner with
  | error f => simp; rfl
  | ok t => simp; rfl

/-- A provider whose scope cannot be opened is shown by its label. -/
theorem text_of_enter_error {p : Provider} {label : String} {f : Fault}
    (h : m.enter s ⟨p.id, label⟩ = .error f) : m.text p label s = label := by
  rw [text]
  split <;> simp_all

/-- A provider whose scope can be opened is described inside it. -/
theorem text_of_enter {p : Provider} {label : String} (h : m.enter s ⟨p.id, label⟩ = .ok t) :
    m.text p label s = m.describe (M := Id) (fun q => m.text q q.kind t) p := by
  rw [text]
  split <;> simp_all

end Machine

end ProviderGraph
