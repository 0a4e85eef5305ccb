import ProviderGraph.Proofs.Reference.EngineAtRest

/-!
# Old and new identities

Two evaluations that build the same providers give them different identities. Seen from a machine
whose next identity is `k`, identities below `k` are old, and all others are new and look the same:
`Provider.blur` sets them to `k`. New providers are built from their parts upwards, which is what
keeps their scopes apart (`Provider.Placed`).
-/

namespace ProviderGraph

variable {k k' lo lo' hi hi' : Identity}

/-! ### Blurring -/

def Calls.blur (k : Identity) (calls : Calls) : Calls :=
  { calls with counter := min calls.counter k }

def Provider.blur (k : Identity) : Provider → Provider
  | .fixed i x => .fixed (min i k) x
  | .undefined i type path => .undefined (min i k) type path
  | .changing i type node calls => .changing (min i k) type node (calls.blur k)
  | .map i base f type => .map (min i k) (base.blur k) f type
  | .flatMap i base choice type => .flatMap (min i k) (base.blur k) choice type
  | .orElse i left right => .orElse (min i k) (left.blur k) (right.blur k)
  | .withEffect i inner e => .withEffect (min i k) (inner.blur k) e
  | .named i inner name => .named (min i k) (inner.blur k) name
  | .property p => .property p
  | .custom i form producer calls e => .custom (min i k) form producer (calls.blur k) e

def Owner.blur (k : Identity) (o : Owner) : Owner := { o with id := min o.id k }

def ScopeStack.blur (k : Identity) (s : ScopeStack) : ScopeStack :=
  { s with frames := s.frames.map (Owner.blur k) }

def Classification.blur (k : Identity) : Classification → Classification
  | .fixed x e => .fixed x e
  | .changing p => .changing (p.blur k)
  | .missing path => .missing path

def Demand.blur (k : Identity) : Demand → Demand
  | .value p => .value (p.blur k)
  | .presence p => .presence (p.blur k)
  | .producer p => .producer (p.blur k)
  | .classification p => .classification (p.blur k)

namespace Provider

variable (p : Provider)

@[simp] theorem kind_blur : (p.blur k).kind = p.kind := by cases p <;> rfl

@[simp] theorem label_blur : (p.blur k).label = p.label := by cases p <;> rfl

@[simp] theorem declaredName_blur : (p.blur k).declaredName = p.declaredName := by
  cases p <;> rfl

@[simp] theorem type_blur : (p.blur k).type = p.type := by
  induction p <;> simp_all [blur, type]

end Provider

/-! ### Shapes -/

section Shapes

variable {p q left right : Provider} {i : Identity} {type : PayloadType}

/-- Only a fixed provider looks like a fixed one. -/
theorem Provider.exists_fixed_of_blur {x : Payload} (h : p.blur k = .fixed i x) :
    ∃ j, p = .fixed j x := by
  cases p with
  | fixed j y =>
    cases h
    exact ⟨j, rfl⟩
  | _ => cases h

/-- Only an undefined provider looks like an undefined one. -/
theorem Provider.exists_undefined_of_blur {path : List String}
    (h : p.blur k = .undefined i type path) : ∃ j, p = .undefined j type path := by
  cases p with
  | undefined j =>
    cases h
    exact ⟨j, rfl⟩
  | _ => cases h

/-- Only a leaf looks like a leaf. -/
theorem Provider.exists_changing_of_blur {node : Option String} {calls : Calls}
    (h : p.blur k = .changing i type node calls) :
    ∃ j calls', p = .changing j type node calls' ∧ calls'.blur k = calls := by
  cases p with
  | changing j =>
    cases h
    exact ⟨j, _, rfl, rfl⟩
  | _ => cases h

/-- Only a map looks like a map, and their bases look alike. -/
theorem Provider.exists_map_of_blur {f : Closure} (h : p.blur k = .map i q f type) :
    ∃ j base, p = .map j base f type ∧ base.blur k = q := by
  cases p with
  | map j base =>
    cases h
    exact ⟨j, base, rfl, rfl⟩
  | _ => cases h

/-- Only a flat map looks like a flat map, and their bases look alike. -/
theorem Provider.exists_flatMap_of_blur {choice : Recipe}
    (h : p.blur k = .flatMap i q choice type) :
    ∃ j base, p = .flatMap j base choice type ∧ base.blur k = q := by
  cases p with
  | flatMap j base =>
    cases h
    exact ⟨j, base, rfl, rfl⟩
  | _ => cases h

/-- Only a fallback looks like a fallback, and both their sides look alike. -/
theorem Provider.exists_orElse_of_blur (h : p.blur k = .orElse i left right) :
    ∃ j l r, p = .orElse j l r ∧ l.blur k = left ∧ r.blur k = right := by
  cases p with
  | orElse j l r =>
    cases h
    exact ⟨j, l, r, rfl, rfl, rfl⟩
  | _ => cases h

/-- Only a provider with an effect looks like one, and has the same effect. -/
theorem Provider.exists_withEffect_of_blur {e : Effect} (h : p.blur k = .withEffect i q e) :
    ∃ j inner, p = .withEffect j inner e ∧ inner.blur k = q := by
  cases p with
  | withEffect j inner =>
    cases h
    exact ⟨j, inner, rfl, rfl⟩
  | _ => cases h

/-- Only a named provider looks like a named one, and has the same name. -/
theorem Provider.exists_named_of_blur {name : String} (h : p.blur k = .named i q name) :
    ∃ j inner, p = .named j inner name ∧ inner.blur k = q := by
  cases p with
  | named j inner =>
    cases h
    exact ⟨j, inner, rfl, rfl⟩
  | _ => cases h

/-- Only a provider brought along looks like one, of the same form. -/
theorem Provider.exists_custom_of_blur {form : CustomForm} {producer : Producer} {calls : Calls}
    {e : Option Effect} (h : p.blur k = .custom i form producer calls e) :
    ∃ j calls', p = .custom j form producer calls' e ∧ calls'.blur k = calls := by
  cases p with
  | custom j =>
    cases h
    exact ⟨j, _, rfl, rfl⟩
  | _ => cases h

/-- A property looks like itself alone. -/
theorem Provider.eq_property_of_blur {r : PropertyRef} (h : p.blur k = .property r) :
    p = .property r := by
  cases p with
  | property =>
    cases h
    rfl
  | _ => cases h

end Shapes

@[simp] theorem Demand.provider_blur (d : Demand) : (d.blur k).provider = d.provider.blur k := by
  cases d <;> rfl

namespace ScopeStack

variable (s : ScopeStack)

@[simp] theorem depth_blur : (s.blur k).depth = s.depth := by simp [blur, depth]

@[simp] theorem limit_blur : (s.blur k).limit = s.limit := rfl

variable {s} {i : Identity}

private theorem min_eq_iff_of_lt {i j k : Nat} (h : i < k) : min j k = i ↔ j = i := by omega

theorem blur_beq_of_lt (h : i < k) (o : Owner) : ((o.blur k).id == i) = (o.id == i) := by
  rw [Bool.eq_iff_iff, beq_iff_eq, beq_iff_eq]
  exact min_eq_iff_of_lt h

/-- Whether an old identity is open can be seen with new ones blurred. -/
theorem isOpen_blur_of_lt (h : i < k) : (s.blur k).isOpen i = s.isOpen i := by
  simp only [isOpen, blur, List.any_map]
  exact congrArg _ (funext (blur_beq_of_lt h))

/-- A cycle back to an old identity can be seen with new ones blurred. -/
theorem cycleFrom_blur_of_lt (h : i < k) : (s.blur k).cycleFrom i = s.cycleFrom i := by
  simp only [cycleFrom, blur, List.map_map, List.findIdx_map]
  rw [show (fun o => o.id == i) ∘ Owner.blur k = fun o : Owner => o.id == i from
    funext (blur_beq_of_lt h)]
  rfl

end ScopeStack

/-! ### Where identities are -/

/-- The identity is old, or new and between the bounds. -/
def Identity.Placed (k lo hi i : Identity) : Prop := i < k ∨ lo ≤ i ∧ i < hi

/-- The identities of a provider and its parts are old or between `lo` and `hi`, and no part has a
new identity that is as high as that of the provider. -/
def Provider.Placed (k lo hi : Identity) : Provider → Prop
  | .fixed i _ | .undefined i _ _ | .changing i _ _ _ | .custom i _ _ _ _ =>
    Identity.Placed k lo hi i
  | .map i base _ _ | .flatMap i base _ _ =>
    Identity.Placed k lo hi i ∧ base.Placed k lo i
  | .orElse i left right =>
    Identity.Placed k lo hi i ∧ left.Placed k lo i ∧ right.Placed k lo i
  | .withEffect i inner _ | .named i inner _ =>
    Identity.Placed k lo hi i ∧ inner.Placed k lo i
  | .property p => p.id < k

/-- All identities of a provider and its parts are old. -/
def Provider.Minted (k : Identity) : Provider → Prop
  | .fixed i _ | .undefined i _ _ => i < k
  | .changing i _ _ calls | .custom i _ _ calls _ => i < k ∧ calls.counter < k
  | .map i base _ _ | .flatMap i base _ _ => i < k ∧ base.Minted k
  | .orElse i left right => i < k ∧ left.Minted k ∧ right.Minted k
  | .withEffect i inner _ | .named i inner _ => i < k ∧ inner.Minted k
  | .property p => p.id < k

theorem Identity.Placed.mono {i : Identity} (h : Identity.Placed k lo hi i) (hlo : lo' ≤ lo)
    (hhi : hi ≤ hi') : Identity.Placed k lo' hi' i :=
  h.imp_right fun h => ⟨Nat.le_trans hlo h.1, Nat.lt_of_lt_of_le h.2 hhi⟩

namespace Provider

variable {p : Provider}

theorem Placed.mono (h : p.Placed k lo hi) (hlo : lo' ≤ lo) (hhi : hi ≤ hi') :
    p.Placed k lo' hi' := by
  induction p generalizing hi hi' with
  | fixed | undefined | changing | custom => exact Identity.Placed.mono h hlo hhi
  | map _ _ _ _ ih | flatMap _ _ _ _ ih | withEffect _ _ _ ih | named _ _ _ ih =>
    exact ⟨h.1.mono hlo hhi, ih h.2 (Nat.le_refl _)⟩
  | orElse _ _ _ ihl ihr =>
    exact ⟨h.1.mono hlo hhi, ihl h.2.1 (Nat.le_refl _), ihr h.2.2 (Nat.le_refl _)⟩
  | property => exact h

/-- What is old stays old. -/
theorem Placed.older (h : p.Placed k lo hi) (hk : k ≤ k') : p.Placed k' lo hi := by
  have older {i hi : Identity} (h : Identity.Placed k lo hi i) : Identity.Placed k' lo hi i :=
    h.imp_left fun h => Nat.lt_of_lt_of_le h hk
  induction p generalizing hi with
  | fixed | undefined | changing | custom => exact older h
  | map _ _ _ _ ih | flatMap _ _ _ _ ih | withEffect _ _ _ ih | named _ _ _ ih =>
    exact ⟨older h.1, ih h.2⟩
  | orElse _ _ _ ihl ihr => exact ⟨older h.1, ihl h.2.1, ihr h.2.2⟩
  | property => exact Nat.lt_of_lt_of_le h hk

/-- The identity of a provider is one of its identities. -/
theorem Placed.id (h : p.Placed k lo hi) : Identity.Placed k lo hi p.id := by
  cases p with
  | fixed | undefined | changing | custom => exact h
  | map | flatMap | orElse | withEffect | named => exact h.1
  | property => exact .inl h

/-- Where all identities are old none lies out of place. -/
theorem Minted.placed (h : p.Minted k) : p.Placed k lo hi := by
  induction p generalizing hi with
  | fixed | undefined => exact .inl h
  | changing | custom => exact .inl h.1
  | map _ _ _ _ ih | flatMap _ _ _ _ ih | withEffect _ _ _ ih | named _ _ _ ih =>
    exact ⟨.inl h.1, ih h.2⟩
  | orElse _ _ _ ihl ihr => exact ⟨.inl h.1, ihl h.2.1, ihr h.2.2⟩
  | property => exact h

theorem Minted.mono (h : p.Minted k) (hk : k ≤ k') : p.Minted k' := by
  have older {i : Identity} (h : i < k) : i < k' := Nat.lt_of_lt_of_le h hk
  induction p with
  | fixed | undefined | property => exact older h
  | changing | custom => exact ⟨older h.1, older h.2⟩
  | map _ _ _ _ ih | flatMap _ _ _ _ ih | withEffect _ _ _ ih | named _ _ _ ih =>
    exact ⟨older h.1, ih h.2⟩
  | orElse _ _ _ ihl ihr => exact ⟨older h.1, ihl h.2.1, ihr h.2.2⟩

/-- The identity of a minted provider is old. -/
theorem Minted.id_lt (h : p.Minted k) : p.id < k := by
  cases p with
  | fixed | undefined | property => exact h
  | changing | custom | map | flatMap | orElse | withEffect | named => exact h.1

/-- A provider without new identities looks like itself. -/
theorem Minted.blur_eq (h : p.Minted k) : p.blur k = p := by
  induction p with
  | fixed | undefined => simp [blur, Nat.min_eq_left (Nat.le_of_lt h)]
  | changing | custom =>
    simp [blur, Calls.blur, Nat.min_eq_left (Nat.le_of_lt h.1), Nat.min_eq_left (Nat.le_of_lt h.2)]
  | map _ _ _ _ ih | flatMap _ _ _ _ ih | withEffect _ _ _ ih | named _ _ _ ih =>
    simp [blur, Nat.min_eq_left (Nat.le_of_lt h.1), ih h.2]
  | orElse _ _ _ ihl ihr =>
    simp [blur, Nat.min_eq_left (Nat.le_of_lt h.1), ihl h.2.1, ihr h.2.2]
  | property => rfl

end Provider

/-- The identities of the providers and properties that a machine knows are old, and so are those of
the open scopes. -/
structure Machine.Minted (m : Machine) : Prop where
  frames : ∀ o ∈ m.stack.frames, o.id < m.supply
  providers : ∀ name p, m.providerRegisters.find? name = some p → p.Minted m.supply
  properties : ∀ name r, m.propertyRegisters.find? name = some r → r.id < m.supply
  effective : ∀ i q, (m.property i).effective = some q → q.Minted m.supply

/-- The stack with old frames looks like itself. -/
theorem ScopeStack.blur_eq {s : ScopeStack} (h : ∀ o ∈ s.frames, o.id < k) : s.blur k = s := by
  obtain ⟨frames, limit⟩ := s
  simp only [blur, ScopeStack.mk.injEq, and_true]
  exact (List.map_congr_left fun o ho =>
    show o.blur k = o by rw [Owner.blur, Nat.min_eq_left (Nat.le_of_lt (h o ho))]).trans
      (List.map_id _)

end ProviderGraph
