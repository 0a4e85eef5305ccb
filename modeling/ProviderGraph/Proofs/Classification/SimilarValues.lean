import ProviderGraph.Proofs.Reference.ScopeDisciplines

/-!
# Values that differ in their paths

The rules for values under a discipline, and values that are the same but for the path of a missing
one. Two providers that ask similar values of their parts have similar values.
-/

namespace ProviderGraph

/-- Both values are the same, or both are missing, each with a path of its own. -/
inductive Value.Similar {δ : Type} : Value δ → Value δ → Prop where
  | present (x : Payload) (e : Option (SideEffect δ)) : Similar (.present x e) (.present x e)
  | missing (path path' : List String) : Similar (.missing path) (.missing path')

namespace Value.Similar

variable {δ : Type} {u v w : Value δ}

theorem refl (v : Value δ) : v.Similar v := by
  cases v with
  | present x e => exact .present x e
  | missing path => exact .missing path path

theorem symm (h : v.Similar w) : w.Similar v := by
  cases h with
  | present x e => exact .present x e
  | missing path path' => exact .missing path' path

theorem trans (h : u.Similar v) (h' : v.Similar w) : u.Similar w := by
  cases h with
  | present => exact h'
  | missing =>
    cases h'
    exact .missing _ _

/-- Names in front of the paths keep values similar. -/
theorem push (h : v.Similar w) (name name' : Option String) :
    (v.push name).Similar (w.push name') := by
  cases h with
  | present x e => exact .present x e
  | missing path path' => exact .missing _ _

theorem push_left (h : v.Similar w) (name : Option String) : (v.push name).Similar w := by
  cases h with
  | present x e => exact .present x e
  | missing path path' => exact .missing _ path'

/-- An effect behind both values keeps them similar. -/
theorem withEffect (h : v.Similar w) (e : Option (SideEffect δ)) :
    (v.withEffect e).Similar (w.withEffect e) := by
  cases h with
  | present x old => exact .present x _
  | missing path path' => exact .missing path path'

/-- Unpacking gives the same payload after the same deeds on the same payloads, or nothing. -/
theorem unpack (h : v.Similar w) : v.unpack.toOption = w.unpack.toOption := by
  cases h <;> rfl

end Value.Similar

open Provider (chosen)

/-- What a map makes of the value of its base. -/
def Closure.mapped (f : Closure) : Outcome → Except Failure Outcome
  | .present x e => do
    return (Value.ofOption (← f.code.result f.held x)).withEffect (SideEffect.boundTo x e)
  | .missing path => .ok (.missing path)

/-- A map makes similar values of similar ones. -/
theorem Closure.exists_mapped {f : Closure} {b b' v : Outcome} (h : f.mapped b = .ok v)
    (hb : b.Similar b') : ∃ v', f.mapped b' = .ok v' ∧ v.Similar v' := by
  cases hb with
  | present x e => exact ⟨v, h, .refl v⟩
  | missing path path' =>
    obtain rfl := Except.ok.inj h
    exact ⟨_, rfl, .missing path path'⟩

/-! ### Rules -/

section Rules

variable {σ : Type} {m : Machine} {E : Discipline σ} {s : σ} {v : Outcome} {i : Identity}
  {base : Provider} {type : PayloadType}

open Agenda

theorem yields_fixed_iff {x : Payload} :
    m.Yields E s (.value (.fixed i x)) v ↔ .present x none = v := yields_pure_iff

theorem yields_undefined_iff {path : List String} :
    m.Yields E s (.value (.undefined i type path)) v ↔ .missing path = v := yields_pure_iff

/-- A map has what its function makes of the value of its base. -/
theorem yields_map_iff {f : Closure} :
    m.Yields E s (.value (.map i base f type)) v ↔
      ∃ b, (askValue base).Yields m E s (.map i base f type) b ∧ f.mapped b = .ok v := by
  refine yields_bind_iff.trans (exists_congr fun b => and_congr_right fun _ => ?_)
  cases b with
  | missing path => exact yields_pure_iff.trans ⟨congrArg Except.ok, Except.ok.inj⟩
  | present x e =>
    refine yields_bind_iff.trans ⟨?_, fun h => ?_⟩
    · rintro ⟨y, hy, hv⟩
      rw [Closure.mapped, yields_done_iff.mp hy, ← yields_pure_iff.mp hv]
      rfl
    · rw [Closure.mapped] at h
      cases hy : f.code.result f.held x with
      | error e => exact nomatch hy ▸ h
      | ok y =>
        rw [hy] at h
        exact ⟨y, yields_done_iff.mpr rfl, yields_pure_iff.mpr (Except.ok.inj h)⟩

/-- A flat map has the value of what it chooses, and is missing where its base is. -/
theorem yields_flatMap_iff {choice : Recipe} :
    m.Yields E s (.value (.flatMap i base choice type)) v ↔
      ∃ b, (askValue base).Yields m E s (.flatMap i base choice type) b ∧
        match b with
        | .missing path => .missing path = v
        | .present x e => ∃ q, chosen m choice type x (SideEffect.boundTo x e) = .ok q ∧
            (askValue q).Yields m E s (.flatMap i base choice type) v := by
  refine yields_bind_iff.trans (exists_congr fun b => and_congr_right fun _ => ?_)
  cases b with
  | missing path => exact yields_pure_iff
  | present x e =>
    exact yields_bind_iff.trans (exists_congr fun q => and_congr_left fun _ => yields_done_iff)

/-- A fallback has the value of its left side, or else that of its right side under both paths. -/
theorem yields_orElse_iff {left right : Provider} :
    m.Yields E s (.value (.orElse i left right)) v ↔
      ∃ l, (askValue left).Yields m E s (.orElse i left right) l ∧
        match l with
        | .present x e => .present x e = v
        | .missing path => ∃ r, (askValue right).Yields m E s (.orElse i left right) r ∧
            (if r.isMissing then .missing (path ++ r.path) else r) = v := by
  refine yields_bind_iff.trans (exists_congr fun l => and_congr_right fun _ => ?_)
  cases l with
  | present x e => exact yields_pure_iff
  | missing path =>
    refine yields_bind_iff.trans (exists_congr fun r => and_congr_right fun _ => ?_)
    cases r with
    | present x e => exact yields_pure_iff
    | missing path' => exact yields_pure_iff

/-- What a fallback has when there is nothing on the left. -/
theorem similar_fallback {path : List String} (r : Outcome) :
    (if r.isMissing then .missing (path ++ r.path) else r).Similar r := by
  cases r with
  | present x e => exact .present x e
  | missing path' => exact .missing _ _

/-- The effect is added to the value. -/
theorem yields_withEffect_iff {inner : Provider} {e : Effect} :
    m.Yields E s (.value (.withEffect i inner e)) v ↔
      ∃ b, (askValue inner).Yields m E s (.withEffect i inner e) b ∧ b.withEffect (some e) = v :=
  yields_bind_iff.trans (exists_congr fun _ => and_congr_right fun _ => yields_pure_iff)

theorem yields_named_iff {inner : Provider} {name : String} :
    m.Yields E s (.value (.named i inner name)) v ↔
      (askValue inner).Yields m E s (.named i inner name) v := .rfl

/-- A property has the value of what it reads from. -/
theorem yields_property_iff {r : PropertyRef} {q : Provider}
    (hq : (m.property r.id).effective = some q) :
    m.Yields E s (.value (.property r)) v ↔ (askValue q).Yields m E s (.property r) v := by
  rw [Machine.Yields, Demand.agenda, Provider.valueAgenda, hq]
  rfl

/-- A property that holds nothing is missing. -/
theorem yields_unset_iff {r : PropertyRef} (hq : (m.property r.id).effective = none) :
    m.Yields E s (.value (.property r)) v ↔ .missing [] = v := by
  rw [Machine.Yields, Demand.agenda, Provider.valueAgenda, hq]
  exact yields_pure_iff

end Rules

end ProviderGraph
