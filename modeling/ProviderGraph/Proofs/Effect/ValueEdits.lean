import ProviderGraph.Evaluation.Value

/-!
# Edits of values

A value starts with a payload or without one, and then effects are attached to it, its payload is
transformed, it is taken as a missing value of another type, names are pushed to its path, and the
paths of other values are added. What was done tells what unpacking the value does: every effect
runs once, in order, on the payload that it was attached to, or else the fault names the whole path
(`value_of_edits`).
-/

namespace ProviderGraph

namespace Value

variable {δ : Type}

inductive Start where
  | present (x : Payload)
  | missing (path : List String)
  | ofOption (x : Option Payload)

namespace Start

def value : Start → Value δ
  | .present x => .present x none
  | .missing path => .missing path
  | .ofOption x => .ofOption x

def payload? : Start → Option Payload
  | .present x => some x
  | .missing _ => none
  | .ofOption x => x

def path : Start → List String
  | .missing path => path
  | _ => []

theorem value_of_payload {start : Start} {x : Payload} (h : start.payload? = some x) :
    (start.value : Value δ) = .present x none := by
  cases start with
  | present y => simp_all [payload?, value]
  | missing path => simp [payload?] at h
  | ofOption y => simp_all [payload?, value, Value.ofOption]

theorem value_of_no_payload {start : Start} (h : start.payload? = none) :
    (start.value : Value δ) = .missing start.path := by
  cases start with
  | present y => simp [payload?] at h
  | missing path => rfl
  | ofOption y => simp_all [payload?, value, Value.ofOption, path]

end Start

inductive Edit (δ : Type) where
  | withEffect (e : Option (SideEffect δ))
  | transform (f : Payload → Payload)
  | asMissing
  | push (name : Option String)
  | addPath (other : Value δ)

namespace Edit

/-- What an edit makes of a value. Only a missing value is taken as one of another type. -/
def apply : Edit δ → Value δ → Option (Value δ)
  | .withEffect e, v => some (v.withEffect e)
  | .transform f, v => some (v.transform f)
  | .asMissing, v => v.asMissing
  | .push name, v => some (v.push name)
  | .addPath other, v => some (v.addPath other)

def payload : Edit δ → Payload → Payload
  | .transform f, x => f x
  | _, x => x

def effect? : Edit δ → Option (SideEffect δ)
  | .withEffect e => e
  | _ => none

def pushed? : Edit δ → Option String
  | .push name => name
  | _ => none

def added : Edit δ → List String
  | .addPath (.missing path) => path
  | _ => []

/-- An edit of a missing value lengthens its path. -/
theorem apply_missing (e : Edit δ) (path : List String) :
    e.apply (.missing path) = some (.missing (e.pushed?.toList ++ path ++ e.added)) := by
  cases e with
  | addPath other => cases other <;> simp [apply, Value.addPath, pushed?, added, Value.path]
  | _ =>
    simp [apply, Value.withEffect, Value.transform, Value.asMissing, Value.push, pushed?, added]

/-- An edit of a payload adds the deeds of the effect that it attaches, done on the payload as it is
then. -/
theorem unpack_apply {e : Edit δ} {v : Value δ} {x : Payload} {ds : List (δ × Payload)}
    (hv : v.unpack = .ok (x, ds)) (he : e ≠ .asMissing) :
    ∃ w, e.apply v = some w ∧
      w.unpack = .ok (e.payload x, ds ++ SideEffect.deedsOf e.effect? x) := by
  cases v with
  | missing path => cases hv
  | present y old =>
    cases hv
    cases e with
    | asMissing => exact absurd rfl he
    | withEffect new => exact ⟨_, rfl, by simp [Value.withEffect, unpack, payload, effect?]⟩
    | transform f =>
      -- the old effect stays bound to the old payload
      exact ⟨_, rfl,
        by simp [Value.transform, Value.withEffect, boundEffect, unpack, payload, effect?]⟩
    | push name => exact ⟨_, rfl, by simp [Value.push, unpack, payload, effect?]⟩
    | addPath other => exact ⟨_, rfl, by simp [Value.addPath, unpack, payload, effect?]⟩

end Edit

/-- What edits make of a value, one after the other. -/
def edit (es : List (Edit δ)) (v : Value δ) : Option (Value δ) :=
  es.foldlM (fun v e => e.apply v) v

theorem edit_cons (e : Edit δ) (es : List (Edit δ)) (v : Value δ) :
    edit (e :: es) v = (e.apply v).bind (edit es) := List.foldlM_cons

def payloadAfter (es : List (Edit δ)) (x : Payload) : Payload :=
  es.foldl (fun y e => e.payload y) x

/-- The effects that edits attach, each with the payload that the edits before it make. -/
def attached (es : List (Edit δ)) (x : Payload) : List (SideEffect δ × Payload) :=
  es.zipIdx.filterMap fun a => a.1.effect?.map (·, payloadAfter (es.take a.2) x)

theorem attached_cons (e : Edit δ) (es : List (Edit δ)) (x : Payload) :
    attached (e :: es) x = (e.effect?.map (·, x)).toList ++ attached es (e.payload x) := by
  rw [attached, List.zipIdx_cons, List.zipIdx_succ, List.filterMap_cons, List.filterMap_map]
  cases e.effect? <;> rfl

/-- The names that edits push, the last one first. -/
def pushed (es : List (Edit δ)) : List String := (es.filterMap Edit.pushed?).reverse

def added (es : List (Edit δ)) : List String := es.flatMap Edit.added

/-- Edits of a missing value tell its path. -/
theorem edit_missing (es : List (Edit δ)) (path : List String) :
    edit es (.missing path) = some (.missing (pushed es ++ path ++ added es)) := by
  induction es generalizing path with
  | nil => simp [edit, pushed, added]
  | cons e es ih =>
    rw [edit_cons, Edit.apply_missing, Option.bind_some, ih]
    cases h : e.pushed? <;> simp [pushed, added, h]

/-- Edits of a payload tell what unpacking it does. -/
theorem unpack_edit {es : List (Edit δ)} {v : Value δ} {x : Payload} {ds : List (δ × Payload)}
    (hv : v.unpack = .ok (x, ds)) (hes : .asMissing ∉ es) :
    ∃ w, edit es v = some w ∧
      w.unpack = .ok (payloadAfter es x, ds ++ (attached es x).flatMap fun a => a.1.deeds a.2) := by
  induction es generalizing v x ds with
  | nil => exact ⟨v, rfl, by simpa [payloadAfter, attached] using hv⟩
  | cons e es ih =>
    obtain ⟨he, hes⟩ := not_or.mp (mt List.mem_cons.mpr hes)
    obtain ⟨w, hw, hunpack⟩ := Edit.unpack_apply hv (Ne.symm he)
    obtain ⟨w', hw', hunpack'⟩ := ih hunpack hes
    refine ⟨w', by rw [edit_cons, hw, Option.bind_some, hw'], ?_⟩
    rw [hunpack', attached_cons]
    cases e.effect? <;> simp [payloadAfter]

/-- A value that is present is never taken as a missing one. -/
theorem edit_eq_none {es : List (Edit δ)} {v : Value δ} {x : Payload} {ds : List (δ × Payload)}
    (hv : v.unpack = .ok (x, ds)) (hes : .asMissing ∈ es) : edit es v = none := by
  induction es generalizing v x ds with
  | nil => cases hes
  | cons e es ih =>
    rw [edit_cons]
    by_cases he : e = .asMissing
    · cases v with
      | missing path => cases hv
      | present y old => simp [he, Edit.apply, asMissing]
    · obtain ⟨w, hw, hunpack⟩ := Edit.unpack_apply hv he
      rw [hw, Option.bind_some]
      exact ih hunpack ((List.mem_cons.mp hes).resolve_left (Ne.symm he))

end Value

/-! ### Unpacking -/

/-- Run an effect on a payload. A deed is an action, whose result plays no part. -/
def SideEffect.execute : SideEffect Action → Payload → Eval Unit
  | .deed a, x => do
    let _ ← Ask.act a none x
    return
  | .bound y e, _ => e.execute y
  | .both first second, x => do
    first.execute x
    second.execute x

/-- Run effects one after the other, each on its payload. -/
def performAll (effects : List (Effect × Payload)) : Eval Unit :=
  effects.forM fun a => a.1.execute a.2

theorem perform_append (ds ds' : List (Action × Payload)) :
    perform (ds ++ ds') = (do perform ds; perform ds') := by
  induction ds with
  | nil => simp [perform]
  | cons d ds ih => simp [perform, ih]

/-- To run an effect is to do its deeds. -/
theorem SideEffect.execute_eq (e : SideEffect Action) (x : Payload) :
    e.execute x = perform (e.deeds x) := by
  induction e generalizing x with
  | deed a => rfl
  | bound y e ih => exact ih y
  | both first second ihf ihs => rw [execute, deeds_both, perform_append, ihf, ihs]

/-- To run effects is to do the deeds of one after those of the other. -/
theorem performAll_eq (effects : List (Effect × Payload)) :
    performAll effects = perform (effects.flatMap fun a => a.1.deeds a.2) := by
  induction effects with
  | nil => rfl
  | cons a effects ih =>
    rw [List.flatMap_cons, perform_append, ← ih, ← SideEffect.execute_eq]
    rfl

theorem unpack_of_ok {v : Outcome} {x : Payload} {ds : List (Action × Payload)}
    (h : v.unpack = .ok (x, ds)) : unpack v = (do perform ds; return x) := by
  rw [unpack, h]

open Value (Start Edit edit attached payloadAfter pushed added)

/-- What was done to a value tells what unpacking it does. A value that starts without a payload
stays missing, without an effect; the names that are pushed stand in front of its path, the last one
first, and the paths of missing values that are added stand behind it. A value that starts with a
payload has one for good, without a path; every effect runs once, in the order in which they were
attached, on the payload as it was then. -/
theorem value_of_edits (start : Start) (es : List (Edit Action)) :
    (start.payload? = none →
      ∃ v : Outcome, edit es start.value = some v ∧ v.isMissing = true ∧ v.effect? = none ∧
        v.path = pushed es ++ start.path ++ added es ∧ unpack v = throw (.missingValue v.path)) ∧
    ∀ x, start.payload? = some x →
      (.asMissing ∈ es → edit es (start.value : Outcome) = none) ∧
      (.asMissing ∉ es →
        ∃ v : Outcome, edit es start.value = some v ∧ v.isMissing = false ∧ v.path = [] ∧
          unpack v = do
            performAll (attached es x)
            return payloadAfter es x) := by
  constructor
  · intro h
    rw [Start.value_of_no_payload h, Value.edit_missing]
    exact ⟨_, rfl, rfl, rfl, rfl, rfl⟩
  · intro x h
    rw [Start.value_of_payload h]
    have hstart : (.present x none : Outcome).unpack = .ok (x, []) := rfl
    refine ⟨Value.edit_eq_none hstart, fun hes => ?_⟩
    obtain ⟨v, hv, hunpack⟩ := Value.unpack_edit hstart hes
    cases v with
    | missing path => cases hunpack
    | present y e =>
      refine ⟨_, hv, rfl, rfl, ?_⟩
      rw [unpack_of_ok hunpack, List.nil_append, performAll_eq]

/-- A transform with an effect attached before it and another one after it. -/
def aroundTransform : List (Edit Action) :=
  [.push "a", .withEffect (some (.deed (.record "before"))), .transform fun _ => .int 2,
    .withEffect (some (.deed (.record "after"))), .addPath (.missing ["b"])]

/-- Of a value that is missing the path is put together; of one that is present the one effect runs
on the old payload and the other one on the new. -/
theorem value_of_edits_aroundTransform :
    (∃ v : Outcome, edit aroundTransform (Start.missing ["c"]).value = some v ∧
      v.effect? = none ∧ unpack v = throw (.missingValue ["a", "c", "b"])) ∧
    ∃ v : Outcome, edit aroundTransform (Start.present (.int 1)).value = some v ∧
      v.isMissing = false ∧ v.path = [] ∧
      unpack v = do
        let _ ← Ask.act (.record "before") none (.int 1)
        let _ ← Ask.act (.record "after") none (.int 2)
        return .int 2 := by
  constructor
  · obtain ⟨v, hv, -, heffect, hpath, hunpack⟩ :=
      (value_of_edits (.missing ["c"]) aroundTransform).1 rfl
    have hpath : v.path = ["a", "c", "b"] := hpath
    exact ⟨v, hv, heffect, by rw [hunpack, hpath]⟩
  · exact ((value_of_edits (.present (.int 1)) aroundTransform).2 _ rfl).2
      (by simp [aroundTransform])

end ProviderGraph
