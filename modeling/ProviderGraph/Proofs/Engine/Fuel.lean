import ProviderGraph.Engine

/-!
# Answers with enough fuel

Fuel only bounds the search for an answer: more of it never changes one (`answer_mono`). `engine`
answers with as much fuel as it takes, and obeys its rules with no fuel at all (`engine_eq_rule`).
-/

namespace ProviderGraph

/-! ### What a sequence settles on -/

open Classical in
/-- The value that a sequence takes once it has one. -/
noncomputable def eventual {α : Type} (a : Nat → Option α) : Option α :=
  if h : ∃ n, (a n).isSome then a h.choose else none

section Eventual

variable {α : Type} {a : Nat → Option α}

/-- A sequence that never changes once it has a value has it from then on. -/
theorem some_of_le (mono : ∀ n r, a n = some r → a (n + 1) = some r) {n k : Nat} {r : α}
    (h : a n = some r) (hk : n ≤ k) : a k = some r := by
  induction hk with
  | refl => exact h
  | step _ ih => exact mono _ _ ih

/-- A sequence has an eventual value if it has the value at some point. -/
theorem eventual_eq_some_iff (mono : ∀ n r, a n = some r → a (n + 1) = some r) {r : α} :
    eventual a = some r ↔ ∃ n, a n = some r := by
  constructor
  · intro h
    rw [eventual] at h
    split at h
    · exact ⟨_, h⟩
    · exact absurd h (by simp)
  · rintro ⟨n, hn⟩
    have hex : ∃ n, (a n).isSome := ⟨n, by simp [hn]⟩
    rw [eventual, dif_pos hex]
    obtain ⟨r', hr'⟩ := Option.isSome_iff_exists.mp hex.choose_spec
    have h₁ := some_of_le mono hr' (Nat.le_max_left _ n)
    have h₂ := some_of_le mono hn (Nat.le_max_right hex.choose n)
    rw [hr', ← h₁, h₂]

end Eventual

/-! ### The engine -/

variable {α : Type}

/-- A run that ends still ends, and ends so, when more questions are answered. -/
theorem Eval.run_mono {a b : Answerer} (h : ∀ q m r, a q m = some r → b q m = some r)
    (x : Eval α) {m : Machine} {r : α × Machine} (hr : x.run a m = some r) :
    x.run b m = some r := by
  induction x generalizing m with
  | done => exact hr
  | ask q next ih =>
    obtain ⟨r₁, h₁, h₂⟩ := Option.bind_eq_some_iff.mp hr
    exact Option.bind_eq_some_iff.mpr ⟨r₁, h q m r₁ h₁, ih _ h₂⟩
  | look next ih => exact ih _ hr
  | fresh next ih => exact ih _ hr
  | change c next ih => exact ih hr
  | openScope name o next ih =>
    simp only [Eval.run] at hr ⊢
    split at hr <;> exact ih _ hr
  | inScope o body next ihb ih =>
    simp only [Eval.run] at hr ⊢
    split at hr
    · exact ih _ hr
    · obtain ⟨r₁, h₁, h₂⟩ := Option.bind_eq_some_iff.mp hr
      exact Option.bind_eq_some_iff.mpr ⟨r₁, ihb h₁, ih _ h₂⟩
  | onThread body next ihb ih =>
    obtain ⟨r₁, h₁, h₂⟩ := Option.bind_eq_some_iff.mp hr
    exact Option.bind_eq_some_iff.mpr ⟨r₁, ihb h₁, ih _ h₂⟩
  | withOwnLocals body next ihb ih =>
    obtain ⟨r₁, h₁, h₂⟩ := Option.bind_eq_some_iff.mp hr
    exact Option.bind_eq_some_iff.mpr ⟨r₁, ihb h₁, ih _ h₂⟩

/-- One more unit of fuel changes no answer. -/
theorem answer_mono_succ (fuel : Nat) (q : Query) (m : Machine) (r : q.Answer × Machine)
    (h : answer fuel q m = some r) : answer (fuel + 1) q m = some r := by
  induction fuel generalizing q m with
  | zero => exact absurd h (by simp)
  | succ fuel ih => exact Eval.run_mono ih _ h

/-- More fuel changes no answer. -/
theorem answer_mono {fuel fuel' : Nat} {q : Query} {m : Machine} {r : q.Answer × Machine}
    (hf : fuel ≤ fuel') (h : answer fuel q m = some r) : answer fuel' q m = some r :=
  some_of_le (a := fun n => answer n q m) (fun n => answer_mono_succ n q m) h hf

/-- What the engine answers, with as much fuel as it takes; `none`, when no fuel is enough. -/
noncomputable def engine : Answerer := fun q m => eventual fun fuel => answer fuel q m

/-- The engine gives an answer where some fuel is enough for it. -/
theorem engine_eq_some_iff {q : Query} {m : Machine} {r : q.Answer × Machine} :
    engine q m = some r ↔ ∃ fuel, answer fuel q m = some r :=
  eventual_eq_some_iff fun n => answer_mono_succ n q m

/-- An answer that is found with some fuel is the answer of the engine. -/
theorem engine_of_answer {fuel : Nat} {q : Query} {m : Machine} {r : q.Answer × Machine}
    (h : answer fuel q m = some r) : engine q m = some r := engine_eq_some_iff.mpr ⟨fuel, h⟩

/-- Two runs that end with some fuel end with the same fuel. -/
theorem Eval.exists_fuel_both {β : Type} {x : Eval α} {y : Eval β} {m n : Machine}
    {r : α × Machine} {s : β × Machine} (hx : ∃ fuel, x.run (answer fuel) m = some r)
    (hy : ∃ fuel, y.run (answer fuel) n = some s) :
    ∃ fuel, x.run (answer fuel) m = some r ∧ y.run (answer fuel) n = some s := by
  obtain ⟨f₁, h₁⟩ := hx
  obtain ⟨f₂, h₂⟩ := hy
  exact ⟨max f₁ f₂, run_mono (fun _ _ _ => answer_mono (Nat.le_max_left f₁ f₂)) x h₁,
    run_mono (fun _ _ _ => answer_mono (Nat.le_max_right f₁ f₂)) y h₂⟩

/-- A run that the engine answers needs only so much fuel. -/
theorem Eval.exists_fuel (x : Eval α) {m : Machine} {r : α × Machine}
    (hr : x.run engine m = some r) : ∃ fuel, x.run (answer fuel) m = some r := by
  induction x generalizing m with
  | done => exact ⟨0, hr⟩
  | ask q next ih =>
    obtain ⟨r₁, h₁, h₂⟩ := Option.bind_eq_some_iff.mp hr
    obtain ⟨f₁, h₁⟩ := engine_eq_some_iff.mp h₁
    obtain ⟨f₂, h₂⟩ := ih _ h₂
    exact ⟨max f₁ f₂, Option.bind_eq_some_iff.mpr ⟨r₁, answer_mono (Nat.le_max_left f₁ f₂) h₁,
      run_mono (fun _ _ _ => answer_mono (Nat.le_max_right f₁ f₂)) _ h₂⟩⟩
  | look next ih => exact ih _ hr
  | fresh next ih => exact ih _ hr
  | change c next ih => exact ih hr
  | openScope name o next ih =>
    simp only [run] at hr ⊢
    split at hr <;> exact ih _ hr
  | inScope o body next ihb ih =>
    simp only [run] at hr ⊢
    split at hr
    · exact ih _ hr
    · obtain ⟨r₁, h₁, h₂⟩ := Option.bind_eq_some_iff.mp hr
      obtain ⟨fuel, h₁, h₂⟩ := exists_fuel_both (ihb h₁) (ih _ h₂)
      exact ⟨fuel, Option.bind_eq_some_iff.mpr ⟨r₁, h₁, h₂⟩⟩
  | onThread body next ihb ih =>
    obtain ⟨r₁, h₁, h₂⟩ := Option.bind_eq_some_iff.mp hr
    obtain ⟨fuel, h₁, h₂⟩ := exists_fuel_both (ihb h₁) (ih _ h₂)
    exact ⟨fuel, Option.bind_eq_some_iff.mpr ⟨r₁, h₁, h₂⟩⟩
  | withOwnLocals body next ihb ih =>
    obtain ⟨r₁, h₁, h₂⟩ := Option.bind_eq_some_iff.mp hr
    obtain ⟨fuel, h₁, h₂⟩ := exists_fuel_both (ihb h₁) (ih _ h₂)
    exact ⟨fuel, Option.bind_eq_some_iff.mpr ⟨r₁, h₁, h₂⟩⟩

/-- The engine answers every question by its rule. -/
theorem engine_eq_rule (q : Query) (m : Machine) : engine q m = (rule q).run engine m := by
  refine Option.ext fun r => ⟨fun h => ?_, fun h => ?_⟩
  · obtain ⟨fuel, h⟩ := engine_eq_some_iff.mp h
    match fuel with
    | 0 => exact absurd h (by simp)
    | fuel + 1 => exact Eval.run_mono (fun q m r => engine_of_answer) _ h
  · obtain ⟨fuel, h⟩ := Eval.exists_fuel _ h
    exact engine_eq_some_iff.mpr ⟨fuel + 1, h⟩

/-- What a run with some fuel gives, the engine gives. -/
theorem Eval.run_engine_of_answer (fuel : Nat) {x : Eval α} {m : Machine} {r : α × Machine}
    (h : x.run (answer fuel) m = some r) : x.run engine m = some r :=
  Eval.run_mono (fun _ _ _ => engine_of_answer) x h

end ProviderGraph
