import Mathlib.Data.List.TakeWhile
import ProviderGraph.Proofs.Session.Courses
import ProviderGraph.Proofs.Settings.Digits
import ProviderGraph.Settings.Environment

/-!
# The depth limit of the environment

The variable gives a depth when it is unset, or when its text is a decimal number between blanks,
perhaps with a plus sign, that is positive and fits 64 bits (`Variable.Gives`). These are the
variables that settings are read from (`ofEnvironment_eq_ok_iff`), and every thread of a session
starts with the depth so given, or with the standard one (`environment_limits_threads`).
-/

namespace ProviderGraph

/-! ### Digits -/

namespace Settings

/-- Reading succeeds on digits alone, and only while the number fits. -/
theorem readDigits_eq_ok_iff {n k : Nat} {cs : List Char} (hn : n ≤ greatestDepth) :
    readDigits n cs = .ok k ↔
      (∀ c ∈ cs, c.isDigit = true) ∧ Nat.ofDigitChars 10 cs n = k ∧ k ≤ greatestDepth := by
  induction cs generalizing n with
  | nil =>
    simp only [readDigits, Except.ok.injEq, List.not_mem_nil, false_implies, implies_true,
      Nat.ofDigitChars_nil, true_and]
    exact ⟨fun h => ⟨h, h ▸ hn⟩, fun h => h.1⟩
  | cons c cs ih =>
    rw [readDigits, Nat.ofDigitChars_cons, Nat.mul_comm 10 n]
    by_cases hc : c.isDigit = true
    · by_cases hlarge : greatestDepth < n * 10 + (c.toNat - '0'.toNat)
      · -- what is already too large stays too large
        simp only [hc, hlarge, not_true_eq_false, if_false, if_true, reduceCtorEq, false_iff]
        rintro ⟨-, hk, hfits⟩
        have := le_ofDigitChars (n * 10 + (c.toNat - '0'.toNat)) cs
        omega
      · simp only [hc, hlarge, not_true_eq_false, if_false, ih (Nat.le_of_not_lt hlarge),
          List.forall_mem_cons, true_and]
    · simp [hc]

/-- A depth is read from decimal digits, perhaps after a plus sign. -/
theorem readDepth_eq_ok_iff {cs : List Char} {n : Nat} :
    readDepth cs = .ok n ↔
      ∃ sign digits, cs = sign ++ digits ∧ (sign = [] ∨ sign = ['+']) ∧ Denotes digits n := by
  have hdigits {ds : List Char} (hds : ds ≠ []) :
      readDigits 0 ds = .ok n ↔ Denotes ds n := by
    rw [readDigits_eq_ok_iff (Nat.zero_le _)]
    exact ⟨fun h => ⟨hds, h.1, h.2.1, h.2.2⟩, fun h => ⟨h.decimal, h.value, h.fits⟩⟩
  constructor
  · intro h
    unfold readDepth at h
    split at h
    · cases h
    · cases h
    · next ds hne => exact ⟨['+'], ds, rfl, .inr rfl, (hdigits fun he => hne (he ▸ rfl)).mp h⟩
    · next hne _ _ => exact ⟨[], cs, rfl, .inl rfl, (hdigits hne).mp h⟩
  · rintro ⟨sign, digits, rfl, rfl | rfl, hd⟩
    · obtain ⟨c, ds, rfl⟩ := List.exists_cons_of_ne_nil hd.nonempty
      have hc : c ≠ '+' := by
        rintro rfl
        exact absurd (hd.decimal '+' (by simp)) (by decide)
      have hread : readDepth (c :: ds) = readDigits 0 (c :: ds) := by
        unfold readDepth
        split <;> simp_all
      exact hread.trans ((hdigits hd.nonempty).mpr hd)
    · obtain ⟨c, ds, rfl⟩ := List.exists_cons_of_ne_nil hd.nonempty
      exact (hdigits hd.nonempty).mpr hd

end Settings

/-! ### Blanks -/

namespace Text

theorem isBlank_plus : isBlank '+' = false := by
  simp [isBlank, RangeTable.holds, blankRanges]

theorem isBlank_of_isDigit {c : Char} (h : c.isDigit = true) : isBlank c = false := by
  have := toNat_of_isDigit h
  simp only [isBlank, RangeTable.holds, blankRanges]
  simp
  omega

/-- Trimming takes away blanks only. -/
theorem exists_eq_trimBlanks (cs : List Char) :
    ∃ before after, cs = before ++ trimBlanks cs ++ after ∧
      (∀ c ∈ before, isBlank c = true) ∧ ∀ c ∈ after, isBlank c = true := by
  let rest := cs.dropWhile isBlank
  have hrest : rest = trimBlanks cs ++ (rest.reverse.takeWhile isBlank).reverse := by
    rw [trimBlanks, ← List.reverse_append, List.takeWhile_append_dropWhile, List.reverse_reverse]
  refine ⟨cs.takeWhile isBlank, (rest.reverse.takeWhile isBlank).reverse, ?_, ?_, ?_⟩
  · rw [List.append_assoc, ← hrest]
    exact List.takeWhile_append_dropWhile.symm
  · exact fun _ => List.mem_takeWhile_imp
  · exact fun c hc => List.mem_takeWhile_imp (List.mem_reverse.mp hc)

/-- Blanks at the front go. -/
theorem dropWhile_isBlank {before cs : List Char} (hbefore : ∀ c ∈ before, isBlank c = true)
    (hcs : ∀ c ∈ cs.head?, isBlank c = false) : (before ++ cs).dropWhile isBlank = cs := by
  rw [List.dropWhile_append_of_pos hbefore]
  cases cs with
  | nil => rfl
  | cons c cs => exact List.dropWhile_cons_of_neg (by simp [hcs c rfl])

/-- What has no blank at either end is all that is left between blanks. -/
theorem trimBlanks_between {before core after : List Char} (hne : core ≠ [])
    (hbefore : ∀ c ∈ before, isBlank c = true) (hafter : ∀ c ∈ after, isBlank c = true)
    (hcore : ∀ c ∈ core, isBlank c = false) : trimBlanks (before ++ core ++ after) = core := by
  have hfront : (before ++ (core ++ after)).dropWhile isBlank = core ++ after := by
    refine dropWhile_isBlank hbefore fun c hc => hcore c ?_
    obtain ⟨d, ds, rfl⟩ := List.exists_cons_of_ne_nil hne
    exact List.mem_of_mem_head? hc
  have hback : (after.reverse ++ core.reverse).dropWhile isBlank = core.reverse := by
    refine dropWhile_isBlank (fun c hc => hafter c (List.mem_reverse.mp hc)) fun c hc => ?_
    exact hcore c (List.mem_reverse.mp (List.mem_of_mem_head? hc))
  rw [trimBlanks, List.append_assoc, hfront, List.reverse_append, hback, List.reverse_reverse]

end Text

/-! ### The variable -/

/-- The variable asks for a depth: that of the standard settings where it is unset, and otherwise
the positive number that its text denotes. -/
inductive Variable.Gives : Variable → Nat → Prop where
  | unset : Gives .unset 512
  | text {before sign digits after : List Char} {n : Nat}
      (hbefore : ∀ c ∈ before, Text.isBlank c = true) (hsign : sign = [] ∨ sign = ['+'])
      (hdigits : Denotes digits n) (hpos : 1 ≤ n) (hafter : ∀ c ∈ after, Text.isBlank c = true) :
      Gives (.text (String.ofList (before ++ (sign ++ digits) ++ after))) n

/-- An environment asks for a positive depth only. -/
theorem Variable.Gives.pos {v : Variable} {n : Nat} (h : v.Gives n) : 1 ≤ n := by
  cases h with
  | unset => decide
  | text _ _ _ hpos _ => exact hpos

namespace Settings

/-- The environment gives settings exactly when its variable gives a depth. -/
theorem ofEnvironment_eq_ok_iff {v : Variable} {n : Nat} :
    ofEnvironment v = .ok ⟨n⟩ ↔ v.Gives n := by
  constructor
  · intro h
    cases v with
    | unset =>
      cases h
      exact .unset
    | undecodable => cases h
    | text raw =>
      simp only [ofEnvironment] at h
      split at h
      · next k hk =>
        obtain ⟨rfl, hpos⟩ := ofDepth_eq_ok_iff.mp h
        obtain ⟨sign, digits, htrim, hsign, hdigits⟩ := readDepth_eq_ok_iff.mp hk
        obtain ⟨before, after, hraw, hbefore, hafter⟩ := Text.exists_eq_trimBlanks raw.toList
        rw [htrim] at hraw
        have hgives := Variable.Gives.text hbefore hsign hdigits hpos hafter
        rwa [← hraw, String.ofList_toList] at hgives
      · cases h
  · rintro (_ | ⟨hbefore, hsign, hdigits, hpos, hafter⟩)
    · rfl
    · next before sign digits after =>
      have hcore : ∀ c ∈ sign ++ digits, Text.isBlank c = false := by
        intro c hc
        rcases List.mem_append.mp hc with hc | hc
        · obtain rfl | rfl := hsign
          · cases hc
          · obtain rfl := List.mem_singleton.mp hc
            exact Text.isBlank_plus
        · exact Text.isBlank_of_isDigit (hdigits.decimal c hc)
      have htrim := Text.trimBlanks_between (List.append_ne_nil_of_right_ne_nil sign
        hdigits.nonempty) hbefore hafter hcore
      have hread : readDepth (sign ++ digits) = .ok n :=
        readDepth_eq_ok_iff.mpr ⟨sign, digits, rfl, hsign, hdigits⟩
      simp only [ofEnvironment, String.toList_ofList, htrim, hread]
      exact ofDepth_eq_ok_iff.mpr ⟨rfl, hpos⟩

/-- What gives no settings is refused as such. -/
theorem ofEnvironment_cases (v : Variable) :
    (∃ s, ofEnvironment v = .ok s) ∨
      ∃ reason, ofEnvironment v = .error (.invalidSettings reason) := by
  cases v with
  | unset => exact .inl ⟨_, rfl⟩
  | undecodable => exact .inr ⟨_, rfl⟩
  | text raw =>
    simp only [ofEnvironment]
    split
    · exact ofDepth_cases _
    · exact .inr ⟨_, rfl⟩

end Settings

/-! ### Threads -/

variable {m n : Machine}

theorem Machine.threadLimit_after (m : Machine) (c : Change) :
    (m.after c).threadLimit = m.threadLimit := by
  cases c with
  | closeScope name =>
    simp only [after, closeScope]
    split <;> rfl
  | _ => rfl

theorem Machine.threadLimit_of_openScope {name : String} {o : Owner}
    (h : m.openScope name o = .ok n) : n.threadLimit = m.threadLimit := by
  obtain ⟨s, -, hn⟩ := exists_of_bind_eq_ok h
  cases hn
  exact threadLimit_after { m with stack := s } (.closeScope name)

namespace Stage

variable {s s' : Stage}

/-- No step of the engine changes what threads start with. -/
theorem Advances.threadLimit_eq (h : s.Advances s') :
    s'.machine.threadLimit = s.machine.threadLimit := by
  obtain ⟨code, pending, m⟩ := s
  cases code with
  | done a => cases pending <;> cases h <;> rfl
  | change c next =>
    cases h
    exact m.threadLimit_after c
  | openScope name o next =>
    simp only [Advances, Stage.advance, Eval.advance] at h
    split at h
    · cases h
      rfl
    · next hn =>
      cases h
      exact Machine.threadLimit_of_openScope hn
  | inScope o body next =>
    simp only [Advances, Stage.advance, Eval.advance] at h
    split at h <;> cases h <;> rfl
  | ask | look | fresh | onThread | withOwnLocals =>
    cases h
    rfl

/-- So threads start with the same limit throughout a session. -/
theorem Course.threadLimit_eq (h : s.Course s') :
    s'.machine.threadLimit = s.machine.threadLimit := by
  induction h with
  | refl => rfl
  | tail _ h ih =>
    cases h with
    | advance h => exact h.threadLimit_eq.trans ih
    | next r m step => exact ih

end Stage

/-- The limit that a thread tells is the one that threads start with. -/
theorem engine_limit_newThread (m : Machine) :
    engine (.step (.scope .limit)) (Eval.newThread m) =
      some (.text (toString m.threadLimit), Eval.newThread m) :=
  engine_of_answer (show answer 1 _ _ = _ from rfl)

/-- The environment gives settings exactly when its variable holds a depth, and refuses every other
content. Either way each thread of the session, the first one included, starts with a positive
limit: the depth of the variable, or that of the standard settings. -/
theorem environment_limits_threads (v : Variable) :
    (∀ n, Settings.ofEnvironment v = .ok ⟨n⟩ ↔ v.Gives n) ∧
      ((¬ ∃ n, v.Gives n) →
        ∃ reason, Settings.ofEnvironment v = .error (.invalidSettings reason)) ∧
      ∃ n, 1 ≤ n ∧ (v.Gives n ∨ (¬ ∃ k, v.Gives k) ∧ n = 512) ∧
        (Machine.fresh (Settings.ofThread v).maxDepth).stack.limit = n ∧
        ∀ s, (Stage.start (Settings.ofThread v).maxDepth).Course s →
          engine (.step (.scope .limit)) (Eval.newThread s.machine) =
            some (.text (toString n), Eval.newThread s.machine) := by
  have hgives (n : Nat) := Settings.ofEnvironment_eq_ok_iff (v := v) (n := n)
  have hrefused : (¬ ∃ n, v.Gives n) →
      ∃ reason, Settings.ofEnvironment v = .error (.invalidSettings reason) := by
    intro hnone
    rcases Settings.ofEnvironment_cases v with ⟨⟨n⟩, hn⟩ | hreason
    · exact absurd ⟨n, (hgives n).mp hn⟩ hnone
    · exact hreason
  have hthread : 1 ≤ (Settings.ofThread v).maxDepth ∧
      (v.Gives (Settings.ofThread v).maxDepth ∨
        (¬ ∃ k, v.Gives k) ∧ (Settings.ofThread v).maxDepth = 512) := by
    by_cases hsome : ∃ n, v.Gives n
    · obtain ⟨n, hn⟩ := hsome
      have hthread : Settings.ofThread v = ⟨n⟩ := by
        simp only [Settings.ofThread, (hgives n).mpr hn]
      rw [hthread]
      exact ⟨hn.pos, .inl hn⟩
    · obtain ⟨reason, hreason⟩ := hrefused hsome
      have hthread : Settings.ofThread v = .standard := by simp only [Settings.ofThread, hreason]
      rw [hthread]
      exact ⟨by decide, .inr ⟨hsome, rfl⟩⟩
  refine ⟨hgives, hrefused, (Settings.ofThread v).maxDepth, hthread.1, hthread.2, rfl, ?_⟩
  intro s hs
  have hlimit : s.machine.threadLimit = (Settings.ofThread v).maxDepth := hs.threadLimit_eq
  rw [← hlimit]
  exact engine_limit_newThread s.machine

end ProviderGraph
