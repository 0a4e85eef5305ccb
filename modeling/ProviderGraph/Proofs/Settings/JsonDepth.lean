import ProviderGraph.Proofs.Settings.JsonGrammar
import ProviderGraph.Settings.Json

/-!
# The depth limit in JSON

The texts that describe settings: an object without members or with the depth alone, or a list
without elements or with the depth alone (`Settings.Describes`). These are the texts that settings
are read from, and the text that settings are written as is among them (`json_gives_settings`).
-/

namespace ProviderGraph.Settings

open Json

variable {cs ws rest more inside : List Char} {c close : Char} {n : Nat} {depth : Option Nat}

/-! ### White space -/

def Spaces (ws : List Char) : Prop := ∀ c ∈ ws, c = ' ' ∨ c = '\n' ∨ c = '\t' ∨ c = '\r'

/-- The white space of JSON are four characters. -/
theorem isSpace_iff : isSpace c = true ↔ c = ' ' ∨ c = '\n' ∨ c = '\t' ∨ c = '\r' := by
  simp [isSpace, or_assoc]

theorem spaces_iff : Spaces ws ↔ ∀ c ∈ ws, isSpace c = true := by
  simp only [isSpace_iff, Spaces]

/-- Nothing is left without white space where there is nothing else. -/
theorem skip_eq_nil_iff : skip cs = [] ↔ Spaces cs :=
  List.dropWhile_eq_nil_iff.trans spaces_iff.symm

/-- What is left of a text begins where the white space in front ends. -/
theorem skip_eq_cons_iff :
    skip cs = c :: rest ↔ ∃ ws, cs = ws ++ c :: rest ∧ Spaces ws ∧ isSpace c = false := by
  constructor
  · intro h
    refine ⟨cs.takeWhile isSpace, ?_, spaces_iff.mpr fun _ => List.mem_takeWhile_imp, ?_⟩
    · rw [← h]
      exact List.takeWhile_append_dropWhile.symm
    · have hnot := List.head?_dropWhile_not isSpace cs
      rw [skip] at h
      rw [h] at hnot
      exact hnot
  · rintro ⟨ws, rfl, hws, hc⟩
    rw [skip, List.dropWhile_append_of_pos (spaces_iff.mp hws)]
    exact List.dropWhile_cons_of_neg (by simp [hc])

theorem skip_skip (cs : List Char) : skip (skip cs) = skip cs := by
  cases h : skip cs with
  | nil => rfl
  | cons c rest =>
    obtain ⟨-, -, -, hc⟩ := skip_eq_cons_iff.mp h
    exact skip_eq_cons_iff.mpr ⟨[], rfl, fun _ hc => (by cases hc), hc⟩

theorem isSpace_of_isDigit (h : c.isDigit = true) : isSpace c = false := by
  have := toNat_of_isDigit h
  by_contra hspace
  rw [Bool.not_eq_false, isSpace_iff] at hspace
  rcases hspace with rfl | rfl | rfl | rfl <;> simp at this

/-! ### Depths -/

/-- Nothing is read from a text that is refused. -/
theorem refuse_ne_ok {α : Type} (expected : String) (cs : List Char) (a : α) :
    refuse expected cs ≠ .ok a := by
  intro h
  obtain ⟨shape, -, h⟩ := exists_of_bind_eq_ok h
  cases h

/-- To pass faults of JSON on changes no success. -/
theorem lift_eq_ok_iff {α : Type} {x : Except SyntaxFault α} {a : α} :
    lift x = .ok a ↔ x = .ok a := by
  cases x with
  | ok b => simp [lift]
  | error f => simp [lift, bad]

/-- Only natural numbers are depths. -/
theorem depthOfNumeral_eq_ok_iff {x : Numeral} : depthOfNumeral x = .ok n ↔ x = .natural n := by
  cases x with
  | natural k => simp [depthOfNumeral]
  | negative k => simp [depthOfNumeral]
  | real f => simp [depthOfNumeral]

theorem readDepthValue_skip (cs : List Char) : readDepthValue (skip cs) = readDepthValue cs := by
  rw [readDepthValue, skip_skip, ← readDepthValue]

/-- A depth is read from a literal, perhaps after white space. -/
theorem readDepthValue_eq_ok_iff :
    readDepthValue cs = .ok (n, rest) ↔
      ∃ ws digits, cs = ws ++ (digits ++ rest) ∧ Spaces ws ∧ Literal digits n ∧
        EndsNumber rest := by
  constructor
  · intro h
    unfold readDepthValue at h
    split at h
    · cases h
    · obtain ⟨⟨x, more⟩, hread, h⟩ := exists_of_bind_eq_ok h
      obtain ⟨k, hk, h⟩ := exists_of_bind_eq_ok h
      cases h
      rw [depthOfNumeral_eq_ok_iff.mp hk] at hread
      exact absurd (literal_of_readNumeral (lift_eq_ok_iff.mp hread)).1 (by decide)
    · next hskip =>
      split at h
      · obtain ⟨⟨x, more⟩, hread, h⟩ := exists_of_bind_eq_ok h
        obtain ⟨k, hk, h⟩ := exists_of_bind_eq_ok h
        cases h
        rw [depthOfNumeral_eq_ok_iff.mp hk] at hread
        obtain ⟨digits, heq, hdigits, hrest⟩ := readNumeral_natural_iff.mp (lift_eq_ok_iff.mp hread)
        obtain ⟨ws, rfl, hws, -⟩ := skip_eq_cons_iff.mp hskip
        exact ⟨ws, digits, by rw [heq], hws, hdigits, hrest⟩
      · exact absurd h (refuse_ne_ok _ _ _)
  · rintro ⟨ws, digits, rfl, hws, hdigits, hrest⟩
    have hread := readNumeral_of_literal hdigits hrest
    obtain ⟨c, digits, rfl⟩ := List.exists_cons_of_ne_nil hdigits.nonempty
    have hdigit : c.isDigit = true := hdigits.decimal c (List.mem_cons_self ..)
    have hskip : skip (ws ++ (c :: digits ++ rest)) = c :: (digits ++ rest) :=
      skip_eq_cons_iff.mpr ⟨ws, rfl, hws, isSpace_of_isDigit hdigit⟩
    have hminus : c ≠ '-' := by
      rintro rfl
      cases hdigit
    rw [List.cons_append] at hread
    unfold readDepthValue
    rw [hskip]
    split
    · next h => cases h
    · next h => exact absurd (List.cons.inj h).1 hminus
    · next h =>
      cases h
      rw [if_pos hdigit, hread]
      rfl

/-- A literal between white space, and the depth that it stands for. -/
inductive Value : List Char → Nat → Prop where
  | mk {before digits after : List Char} {n : Nat} (hbefore : Spaces before)
    (hdigits : Literal digits n) (hafter : Spaces after) : Value (before ++ (digits ++ after)) n

/-- A bracket or brace that a value can stand in front of. -/
def Closes (c : Char) : Prop := c = ']' ∨ c = '\x7d'

theorem Closes.isSpace (hc : Closes c) : isSpace c = false := by
  rcases hc with rfl | rfl <;> decide

/-- A number ends in front of a bracket, even with white space between them. -/
theorem Closes.endsNumber (hc : Closes c) (hws : Spaces ws) : EndsNumber (ws ++ c :: rest) := by
  intro d hd
  cases ws with
  | nil =>
    obtain rfl := Option.some.inj hd
    rcases hc with rfl | rfl <;> decide
  | cons e ws =>
    obtain rfl := Option.some.inj hd
    rcases hws e (List.mem_cons_self ..) with rfl | rfl | rfl | rfl <;> decide

/-- A depth is read up to what closes it exactly when a value stands there. -/
theorem readDepthValue_closed_iff (hclose : Closes close) :
    (∃ more, readDepthValue cs = .ok (n, more) ∧ skip more = close :: rest) ↔
      ∃ inside, cs = inside ++ close :: rest ∧ Value inside n := by
  constructor
  · rintro ⟨more, hread, hskip⟩
    obtain ⟨before, digits, rfl, hbefore, hdigits, -⟩ := readDepthValue_eq_ok_iff.mp hread
    obtain ⟨after, rfl, hafter, -⟩ := skip_eq_cons_iff.mp hskip
    refine ⟨before ++ (digits ++ after), ?_, .mk hbefore hdigits hafter⟩
    simp only [List.append_assoc]
  · rintro ⟨_, rfl, @⟨before, digits, after, _, hbefore, hdigits, hafter⟩⟩
    refine ⟨after ++ close :: rest, readDepthValue_eq_ok_iff.mpr ⟨before, digits, ?_, hbefore,
      hdigits, hclose.endsNumber hafter⟩, skip_eq_cons_iff.mpr ⟨after, rfl, hafter, hclose.isSpace⟩⟩
    simp only [List.append_assoc]

/-! ### Lists -/

/-- What stands between the brackets of a list, and the depth that it gives, if it gives one. -/
inductive Elements : List Char → Option Nat → Prop where
  | none {ws : List Char} (hws : Spaces ws) : Elements ws none
  | one {value : List Char} {n : Nat} (hvalue : Value value n) : Elements value (some n)

/-- A list of settings is read where its elements give the depth. -/
theorem readList_eq_ok_iff :
    readList cs = .ok (depth, rest) ↔
      ∃ inside, cs = inside ++ ']' :: rest ∧ Elements inside depth := by
  have hbracket : Closes ']' := .inl rfl
  constructor
  · intro h
    unfold readList at h
    split at h
    · cases h
    · next hskip =>
      cases h
      obtain ⟨ws, rfl, hws, -⟩ := skip_eq_cons_iff.mp hskip
      exact ⟨ws, rfl, .none hws⟩
    · obtain ⟨⟨n, more⟩, hread, h⟩ := exists_of_bind_eq_ok h
      rw [readDepthValue_skip] at hread
      dsimp only at h
      split at h
      · cases h
      · next hskip =>
        cases h
        obtain ⟨inside, rfl, hinside⟩ :=
          (readDepthValue_closed_iff hbracket).mp ⟨more, hread, hskip⟩
        exact ⟨inside, rfl, .one hinside⟩
      · split at h <;> cases h
      · cases h
  · rintro ⟨inside, rfl, hinside⟩
    cases hinside with
    | none hws =>
      have hskip : skip (inside ++ ']' :: rest) = ']' :: rest :=
        skip_eq_cons_iff.mpr ⟨inside, rfl, hws, by decide⟩
      simp only [readList, hskip]
    | one hvalue =>
      obtain ⟨more, hread, hskip⟩ := (readDepthValue_closed_iff hbracket).mpr ⟨inside, rfl, hvalue⟩
      unfold readList
      split
      · next h =>
        rw [readDepthValue, h] at hread
        cases hread
      · next h =>
        rw [readDepthValue, h] at hread
        exact absurd hread (refuse_ne_ok _ _ _)
      · rw [readDepthValue_skip, hread]
        simp only [bind, Except.bind, hskip]
        rfl

/-! ### Objects -/

/-- What stands between the braces of an object, and the depth that it gives, if it gives one. -/
inductive Members : List Char → Option Nat → Prop where
  | none {ws : List Char} (hws : Spaces ws) : Members ws none
  | one {before key after value : List Char} {n : Nat} (hbefore : Spaces before)
    (hkey : Spells key "max_depth".toList) (hafter : Spaces after) (hvalue : Value value n) :
    Members (before ++ '"' :: (key ++ '"' :: (after ++ ':' :: value))) (some n)

/-- The depth is the only member, so there is no second one. -/
theorem readMember_true_ne_ok {r : Front Nat} : readMember true cs ≠ .ok r := by
  intro h
  obtain ⟨⟨key, more⟩, -, h⟩ := exists_of_bind_eq_ok h
  dsimp only at h
  split at h <;> cases h

/-- A member is read where its key spells the name of the setting and a depth follows the colon. -/
theorem readMember_eq_ok_iff :
    readMember false cs = .ok (n, rest) ↔
      ∃ key after more, cs = key ++ '"' :: (after ++ ':' :: more) ∧ Spells key depthKey.toList ∧
        Spaces after ∧ readDepthValue more = .ok (n, rest) := by
  constructor
  · intro hmember
    obtain ⟨⟨key, more⟩, hkey, h⟩ := exists_of_bind_eq_ok hmember
    obtain ⟨raw, rfl, hraw⟩ := readText_eq_ok_iff.mp (lift_eq_ok_iff.mp hkey)
    dsimp only at h
    split at h
    · cases h
    · next heq =>
      obtain rfl := not_not.mp heq
      rw [if_neg (by decide)] at h
      split at h
      · cases h
      · next hskip =>
        obtain ⟨after, rfl, hafter, -⟩ := skip_eq_cons_iff.mp hskip
        exact ⟨raw, after, _, rfl, hraw, hafter, h⟩
      · cases h
  · rintro ⟨key, after, more, rfl, hkey, hafter, hread⟩
    have htext : readText (key ++ '"' :: (after ++ ':' :: more)) =
        .ok (depthKey, after ++ ':' :: more) := readText_eq_ok_iff.mpr ⟨key, rfl, hkey⟩
    have hskip : skip (after ++ ':' :: more) = ':' :: more :=
      skip_eq_cons_iff.mpr ⟨after, rfl, hafter, by decide⟩
    rw [readMember, lift_eq_ok_iff.mpr htext]
    simp only [bind, Except.bind, ne_eq, not_true_eq_false, if_false, Bool.false_eq_true, hskip]
    exact hread

theorem readObjectEnd_eq_ok_iff : readObjectEnd cs = .ok ((), rest) ↔ skip cs = '\x7d' :: rest := by
  constructor
  · intro h
    unfold readObjectEnd at h
    split at h
    · cases h
    · next hskip =>
      cases h
      exact hskip
    · split at h
      · cases h
      · obtain ⟨r, hr, -⟩ := exists_of_bind_eq_ok h
        exact absurd hr readMember_true_ne_ok
      · cases h
      · cases h
    · cases h
  · intro h
    simp only [readObjectEnd, h]

/-- An object of settings is read where its members give the depth. -/
theorem readObject_eq_ok_iff :
    readObject cs = .ok (depth, rest) ↔
      ∃ inside, cs = inside ++ '\x7d' :: rest ∧ Members inside depth := by
  have hbrace : Closes '\x7d' := .inr rfl
  constructor
  · intro h
    unfold readObject at h
    split at h
    · cases h
    · next hskip =>
      cases h
      obtain ⟨ws, rfl, hws, -⟩ := skip_eq_cons_iff.mp hskip
      exact ⟨ws, rfl, .none hws⟩
    · next hskip =>
      obtain ⟨⟨n, more⟩, hmember, h⟩ := exists_of_bind_eq_ok h
      obtain ⟨⟨⟨⟩, more'⟩, hend, h⟩ := exists_of_bind_eq_ok h
      cases h
      obtain ⟨before, rfl, hbefore, -⟩ := skip_eq_cons_iff.mp hskip
      obtain ⟨key, after, value, rfl, hkey, hafter, hread⟩ := readMember_eq_ok_iff.mp hmember
      obtain ⟨inside, rfl, hinside⟩ :=
        (readDepthValue_closed_iff hbrace).mp ⟨more, hread, readObjectEnd_eq_ok_iff.mp hend⟩
      refine ⟨_, ?_, .one hbefore hkey hafter hinside⟩
      simp only [List.append_assoc, List.cons_append]
    · cases h
  · rintro ⟨inside, rfl, hinside⟩
    cases hinside with
    | none hws =>
      have hskip : skip (inside ++ '\x7d' :: rest) = '\x7d' :: rest :=
        skip_eq_cons_iff.mpr ⟨inside, rfl, hws, by decide⟩
      simp only [readObject, hskip]
    | @one before key after value n hbefore hkey hafter hvalue =>
      obtain ⟨more, hread, hskip⟩ : ∃ more,
          readDepthValue (value ++ '\x7d' :: rest) = .ok (n, more) ∧ skip more = '\x7d' :: rest :=
        (readDepthValue_closed_iff hbrace).mpr ⟨value, rfl, hvalue⟩
      have hmember := readMember_eq_ok_iff.mpr ⟨key, after, _, rfl, hkey, hafter, hread⟩
      have hquote :
          skip (before ++ '"' :: (key ++ '"' :: (after ++ ':' :: value)) ++ '\x7d' :: rest) =
            '"' :: (key ++ '"' :: (after ++ ':' :: (value ++ '\x7d' :: rest))) := by
        refine skip_eq_cons_iff.mpr ⟨before, ?_, hbefore, by decide⟩
        simp only [List.append_assoc, List.cons_append]
      simp only [readObject, hquote, hmember, bind, Except.bind,
        readObjectEnd_eq_ok_iff.mpr hskip]
      rfl

/-! ### Settings -/

/-- A list or an object of settings, and the depth that it gives, if it gives one. -/
inductive Spelling : List Char → Option Nat → Prop where
  | list {inside : List Char} {depth : Option Nat} (h : Elements inside depth) :
    Spelling ('[' :: (inside ++ [']'])) depth
  | object {inside : List Char} {depth : Option Nat} (h : Members inside depth) :
    Spelling ('\x7b' :: (inside ++ ['\x7d'])) depth

/-- Only white space may follow the settings. -/
theorem readEnd_eq_ok_iff {found : Option Nat} :
    (if (skip more).isEmpty = true then pure found else bad .trailingText) = .ok depth ↔
      found = depth ∧ Spaces more := by
  have hspaces : (skip more).isEmpty = true ↔ Spaces more :=
    List.isEmpty_iff.trans skip_eq_nil_iff
  by_cases hmore : Spaces more
  · simp [hspaces.mpr hmore, hmore, pure, Except.pure]
  · simp [mt hspaces.mp hmore, hmore, bad]

/-- A text is read where it is a list or an object of settings between white space. -/
theorem readSettings_eq_ok_iff :
    readSettings cs = .ok depth ↔
      ∃ before body after, cs = before ++ (body ++ after) ∧ Spaces before ∧ Spaces after ∧
        Spelling body depth := by
  constructor
  · intro h
    unfold readSettings at h
    dsimp only at h
    split at h
    · cases h
    · next hskip =>
      obtain ⟨⟨found, more⟩, hbody, hend⟩ := exists_of_bind_eq_ok h
      obtain ⟨rfl, hafter⟩ := readEnd_eq_ok_iff.mp hend
      obtain ⟨before, rfl, hbefore, -⟩ := skip_eq_cons_iff.mp hskip
      obtain ⟨inside, rfl, hinside⟩ := readList_eq_ok_iff.mp hbody
      refine ⟨before, _, more, ?_, hbefore, hafter, .list hinside⟩
      simp only [List.cons_append, List.append_assoc, List.nil_append]
    · next hskip =>
      obtain ⟨⟨found, more⟩, hbody, hend⟩ := exists_of_bind_eq_ok h
      obtain ⟨rfl, hafter⟩ := readEnd_eq_ok_iff.mp hend
      obtain ⟨before, rfl, hbefore, -⟩ := skip_eq_cons_iff.mp hskip
      obtain ⟨inside, rfl, hinside⟩ := readObject_eq_ok_iff.mp hbody
      refine ⟨before, _, more, ?_, hbefore, hafter, .object hinside⟩
      simp only [List.cons_append, List.append_assoc, List.nil_append]
    · obtain ⟨r, hr, -⟩ := exists_of_bind_eq_ok h
      exact absurd hr (refuse_ne_ok _ _ _)
  · rintro ⟨before, body, after, rfl, hbefore, hafter, hbody⟩
    have hend := readEnd_eq_ok_iff.mpr ⟨(rfl : depth = depth), hafter⟩
    cases hbody with
    | @list inside _ hinside =>
      have hskip : skip (before ++ ('[' :: (inside ++ [']']) ++ after)) =
          '[' :: (inside ++ ']' :: after) := by
        refine skip_eq_cons_iff.mpr ⟨before, ?_, hbefore, by decide⟩
        simp only [List.cons_append, List.append_assoc, List.nil_append]
      simp only [readSettings, hskip, readList_eq_ok_iff.mpr ⟨inside, rfl, hinside⟩]
      exact hend
    | @object inside _ hinside =>
      have hskip : skip (before ++ ('\x7b' :: (inside ++ ['\x7d']) ++ after)) =
          '\x7b' :: (inside ++ '\x7d' :: after) := by
        refine skip_eq_cons_iff.mpr ⟨before, ?_, hbefore, by decide⟩
        simp only [List.cons_append, List.append_assoc, List.nil_append]
      simp only [readSettings, hskip, readObject_eq_ok_iff.mpr ⟨inside, rfl, hinside⟩]
      exact hend

/-- The text describes settings with the given depth: without one the depth is the standard one,
and a depth is positive. -/
inductive Describes : List Char → Nat → Prop where
  | mk {before body after : List Char} {depth : Option Nat} (hbefore : Spaces before)
    (hbody : Spelling body depth) (hafter : Spaces after) (hpos : 1 ≤ depth.getD 512) :
    Describes (before ++ (body ++ after)) (depth.getD 512)

/-- Settings are read from the texts that describe them. -/
theorem ofJson_eq_ok_iff {text : String} :
    ofJson text = .ok ⟨n⟩ ↔ Describes text.toList n := by
  constructor
  · intro h
    unfold ofJson at h
    split at h
    · next depth hread =>
      obtain ⟨rfl, hpos⟩ := ofDepth_eq_ok_iff.mp h
      obtain ⟨before, body, after, htext, hbefore, hafter, hbody⟩ := readSettings_eq_ok_iff.mp hread
      rw [htext]
      exact .mk hbefore hbody hafter hpos
    · cases h
  · intro h
    obtain ⟨cs, hcs⟩ : ∃ cs, text.toList = cs := ⟨_, rfl⟩
    rw [hcs] at h
    obtain @⟨before, body, after, depth, hbefore, hbody, hafter, hpos⟩ := h
    have hread : readSettings text.toList = .ok depth :=
      readSettings_eq_ok_iff.mpr ⟨before, body, after, hcs, hbefore, hafter, hbody⟩
    simp only [ofJson, hread]
    exact ofDepth_eq_ok_iff.mpr ⟨rfl, hpos⟩

/-- What gives no settings is refused as such. -/
theorem ofJson_cases (text : String) :
    (∃ s, ofJson text = .ok s) ∨ ∃ reason, ofJson text = .error (.invalidSettings reason) := by
  unfold ofJson
  split
  · exact ofDepth_cases _
  · exact .inr ⟨_, rfl⟩

/-- The settings as they are written. -/
theorem toList_render (n : Nat) :
    (render ⟨n⟩).toList =
      '\x7b' :: ('"' :: (depthKey.toList ++ '"' :: ':' :: Nat.toDigits 10 n) ++ ['\x7d']) := by
  simp [render, depthKey]

/-- The name of the depth is written without escapes. -/
theorem spells_depthKey : Spells depthKey.toList depthKey.toList := by
  have hkey : depthKey.toList = ['m', 'a', 'x', '_', 'd', 'e', 'p', 't', 'h'] := rfl
  rw [hkey]
  exact spells_self (by simp)

/-- What is written is read again. -/
theorem readSettings_render (hn : n ≤ greatestDepth) :
    readSettings (render ⟨n⟩).toList = .ok (some n) := by
  have hnone : Spaces [] := by simp [Spaces]
  have hvalue : Value (Nat.toDigits 10 n) n := by
    simpa using Value.mk hnone (literal_toDigits hn) hnone
  have hbody := Spelling.object (Members.one hnone spells_depthKey hnone hvalue)
  refine readSettings_eq_ok_iff.mpr ⟨[], _, [], ?_, hnone, hnone, hbody⟩
  simp [toList_render]

/-- Settings are given by the texts that describe them, and every other text is refused. Settings
are read back from the text that they are written as, unless their depth is zero. -/
theorem json_gives_settings :
    (∀ (text : String) (n : Nat), ofJson text = .ok ⟨n⟩ ↔ Describes text.toList n) ∧
      (∀ text : String, (¬ ∃ n, Describes text.toList n) →
        ∃ reason, ofJson text = .error (.invalidSettings reason)) ∧
      (∀ n, 1 ≤ n → n ≤ greatestDepth → ofJson (render ⟨n⟩) = .ok ⟨n⟩) ∧
      ∃ reason, ofJson (render ⟨0⟩) = .error (.invalidSettings reason) := by
  refine ⟨fun _ _ => ofJson_eq_ok_iff, ?_, ?_, ?_⟩
  · intro text hnone
    rcases ofJson_cases text with ⟨⟨n⟩, hn⟩ | hreason
    · exact absurd ⟨n, ofJson_eq_ok_iff.mp hn⟩ hnone
    · exact hreason
  · intro n hpos hn
    simp only [ofJson, readSettings_render hn]
    exact ofDepth_eq_ok_iff.mpr ⟨rfl, hpos⟩
  · refine ⟨depthKey ++ " must be at least 1", ?_⟩
    simp only [ofJson, readSettings_render (Nat.zero_le _)]
    exact ofDepth_zero

end ProviderGraph.Settings
