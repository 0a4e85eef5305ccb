import Mathlib.Data.List.TakeWhile
import ProviderGraph.Json.Number
import ProviderGraph.Json.Text
import ProviderGraph.Proofs.Identity.Roll
import ProviderGraph.Proofs.Settings.Digits

/-!
# The grammar of JSON strings and integers

What stands between the quotes of a JSON string, and the text that it spells (`Spells`); and the
integer literals without a sign, with the numbers that they stand for (`Literal`). The readers
accept just this (`readText_eq_ok_iff`, `readNumeral_natural_iff`).
-/

namespace ProviderGraph.Json

variable {cs raw rest text : List Char} {c : Char} {n steps : Nat}

/-! ### Strings -/

/-- The hexadecimal digits, small and capital, with their values. -/
def hexDigits : List (Char × Nat) :=
  "0123456789abcdef".toList.zipIdx ++ "ABCDEF".toList.zipIdx 10

/-- Four hexadecimal digits, and the code unit that they stand for. -/
inductive IsUnit : List Char → Nat → Prop where
  | mk {a b c d : Char} {x y z w : Nat} (ha : (a, x) ∈ hexDigits) (hb : (b, y) ∈ hexDigits)
    (hc : (c, z) ∈ hexDigits) (hd : (d, w) ∈ hexDigits) :
    IsUnit [a, b, c, d] (((x * 16 + y) * 16 + z) * 16 + w)

/-- The letters that follow a backslash, and the characters that they stand for. -/
def letters : List (Char × Char) :=
  [('"', '"'), ('\\', '\\'), ('/', '/'), ('b', '\x08'), ('f', '\x0c'), ('n', '\n'), ('r', '\r'),
    ('t', '\t')]

/-- What can follow a backslash, and the character that it stands for: a letter, a code unit that is
no surrogate, or a pair of surrogates. -/
inductive Escape : List Char → Char → Prop where
  | letter {e c : Char} (h : (e, c) ∈ letters) : Escape [e] c
  | unit {ds : List Char} {n : Nat} (hunit : IsUnit ds n) (hn : n < 0xd800 ∨ 0xdfff < n) :
    Escape ('u' :: ds) (Char.ofNat n)
  | pair {ds ds' : List Char} {high low : Nat} (hhigh : IsUnit ds high) (hlow : IsUnit ds' low)
    (hh : 0xd800 ≤ high ∧ high ≤ 0xdbff) (hl : 0xdc00 ≤ low ∧ low ≤ 0xdfff) :
    Escape ('u' :: (ds ++ '\\' :: 'u' :: ds'))
      (Char.ofNat ((high - 0xd800) * 0x400 + (low - 0xdc00) + 0x10000))

/-- What stands between the quotes of a string, and the text that it spells. -/
inductive Spells : List Char → List Char → Prop where
  | nil : Spells [] []
  | plain {c : Char} {raw text : List Char} (hquote : c ≠ '"') (hslash : c ≠ '\\')
    (hcontrol : 0x20 ≤ c.toNat) (h : Spells raw text) : Spells (c :: raw) (c :: text)
  | escape {esc raw text : List Char} {c : Char} (he : Escape esc c) (h : Spells raw text) :
    Spells ('\\' :: (esc ++ raw)) (c :: text)

/-- Characters that need no escape spell themselves. -/
theorem spells_self (h : ∀ c ∈ cs, c ≠ '"' ∧ c ≠ '\\' ∧ 0x20 ≤ c.toNat) : Spells cs cs := by
  induction cs with
  | nil => exact .nil
  | cons c cs ih =>
    obtain ⟨⟨hquote, hslash, hcontrol⟩, hcs⟩ := List.forall_mem_cons.mp h
    exact .plain hquote hslash hcontrol (ih hcs)

/-- Every character takes a byte. -/
theorem length_le_utf8Length (cs : List Char) : cs.length ≤ utf8Length cs := by
  induction cs with
  | nil => exact Nat.le_refl 0
  | cons c cs ih =>
    have hpos := c.utf8Size_pos
    simp only [List.length_cons, utf8Length]
    omega

/-- A run of characters among the digits. -/
theorem mem_hexDigits_of_le {low high : Char} {v : Nat} (h : low ≤ c ∧ c ≤ high)
    (hall : ∀ k ≤ high.toNat - low.toNat, (Char.ofNat (low.toNat + k), k + v) ∈ hexDigits) :
    (c, c.toNat - low.toNat + v) ∈ hexDigits := by
  have hlow : low.toNat ≤ c.toNat := h.1
  have hhigh : c.toNat ≤ high.toNat := h.2
  have hmem := hall (c.toNat - low.toNat) (Nat.sub_le_sub_right hhigh _)
  rwa [Nat.add_sub_cancel' hlow, Char.ofNat_toNat] at hmem

/-- The value of a hexadecimal digit is the one that is listed. -/
theorem hexValue?_eq_some_iff : hexValue? c = some n ↔ (c, n) ∈ hexDigits := by
  constructor
  · intro h
    rw [hexValue?] at h
    split at h
    · next hdigit =>
      cases h
      exact mem_hexDigits_of_le (v := 0) hdigit (by decide)
    · split at h
      · next hsmall =>
        cases h
        exact mem_hexDigits_of_le hsmall (by decide)
      · split at h
        · next hcapital =>
          cases h
          exact mem_hexDigits_of_le hcapital (by decide)
        · cases h
  · intro h
    have hall : ∀ d ∈ hexDigits, hexValue? d.1 = some d.2 := by decide
    exact hall _ h

/-- A code unit is read from four hexadecimal digits. -/
theorem readUnit_eq_ok_iff :
    readUnit cs = .ok (n, rest) ↔ ∃ ds, cs = ds ++ rest ∧ IsUnit ds n := by
  constructor
  · intro h
    unfold readUnit at h
    split at h
    · cases h
    · split at h
      · split at h
        · next ha hb hc hd =>
          cases h
          exact ⟨[_, _, _, _], rfl, .mk (hexValue?_eq_some_iff.mp ha)
            (hexValue?_eq_some_iff.mp hb) (hexValue?_eq_some_iff.mp hc)
            (hexValue?_eq_some_iff.mp hd)⟩
        · cases h
      · cases h
  · rintro ⟨ds, rfl, hds⟩
    cases hds with
    | @mk a b c d _ _ _ _ ha hb hc hd =>
      have hlong : ¬ utf8Length (([a, b, c, d] ++ rest).take 4) < 4 := by
        rw [List.take_append_of_le_length (by simp)]
        exact Nat.not_lt.mpr (length_le_utf8Length [a, b, c, d])
      rw [← hexValue?_eq_some_iff] at ha hb hc hd
      unfold readUnit
      rw [if_neg hlong]
      simp only [List.cons_append, List.nil_append, ha, hb, hc, hd]

theorem readUnicode_eq_ok_iff :
    readUnicode cs = .ok (c, rest) ↔ ∃ esc, cs = esc ++ rest ∧ Escape ('u' :: esc) c := by
  constructor
  · intro hread
    obtain ⟨⟨high, more⟩, hunit, h⟩ := exists_of_bind_eq_ok hread
    obtain ⟨ds, rfl, hhigh⟩ := readUnit_eq_ok_iff.mp hunit
    dsimp only at h
    split at h
    · cases h
    · next hhighNotLow =>
      split at h
      · next hh =>
        split at h
        · cases h
        · cases h
        · obtain ⟨⟨low, more⟩, hunit, hpair⟩ := exists_of_bind_eq_ok h
          obtain ⟨ds', rfl, hlow⟩ := readUnit_eq_ok_iff.mp hunit
          dsimp only at hpair
          split at hpair
          · next hl =>
            obtain ⟨rfl, rfl⟩ := Prod.mk.inj (Except.ok.inj hpair)
            refine ⟨ds ++ '\\' :: 'u' :: ds', ?_, .pair hhigh hlow hh hl⟩
            simp only [List.append_assoc, List.cons_append]
          · cases hpair
        · cases h
      · next hnotHigh =>
        cases h
        exact ⟨ds, rfl, .unit hhigh (by omega)⟩
  · rintro ⟨esc, rfl, hesc⟩
    cases hesc with
    | letter h => simp [letters] at h
    | @unit _ n hunit hn =>
      rw [readUnicode, readUnit_eq_ok_iff.mpr ⟨esc, rfl, hunit⟩]
      have hlow : ¬ (0xdc00 ≤ n ∧ n ≤ 0xdfff) := by omega
      have hhigh : ¬ (0xd800 ≤ n ∧ n ≤ 0xdbff) := by omega
      exact (if_neg hlow).trans (if_neg hhigh)
    | @pair ds ds' high low hhigh hlow hh hl =>
      have hmore : ds ++ '\\' :: 'u' :: ds' ++ rest = ds ++ ('\\' :: 'u' :: (ds' ++ rest)) := by
        simp only [List.append_assoc, List.cons_append]
      rw [readUnicode, hmore, readUnit_eq_ok_iff.mpr ⟨ds, rfl, hhigh⟩]
      have hnotLow : ¬ (0xdc00 ≤ high ∧ high ≤ 0xdfff) := by omega
      refine (if_neg hnotLow).trans ((if_pos hh).trans ?_)
      simp only [readUnit_eq_ok_iff.mpr ⟨ds', rfl, hlow⟩]
      exact if_pos hl

/-- An escape is read where it is one of the grammar. -/
theorem readEscape_eq_ok_iff :
    readEscape cs = .ok (c, rest) ↔ ∃ esc, cs = esc ++ rest ∧ Escape esc c := by
  constructor
  · intro h
    unfold readEscape at h
    split at h
    case h_10 more =>
      obtain ⟨esc, rfl, hesc⟩ := readUnicode_eq_ok_iff.mp h
      exact ⟨'u' :: esc, rfl, hesc⟩
    all_goals cases h
    all_goals exact ⟨[_], rfl, .letter (by decide)⟩
  · rintro ⟨esc, rfl, hesc⟩
    cases hesc with
    | letter h =>
      simp only [letters, List.mem_cons, Prod.mk.injEq, List.not_mem_nil, or_false] at h
      rcases h with ⟨rfl, rfl⟩ | ⟨rfl, rfl⟩ | ⟨rfl, rfl⟩ | ⟨rfl, rfl⟩ | ⟨rfl, rfl⟩ | ⟨rfl, rfl⟩ |
        ⟨rfl, rfl⟩ | ⟨rfl, rfl⟩
      all_goals rfl
    | unit hunit hn => exact readUnicode_eq_ok_iff.mpr ⟨_, rfl, .unit hunit hn⟩
    | pair hhigh hlow hh hl => exact readUnicode_eq_ok_iff.mpr ⟨_, rfl, .pair hhigh hlow hh hl⟩

/-- What is read up to a quote is spelled by what stands in front of it. -/
theorem spells_of_readCharsWithin (h : readCharsWithin steps cs = .ok (text, rest)) :
    ∃ raw, cs = raw ++ '"' :: rest ∧ Spells raw text := by
  induction steps generalizing cs text with
  | zero => cases h
  | succ steps ih =>
    unfold readCharsWithin at h
    split at h
    · cases h
    · cases h
    · cases h
      exact ⟨[], rfl, .nil⟩
    · next heq =>
      cases heq
      obtain ⟨⟨c, more⟩, hescape, hmore⟩ := exists_of_bind_eq_ok h
      obtain ⟨⟨text', rest'⟩, hread, hmore⟩ := exists_of_bind_eq_ok hmore
      cases hmore
      obtain ⟨esc, rfl, hesc⟩ := readEscape_eq_ok_iff.mp hescape
      obtain ⟨raw, rfl, hraw⟩ := ih hread
      refine ⟨'\\' :: (esc ++ raw), ?_, .escape hesc hraw⟩
      simp only [List.cons_append, List.append_assoc]
    · next hquote hslash heq =>
      cases heq
      split at h
      · cases h
      · next hcontrol =>
        obtain ⟨⟨text', rest'⟩, hread, hmore⟩ := exists_of_bind_eq_ok h
        cases hmore
        obtain ⟨raw, rfl, hraw⟩ := ih hread
        exact ⟨_ :: raw, rfl, .plain hquote hslash (Nat.le_of_not_lt hcontrol) hraw⟩

/-- What is spelled is read, given a step for each character and one for the quote. -/
theorem readCharsWithin_of_spells (h : Spells raw text) (hsteps : raw.length < steps) :
    readCharsWithin steps (raw ++ '"' :: rest) = .ok (text, rest) := by
  induction h generalizing steps with
  | nil =>
    cases steps with
    | zero => cases hsteps
    | succ steps => rfl
  | @plain c raw text hquote hslash hcontrol h ih =>
    cases steps with
    | zero => cases hsteps
    | succ steps =>
      have hread := ih (Nat.lt_of_succ_lt_succ hsteps)
      rw [List.cons_append, readCharsWithin, if_neg (Nat.not_lt.mpr hcontrol), hread]
      · rfl
      · exact hquote
      · exact hslash
  | @escape esc raw text c hesc h ih =>
    cases steps with
    | zero => cases hsteps
    | succ steps =>
      have hread : readCharsWithin steps (raw ++ '"' :: rest) = .ok (text, rest) := by
        refine ih ?_
        simp only [List.length_cons, List.length_append] at hsteps
        omega
      have hescape := readEscape_eq_ok_iff.mpr ⟨esc, List.append_assoc esc raw ('"' :: rest), hesc⟩
      rw [List.cons_append, readCharsWithin, hescape]
      exact congrArg (Except.map _) hread

/-- A string is read up to the first quote that is not escaped. -/
theorem readText_eq_ok_iff {s : String} :
    readText cs = .ok (s, rest) ↔ ∃ raw, cs = raw ++ '"' :: rest ∧ Spells raw s.toList := by
  constructor
  · intro h
    obtain ⟨⟨text, more⟩, hread, h⟩ := exists_of_bind_eq_ok h
    cases h
    rw [String.toList_ofList]
    exact spells_of_readCharsWithin hread
  · rintro ⟨raw, rfl, hraw⟩
    have hsteps : raw.length < (raw ++ '"' :: rest).length + 1 := by
      rw [List.length_append]
      omega
    rw [readText, readCharsWithin_of_spells hraw hsteps]
    exact congrArg (fun s => Except.ok (s, rest)) s.ofList_toList

/-! ### Integers -/

/-- The literals without a sign, a fraction or an exponent, and the numbers that they stand for: a
zero stands in front only when it is all there is. -/
structure Literal (digits : List Char) (n : Nat) : Prop extends Denotes digits n where
  leading : digits.head? = some '0' → digits = ['0']

/-- A number ends where no digit, point or exponent follows. -/
def EndsNumber (rest : List Char) : Prop :=
  ∀ c ∈ rest.head?, c.isDigit = false ∧ c ≠ '.' ∧ c ≠ 'e' ∧ c ≠ 'E'

/-- Digits are absorbed to the last exactly when the number fits. -/
theorem absorb_eq_iff (hn : n ≤ maxNatural) :
    (absorb n cs).2 = [] ↔ Nat.ofDigitChars 10 cs n ≤ maxNatural := by
  induction cs generalizing n with
  | nil => simpa [absorb] using hn
  | cons c cs ih =>
    rw [absorb, Nat.ofDigitChars_cons, Nat.mul_comm 10 n]
    by_cases hfits : n * 10 + digitValue c ≤ maxNatural
    · rw [if_pos hfits]
      exact ih hfits
    · rw [if_neg hfits]
      have := le_ofDigitChars (n * 10 + digitValue c) cs
      exact iff_of_false (List.cons_ne_nil c cs) fun h => hfits (Nat.le_trans this h)

/-- What is absorbed to the last is the number that the digits denote. -/
theorem absorb_fst (h : (absorb n cs).2 = []) : (absorb n cs).1 = Nat.ofDigitChars 10 cs n := by
  induction cs generalizing n with
  | nil => simp [absorb]
  | cons c cs ih =>
    rw [absorb] at h ⊢
    rw [Nat.ofDigitChars_cons, Nat.mul_comm 10 n]
    split at h
    · next hfits =>
      rw [if_pos hfits]
      exact ih h
    · cases h

/-- The number is one with a fraction or an exponent, or one that does not fit. -/
def Numeral.IsReal (x : Numeral) : Prop := ∃ f, x = .real f

theorem scale_isReal {negative : Bool} {exponent : Int} {x : Numeral}
    (h : scale negative n exponent = .ok x) : x.IsReal := by
  unfold scale at h
  split at h
  · cases h
    exact ⟨_, rfl⟩
  · cases h

theorem readExponent_isReal {negative : Bool} {start : Int} {x : Numeral}
    (h : readExponent negative n start cs = .ok (x, rest)) : x.IsReal := by
  unfold readExponent at h
  split at h
  dsimp only at h
  split at h
  · cases h
  · split at h
    · split at h
      · split at h
        · cases h
        · cases h
          exact ⟨_, rfl⟩
      · obtain ⟨y, hy, h⟩ := exists_of_bind_eq_ok h
        cases h
        exact scale_isReal hy
    · cases h

theorem readScaled_isReal {negative : Bool} {exponent : Int} {x : Numeral}
    (h : readScaled negative n exponent cs = .ok (x, rest)) : x.IsReal := by
  unfold readScaled at h
  split at h
  · exact readExponent_isReal h
  · exact readExponent_isReal h
  · obtain ⟨y, hy, h⟩ := exists_of_bind_eq_ok h
    cases h
    exact scale_isReal hy

theorem readFraction_isReal {negative : Bool} {exponent : Int} {x : Numeral}
    (h : readFraction negative n exponent cs = .ok (x, rest)) : x.IsReal := by
  unfold readFraction at h
  split at h
  · cases h
  · split at h
    · exact readScaled_isReal h
    · cases h

/-- A run of digits and what follows it make up the text. -/
theorem digitRun_append_afterDigits (cs : List Char) : digitRun cs ++ afterDigits cs = cs :=
  List.takeWhile_append_dropWhile

theorem isDigit_of_head?_afterDigits {c : Char} (h : c ∈ (afterDigits cs).head?) :
    c.isDigit = false := by
  have hnot := List.head?_dropWhile_not Char.isDigit cs
  rw [afterDigits] at h
  rw [Option.mem_def.mp h] at hnot
  exact hnot

/-- Digits that a number ends with are its run of digits. -/
theorem digitRun_of_endsNumber {digits : List Char} (hdigits : ∀ c ∈ digits, c.isDigit = true)
    (hrest : EndsNumber rest) :
    digitRun (digits ++ rest) = digits ∧ afterDigits (digits ++ rest) = rest := by
  rw [digitRun, afterDigits, List.takeWhile_append_of_pos hdigits,
    List.dropWhile_append_of_pos hdigits]
  cases rest with
  | nil => simp
  | cons c rest =>
    have hc : ¬ c.isDigit = true := by simp [(hrest c rfl).1]
    rw [List.takeWhile_cons_of_neg hc, List.dropWhile_cons_of_neg hc, List.append_nil]
    exact ⟨rfl, rfl⟩

/-- A zero that no digit follows is a run of its own. -/
theorem digitRun_zero {more : List Char} (h : ¬ (more.headD ' ').isDigit = true) :
    digitRun ('0' :: more) = ['0'] := by
  rw [digitRun, List.takeWhile_cons_of_pos (by decide)]
  cases more with
  | nil => rfl
  | cons c more =>
    have hc : ¬ c.isDigit = true := h
    rw [List.takeWhile_cons_of_neg hc]

/-- Only a number without a sign is read as a natural number. -/
theorem integer_eq_natural {negative : Bool} {k : Nat} (h : integer negative n = .natural k) :
    negative = false ∧ n = k := by
  unfold integer at h
  split at h
  · split at h <;> cases h
  · next hpositive =>
    cases h
    exact ⟨Bool.eq_false_iff.mpr hpositive, rfl⟩

/-- A natural number is read from a literal that ends there. -/
theorem literal_of_readNumeral {negative : Bool} {k : Nat}
    (h : readNumeral negative cs = .ok (.natural k, rest)) :
    negative = false ∧ ∃ digits, cs = digits ++ rest ∧ Literal digits k ∧ EndsNumber rest := by
  unfold readNumeral at h
  split at h
  · cases h
  · next c more =>
    split at h
    · cases h
    · next hdigit =>
      split at h
      · cases h
      · next hzero =>
        dsimp only at h
        split at h
        · exact absurd (readFraction_isReal h) (by rintro ⟨f, ⟨⟩⟩)
        · exact absurd (readExponent_isReal h) (by rintro ⟨f, ⟨⟩⟩)
        · exact absurd (readExponent_isReal h) (by rintro ⟨f, ⟨⟩⟩)
        · next hpoint he hE =>
          split at h
          · next hexcess =>
            obtain ⟨hinteger, rfl⟩ := Prod.mk.inj (Except.ok.inj h)
            obtain ⟨rfl, hvalue⟩ := integer_eq_natural hinteger
            have hall := List.isEmpty_iff.mp hexcess
            refine ⟨rfl, digitRun (c :: more), (digitRun_append_afterDigits _).symm, ?_, ?_⟩
            · have hnonempty : digitRun (c :: more) ≠ [] := by
                rw [digitRun, List.takeWhile_cons_of_pos (not_not.mp hdigit)]
                exact List.cons_ne_nil _ _
              have hleading (hhead : (digitRun (c :: more)).head? = some '0') :
                  digitRun (c :: more) = ['0'] := by
                rw [digitRun, List.takeWhile_cons_of_pos (not_not.mp hdigit)] at hhead
                obtain rfl := Option.some.inj hhead
                exact digitRun_zero fun hmore => hzero ⟨rfl, hmore⟩
              refine ⟨⟨hnonempty, fun _ => List.mem_takeWhile_imp, ?_, ?_⟩, hleading⟩
              · rw [← absorb_fst hall, hvalue]
              · rw [← hvalue, absorb_fst hall]
                exact (absorb_eq_iff (Nat.zero_le _)).mp hall
            · intro d hd
              obtain ⟨tail, htail⟩ := List.head?_eq_some_iff.mp hd
              refine ⟨isDigit_of_head?_afterDigits hd, ?_, ?_, ?_⟩
              · rintro rfl
                exact hpoint tail htail
              · rintro rfl
                exact he tail htail
              · rintro rfl
                exact hE tail htail
          · obtain ⟨y, hy, h⟩ := exists_of_bind_eq_ok h
            cases h
            exact absurd (scale_isReal hy) (by rintro ⟨f, ⟨⟩⟩)

/-- A literal is read as the natural number that it stands for. -/
theorem readNumeral_of_literal {digits : List Char} (hdigits : Literal digits n)
    (hrest : EndsNumber rest) :
    readNumeral false (digits ++ rest) = .ok (.natural n, rest) := by
  obtain ⟨hrun, hafter⟩ := digitRun_of_endsNumber hdigits.decimal hrest
  have hfits : Nat.ofDigitChars 10 digits 0 ≤ maxNatural := hdigits.value.trans_le hdigits.fits
  have hall : (absorb 0 digits).2 = [] := (absorb_eq_iff (Nat.zero_le _)).mpr hfits
  have hvalue : (absorb 0 digits).1 = n := (absorb_fst hall).trans hdigits.value
  obtain ⟨c, more, rfl⟩ := List.exists_cons_of_ne_nil hdigits.nonempty
  have hdigit : c.isDigit = true := hdigits.decimal c (List.mem_cons_self ..)
  have hzero : ¬ (c = '0' ∧ ((more ++ rest).headD ' ').isDigit = true) := by
    rintro ⟨rfl, hmore⟩
    have hsingle := hdigits.leading rfl
    obtain rfl : more = [] := (List.cons.inj hsingle).2
    cases rest with
    | nil => exact absurd hmore (by decide)
    | cons d rest => exact absurd hmore (by simp [(hrest d rfl).1])
  rw [List.cons_append] at hrun hafter ⊢
  simp only [readNumeral, hdigit, not_true_eq_false, if_false, if_neg hzero, hrun, hafter, hall,
    hvalue, List.isEmpty_nil, if_true, integer, Bool.false_eq_true]
  split
  · exact absurd rfl (hrest '.' rfl).2.1
  · exact absurd rfl (hrest 'e' rfl).2.2.1
  · exact absurd rfl (hrest 'E' rfl).2.2.2
  · rfl

/-- Natural numbers are read from literals, up to where these end. -/
theorem readNumeral_natural_iff :
    readNumeral false cs = .ok (.natural n, rest) ↔
      ∃ digits, cs = digits ++ rest ∧ Literal digits n ∧ EndsNumber rest := by
  constructor
  · exact fun h => (literal_of_readNumeral h).2
  · rintro ⟨digits, rfl, hdigits, hrest⟩
    exact readNumeral_of_literal hdigits hrest

/-- A number is written with a literal. -/
theorem literal_toDigits (hn : n ≤ maxNatural) : Literal (Nat.toDigits 10 n) n where
  toDenotes := denotes_toDigits hn
  leading h := by
    cases n with
    | zero => rfl
    | succ n => exact absurd h (head?_toDigits_ne_zero n.succ_ne_zero)

end ProviderGraph.Json
