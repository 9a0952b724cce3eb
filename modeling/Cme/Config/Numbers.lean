import Cme.Config.KeyValue

/-!
# Config — numbers

A numeric setting passes through a 64-bit extraction and then the range check of
the field's own type. `IsNumeral` is a number as a person writes it: blanks, an
optional plus sign, decimal digits. With a minus sign the extraction wraps modulo
2⁶⁴, and the wrapped value can land inside the range (`minus_sign_wraps`). A text
is read as the number it spells, or refused where it spells none that fits, exactly
when that does not happen to it (`numbers_read_as_written`).
-/

namespace Cme.Config

variable {config : KeyValueConfig} {text : Text} {value : Nat}

/-- The text is blanks, an optional plus sign and decimal digits for `value`. -/
def IsNumeral (text : Text) (value : Nat) : Prop :=
  ∃ blanks sign digits, text = blanks ++ (sign ++ digits) ∧
    (∀ c ∈ blanks, isSpace c = true) ∧ (sign = [] ∨ sign = ['+']) ∧ digits ≠ [] ∧
    (∀ c ∈ digits, c.isDigit = true) ∧ numeral digits = value

/-- The text is blanks, a minus sign and decimal digits for `magnitude`. -/
def IsNegated (text : Text) (magnitude : Nat) : Prop :=
  ∃ blanks digits, text = blanks ++ '-' :: digits ∧ (∀ c ∈ blanks, isSpace c = true) ∧
    digits ≠ [] ∧ (∀ c ∈ digits, c.isDigit = true) ∧ numeral digits = magnitude

/-- What 64 bits make of minus `magnitude`. -/
def negated (magnitude : Nat) : Nat := (2 ^ 64 - magnitude) % 2 ^ 64

/-- A negated numeral of at most 64 bits that wraps to a value of the type. -/
def Wraps (type : NumberType) (text : Text) : Prop :=
  ∃ magnitude, IsNegated text magnitude ∧ magnitude < 2 ^ 64 ∧ negated magnitude ≤ type.max

theorem IsNegated.mem {magnitude : Nat} (h : IsNegated text magnitude) : '-' ∈ text := by
  obtain ⟨blanks, digits, rfl, -⟩ := h
  simp

theorem IsNumeral.not_mem (h : IsNumeral text value) : '-' ∉ text := by
  obtain ⟨blanks, sign, digits, rfl, hblanks, hsign, -, hdigits, -⟩ := h
  intro hmem
  rcases List.mem_append.mp hmem with hmem | hmem
  · exact absurd (hblanks _ hmem) (by decide)
  rcases List.mem_append.mp hmem with hmem | hmem
  · rcases hsign with rfl | rfl <;> exact absurd hmem (by decide)
  · exact absurd (hdigits _ hmem) (by decide)

/-! ## The extraction -/

/-- The extraction is clean: it did not fail and took the whole text. -/
def Extraction.clean (e : Extraction) : Prop := e.fail = false ∧ e.eof = true

theorem not_isSpace_of_isDigit {c : Char} (h : c.isDigit = true) : isSpace c = false := by
  by_contra hs
  simp only [isSpace, Bool.not_eq_false, Bool.or_eq_true, beq_iff_eq] at hs
  obtain ((((rfl | rfl) | rfl) | rfl) | rfl) | rfl := hs <;> exact absurd h (by decide)

theorem readSign_digits {field : Text} (h : ∀ c ∈ field, c.isDigit = true) :
    readSign field = (false, field) := by
  cases field with
  | nil => rfl
  | cons c field =>
    have hc := h c (.head _)
    rw [readSign]
    · rintro rest h'
      cases h'
      exact absurd hc (by decide)
    · rintro rest h'
      cases h'
      exact absurd hc (by decide)

theorem readSign_cases (field : Text) :
    (∃ rest, field = '-' :: rest ∧ readSign field = (true, rest)) ∨
      ∃ sign rest, (sign = [] ∨ sign = ['+']) ∧ field = sign ++ rest ∧
        readSign field = (false, rest) := by
  unfold readSign
  split
  · next rest => exact .inl ⟨rest, rfl, rfl⟩
  · next rest => exact .inr ⟨['+'], rest, .inr rfl, rfl, rfl⟩
  · exact .inr ⟨[], field, .inl rfl, rfl, rfl⟩

/-- The extraction is clean exactly when digits and nothing else follow the sign,
and fewer than 64 bits of them. -/
theorem extractUnsigned_of_sign {negative : Bool} {field : Text}
    (hsign : readSign (text.dropWhile isSpace) = (negative, field)) :
    (extractUnsigned text).clean ∧ (extractUnsigned text).value = value ↔
      field ≠ [] ∧ (∀ c ∈ field, c.isDigit = true) ∧ numeral field < 2 ^ 64 ∧
        (if negative then negated (numeral field) else numeral field) = value := by
  have hsplit := List.takeWhile_append_dropWhile (p := Char.isDigit) (l := field)
  constructor
  · rintro ⟨⟨hfail, heof⟩, hvalue⟩
    simp only [extractUnsigned, hsign] at hfail heof hvalue
    by_cases hdigits : field.takeWhile Char.isDigit = []
    · simp [hdigits] at hfail
    by_cases hbig : 2 ^ 64 ≤ numeral (field.takeWhile Char.isDigit)
    · rw [if_neg hdigits, if_pos hbig] at hfail
      cases hfail
    -- nothing is left after the digits, so the digits are the whole field
    rw [if_neg hdigits, if_neg hbig] at heof hvalue
    have hall : field.takeWhile Char.isDigit = field := by
      rw [List.isEmpty_iff.mp heof, List.append_nil] at hsplit
      exact hsplit
    rw [hall] at hdigits hbig hvalue
    refine ⟨hdigits, ?_, Nat.lt_of_not_le hbig, hvalue⟩
    intro c hc
    rw [← hall] at hc
    exact List.mem_takeWhile_imp hc
  · rintro ⟨hne, hall, hlt, hvalue⟩
    have htake : field.takeWhile Char.isDigit = field := List.takeWhile_eq_self_iff.mpr hall
    have hdrop : field.dropWhile Char.isDigit = [] := List.dropWhile_eq_nil_iff.mpr hall
    have hsmall : ¬ 2 ^ 64 ≤ numeral field := Nat.not_le_of_lt hlt
    simp only [extractUnsigned, hsign, htake, hdrop, if_neg hne, if_neg hsmall,
      Extraction.clean, List.isEmpty_nil, and_self, true_and]
    exact hvalue

/-- A text is extracted clean exactly when it is a numeral of at most 64 bits, or one
with a minus sign before it, which wraps. -/
theorem extractUnsigned_clean_iff :
    (extractUnsigned text).clean ∧ (extractUnsigned text).value = value ↔
      IsNumeral text value ∧ value < 2 ^ 64 ∨
        ∃ magnitude, IsNegated text magnitude ∧ magnitude < 2 ^ 64 ∧ negated magnitude = value := by
  have hsplit := List.takeWhile_append_dropWhile (p := isSpace) (l := text)
  have hblanks : ∀ c ∈ text.takeWhile isSpace, isSpace c = true :=
    fun c hc => List.mem_takeWhile_imp hc
  constructor
  · intro h
    rcases readSign_cases (text.dropWhile isSpace) with ⟨rest, hfield, hsign⟩ |
      ⟨sign, rest, hplus, hfield, hsign⟩
    · obtain ⟨hne, hall, hlt, hvalue⟩ := (extractUnsigned_of_sign hsign).mp h
      refine .inr ⟨_, ⟨text.takeWhile isSpace, rest, ?_, hblanks, hne, hall, rfl⟩, hlt, hvalue⟩
      rw [← hfield, hsplit]
    · obtain ⟨hne, hall, hlt, rfl⟩ := (extractUnsigned_of_sign hsign).mp h
      refine .inl ⟨⟨text.takeWhile isSpace, sign, rest, ?_, hblanks, hplus, hne, hall, rfl⟩, hlt⟩
      rw [← hfield, hsplit]
  · rintro (⟨⟨blanks, sign, digits, rfl, hspace, hplus, hne, hall, rfl⟩, hlt⟩ |
      ⟨_, ⟨blanks, digits, rfl, hspace, hne, hall, rfl⟩, hlt, rfl⟩)
    · have hfield : (blanks ++ (sign ++ digits)).dropWhile isSpace = sign ++ digits := by
        rw [List.dropWhile_append_of_pos hspace]
        rcases hplus with rfl | rfl
        · cases digits with
          | nil => rfl
          | cons c digits =>
            have hc := not_isSpace_of_isDigit (hall c (.head _))
            exact List.dropWhile_cons_of_neg (by simp [hc])
        · exact List.dropWhile_cons_of_neg (by decide)
      have hsign : readSign ((blanks ++ (sign ++ digits)).dropWhile isSpace) = (false, digits) := by
        rw [hfield]
        rcases hplus with rfl | rfl
        · exact readSign_digits hall
        · rfl
      exact (extractUnsigned_of_sign hsign).mpr ⟨hne, hall, hlt, rfl⟩
    · have hsign : readSign ((blanks ++ '-' :: digits).dropWhile isSpace) = (true, digits) := by
        rw [List.dropWhile_append_of_pos hspace, List.dropWhile_cons_of_neg (by decide)]
        rfl
      exact (extractUnsigned_of_sign hsign).mpr ⟨hne, hall, hlt, rfl⟩

/-! ## The getter -/

namespace KeyValueConfig

variable {key : Text}

theorem readWhole_of_clean {fallback : Nat} (htext : config.entries key = some text)
    (hne : text ≠ []) (hclean : (extractUnsigned text).clean) :
    config.readWhole key fallback = .ok (extractUnsigned text).value := by
  obtain ⟨hfail, heof⟩ := hclean
  simp [readWhole, htext, hne, hfail, heof]

theorem readWhole_of_not_clean {fallback : Nat} (htext : config.entries key = some text)
    (hne : text ≠ []) (hclean : ¬ (extractUnsigned text).clean) : config.readWhole key fallback =
      .error (config.refusal key text "` is not a number".toList) := by
  have hbad : (extractUnsigned text).fail = true ∨ (!(extractUnsigned text).eof) = true := by
    by_contra h
    push Not at h
    exact hclean ⟨by simpa using h.1, by simpa using h.2⟩
  simp only [readWhole, htext, if_neg hne, if_pos hbad]

theorem max_lt (type : NumberType) : type.max < 2 ^ 64 := by
  have hle : 2 ^ type.digits ≤ 2 ^ 64 := Nat.pow_le_pow_right (by decide) type.digits_le
  have hpos : 0 < 2 ^ type.digits := Nat.two_pow_pos _
  rw [NumberType.max]
  omega

/-- What was extracted clean and fits is returned, and everything else is refused. -/
theorem getNumber_cases (type : NumberType) (fallback : Int)
    (htext : config.entries key = some text) (hne : text ≠ []) :
    (∃ value, config.getNumber type key fallback = .ok value ∧
        ((extractUnsigned text).clean ∧ (extractUnsigned text).value = value) ∧ value ≤ type.max) ∨
      ((∃ e, config.getNumber type key fallback = .error (.parseError e)) ∧
        ∀ value, (extractUnsigned text).clean ∧ (extractUnsigned text).value = value →
          type.max < value) := by
  by_cases hclean : (extractUnsigned text).clean
  · have hread : config.readWhole key (fallback % 2 ^ 64).toNat
        = .ok (extractUnsigned text).value := readWhole_of_clean htext hne hclean
    by_cases hfits : type.max < (extractUnsigned text).value
    · refine .inr ⟨?_, fun value hvalue => hvalue.2 ▸ hfits⟩
      rw [getNumber, hread]
      simp only [bind, Except.bind, if_pos hfits, require, htext]
      exact ⟨_, rfl⟩
    · refine .inl ⟨_, ?_, ⟨hclean, rfl⟩, Nat.le_of_not_lt hfits⟩
      rw [getNumber, hread]
      simp only [bind, Except.bind, if_neg hfits]
      rfl
  · refine .inr ⟨?_, fun value hvalue => absurd hvalue.1 hclean⟩
    rw [getNumber, readWhole_of_not_clean htext hne hclean]
    exact ⟨_, rfl⟩

/-- **Numbers are read as written or refused**, exactly when no minus sign makes the
text wrap into the type: the number it spells is returned where the type holds it, and
every other text is refused. -/
theorem numbers_read_as_written (type : NumberType) (fallback : Int)
    (htext : config.entries key = some text) (hne : text ≠ []) :
    ((∃ value, config.getNumber type key fallback = .ok value ∧
        IsNumeral text value ∧ value ≤ type.max) ∨
      ((∃ e, config.getNumber type key fallback = .error (.parseError e)) ∧
        ∀ value, IsNumeral text value → type.max < value)) ↔ ¬ Wraps type text := by
  have hcases := getNumber_cases type fallback htext hne
  constructor
  · rintro hread ⟨magnitude, hneg, hsmall, hfits⟩
    -- the wrapped value is what the getter returns, and the text spells no number
    have hclean := extractUnsigned_clean_iff.mpr (.inr ⟨magnitude, hneg, hsmall, rfl⟩)
    rcases hcases with ⟨value, hget, -, -⟩ | ⟨-, hlarge⟩
    · rcases hread with ⟨_, -, hnumeral, -⟩ | ⟨⟨e, he⟩, -⟩
      · exact hnumeral.not_mem hneg.mem
      · cases hget.symm.trans he
    · exact Nat.not_le_of_lt (hlarge _ hclean) hfits
  · intro hwraps
    rcases hcases with ⟨value, hget, hclean, hfits⟩ | ⟨herror, hlarge⟩
    · rcases extractUnsigned_clean_iff.mp hclean with hnumeral | ⟨magnitude, hneg, hsmall, rfl⟩
      · exact .inl ⟨value, hget, hnumeral.1, hfits⟩
      · exact absurd ⟨magnitude, hneg, hsmall, hfits⟩ hwraps
    · refine .inr ⟨herror, fun value hnumeral => ?_⟩
      by_contra hle
      have hsmall : value < 2 ^ 64 := Nat.lt_of_le_of_lt (Nat.le_of_not_lt hle) (max_lt type)
      exact hle (hlarge value (extractUnsigned_clean_iff.mpr (.inl ⟨hnumeral, hsmall⟩)))

/-- One setting. -/
def single (key text : Text) : KeyValueConfig :=
  { entries := fun k => if k = key then some text else none, origin := [] }

def uint16 : NumberType := { isDuration := false, digits := 16, digits_le := by decide }

theorem numbers_read_as_written_plus :
    (single "port".toList " +42".toList).getNumber uint16 "port".toList 7 = .ok 42 ∧
      IsNumeral " +42".toList 42 := by
  have hread : (single "port".toList " +42".toList).getNumber uint16 "port".toList 7
      = .ok 42 := by decide +kernel
  have htext : (single "port".toList " +42".toList).entries "port".toList = some " +42".toList := by
    decide +kernel
  have hwraps : ¬ Wraps uint16 " +42".toList := fun ⟨_, hneg, _⟩ =>
    absurd hneg.mem (by decide +kernel)
  refine ⟨hread, ?_⟩
  rcases (numbers_read_as_written uint16 7 htext (by decide)).mpr hwraps with
    ⟨value, hvalue, hnumeral, -⟩ | ⟨⟨e, he⟩, -⟩
  · obtain rfl := Except.ok.inj (hvalue.symm.trans hread)
    exact hnumeral
  · rw [hread] at he
    cases he

/-- A negative numeral is accepted, at a type narrower than the 64 bits it wraps
in, as a small number it does not spell. -/
theorem minus_sign_wraps :
    (single "port".toList "-18446744073709551615".toList).getNumber uint16 "port".toList 7
        = .ok 1 ∧
      ∀ value, ¬ IsNumeral "-18446744073709551615".toList value := by
  refine ⟨by decide +kernel, ?_⟩
  intro value h
  exact h.not_mem (by decide +kernel)

end KeyValueConfig

end Cme.Config
