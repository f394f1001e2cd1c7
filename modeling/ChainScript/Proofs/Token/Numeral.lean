import Mathlib.Computability.RegularExpressions
import Mathlib.Data.List.TakeWhile
import ChainScript.Proofs.Token.Lexeme

/-!
The forms of numbers. What a number looks like is said by regular expressions; every text of such a
form is read as a number, and the reader of numerals takes the whole of it.
-/
namespace ChainScript.Numeral

open RegularExpression

variable {x y d : List Char} {c : Char}

/-- The text has the form. -/
def Matches (form : RegularExpression Char) (text : List Char) : Prop := text ∈ form.matches'

/-- One of the given characters. -/
def oneOf (cs : List Char) : RegularExpression Char := (cs.map char).sum

/-- The given form, or nothing. -/
def optional (form : RegularExpression Char) : RegularExpression Char := 1 + form

/-- `[0-9]` -/
def digit : RegularExpression Char := oneOf "0123456789".toList

/-- `[0-9]+` -/
def digits : RegularExpression Char := digit * star digit

/-- `-?[0-9]+` -/
def integer : RegularExpression Char := optional (char '-') * digits

/-- `\.[0-9]+` -/
def fraction : RegularExpression Char := char '.' * digits

/-- `[eE][+-]?[0-9]+` -/
def exponent : RegularExpression Char :=
  oneOf "eE".toList * (optional (oneOf "+-".toList) * digits)

/-- `[0-9]+(\.[0-9]+)?([eE][+-]?[0-9]+)?` -/
def magnitude : RegularExpression Char := digits * (optional fraction * optional exponent)

/-- `-?[0-9]+(\.[0-9]+)?([eE][+-]?[0-9]+)?` -/
def signed : RegularExpression Char := optional (char '-') * magnitude

theorem matches_mul {P Q : RegularExpression Char} :
    Matches (P * Q) x ↔ ∃ a b, Matches P a ∧ Matches Q b ∧ x = a ++ b := by
  unfold Matches
  rw [matches'_mul, Language.mem_mul]
  constructor
  · rintro ⟨a, ha, b, hb, rfl⟩
    exact ⟨a, b, ha, hb, rfl⟩
  · rintro ⟨a, b, ha, hb, rfl⟩
    exact ⟨a, ha, b, hb, rfl⟩

theorem matches_char : Matches (char c) x ↔ x = [c] := Iff.rfl

theorem matches_optional {form : RegularExpression Char} :
    Matches (optional form) x ↔ x = [] ∨ Matches form x := Iff.rfl

theorem matches_oneOf {cs : List Char} : Matches (oneOf cs) x ↔ ∃ c ∈ cs, x = [c] := by
  induction cs with
  | nil => exact ⟨fun h => absurd h (Language.notMem_zero x), by simp⟩
  | cons c cs ih =>
    have hsum : Matches (oneOf (c :: cs)) x ↔ x = [c] ∨ Matches (oneOf cs) x := Iff.rfl
    rw [hsum, ih]
    simp

theorem isDigit_iff : c.isDigit = true ↔ c ∈ "0123456789".toList := by
  constructor
  · intro h
    have hall : ∀ n < 58, 48 ≤ n → Char.ofNat n ∈ "0123456789".toList := by decide
    simp only [Char.isDigit, Bool.and_eq_true, decide_eq_true_eq, UInt32.le_iff_toNat_le] at h
    have hlow : 48 ≤ c.toNat := h.1
    have hhigh : c.toNat ≤ 57 := h.2
    rw [← Char.ofNat_toNat c]
    exact hall c.toNat (by omega) hlow
  · intro h
    simp at h
    rcases h with rfl | rfl | rfl | rfl | rfl | rfl | rfl | rfl | rfl | rfl <;> rfl

theorem ne_of_isDigit {e : Char} (hc : c.isDigit = true) (he : e.isDigit = false) : c ≠ e := by
  rintro rfl
  rw [hc] at he
  cases he

theorem matches_star_digit : Matches (star digit) x ↔ ∀ c ∈ x, c.isDigit = true := by
  unfold Matches
  rw [matches'_star, Language.mem_kstar]
  constructor
  · rintro ⟨parts, rfl, hparts⟩ c hc
    obtain ⟨part, hpart, hc⟩ := List.mem_flatten.mp hc
    obtain ⟨d, hd, rfl⟩ := matches_oneOf.mp (hparts part hpart)
    rw [List.mem_singleton.mp hc]
    exact isDigit_iff.mpr hd
  · intro h
    refine ⟨x.map fun c => [c], (List.flatMap_singleton' x).symm, ?_⟩
    intro part hpart
    obtain ⟨c, hc, rfl⟩ := List.mem_map.mp hpart
    exact matches_oneOf.mpr ⟨c, isDigit_iff.mp (h c hc), rfl⟩

theorem matches_digits : Matches digits x ↔ x ≠ [] ∧ ∀ c ∈ x, c.isDigit = true := by
  unfold digits
  rw [matches_mul]
  constructor
  · rintro ⟨a, b, ha, hb, rfl⟩
    obtain ⟨c, hc, rfl⟩ := matches_oneOf.mp ha
    refine ⟨by simp, ?_⟩
    simp only [List.cons_append, List.nil_append, List.forall_mem_cons]
    exact ⟨isDigit_iff.mpr hc, matches_star_digit.mp hb⟩
  · rintro ⟨hne, h⟩
    obtain ⟨c, rest, rfl⟩ := List.exists_cons_of_ne_nil hne
    rw [List.forall_mem_cons] at h
    exact ⟨[c], rest, matches_oneOf.mpr ⟨c, isDigit_iff.mp h.1, rfl⟩,
      matches_star_digit.mpr h.2, rfl⟩

theorem matches_fraction : Matches fraction x ↔ ∃ ds, Matches digits ds ∧ x = '.' :: ds := by
  unfold fraction
  rw [matches_mul]
  constructor
  · rintro ⟨a, ds, ha, hds, rfl⟩
    exact ⟨ds, hds, by rw [matches_char.mp ha]; rfl⟩
  · rintro ⟨ds, hds, rfl⟩
    exact ⟨['.'], ds, rfl, hds, rfl⟩

theorem matches_exponent :
    Matches exponent x ↔ ∃ e sign ds, (e = 'e' ∨ e = 'E') ∧
      (sign = [] ∨ sign = ['+'] ∨ sign = ['-']) ∧ Matches digits ds ∧ x = e :: (sign ++ ds) := by
  unfold exponent
  simp only [matches_mul, matches_optional, matches_oneOf]
  constructor
  · rintro ⟨a, b, ⟨e, he, rfl⟩, ⟨sign, ds, hsign, hds, rfl⟩, rfl⟩
    refine ⟨e, sign, ds, by simpa using he, ?_, hds, rfl⟩
    rcases hsign with rfl | ⟨c, hc, rfl⟩
    · exact .inl rfl
    · exact .inr (by simpa using hc)
  · rintro ⟨e, sign, ds, he, hsign, hds, rfl⟩
    refine ⟨[e], sign ++ ds, ⟨e, by simpa using he, rfl⟩, ⟨sign, ds, ?_, hds, rfl⟩, rfl⟩
    rcases hsign with rfl | hsign
    · exact .inl rfl
    · rcases hsign with rfl | rfl <;> exact .inr (by simp)

theorem matches_magnitude :
    Matches magnitude x ↔ ∃ whole f e, Matches digits whole ∧ Matches (optional fraction) f ∧
      Matches (optional exponent) e ∧ x = whole ++ (f ++ e) := by
  unfold magnitude
  simp only [matches_mul]
  constructor
  · rintro ⟨whole, b, hwhole, ⟨f, e, hf, he, rfl⟩, rfl⟩
    exact ⟨whole, f, e, hwhole, hf, he, rfl⟩
  · rintro ⟨whole, f, e, hwhole, hf, he, rfl⟩
    exact ⟨whole, f ++ e, hwhole, ⟨f, e, hf, he, rfl⟩, rfl⟩

theorem matches_signed :
    Matches signed x ↔
      ∃ sign d, (sign = [] ∨ sign = ['-']) ∧ Matches magnitude d ∧ x = sign ++ d := by
  unfold signed
  simp only [matches_mul, matches_optional, matches_char]

theorem exists_digit_cons (h : Matches digits x) : ∃ c rest, c.isDigit = true ∧ x = c :: rest := by
  obtain ⟨hne, hall⟩ := matches_digits.mp h
  obtain ⟨c, rest, rfl⟩ := List.exists_cons_of_ne_nil hne
  exact ⟨c, rest, hall c List.mem_cons_self, rfl⟩

/-- A numeral starts with a digit. -/
theorem exists_cons_of_magnitude (h : Matches magnitude d) :
    ∃ c rest, c.isDigit = true ∧ d = c :: rest := by
  obtain ⟨whole, f, e, hwhole, -, -, rfl⟩ := matches_magnitude.mp h
  obtain ⟨c, rest, hc, rfl⟩ := exists_digit_cons hwhole
  exact ⟨c, rest ++ (f ++ e), hc, rfl⟩

/-! The reader of numerals. -/

theorem span_append {P : Char → Bool} (hx : ∀ c ∈ x, P c = true) (hy : ∀ c ∈ y.head?, P c = false) :
    (x ++ y).span P = (x, y) := by
  rw [List.span_eq_takeWhile_dropWhile, List.takeWhile_append_of_pos hx,
    List.dropWhile_append_of_pos hx]
  cases y with
  | nil => simp
  | cons c rest =>
    have hc := hy c rfl
    simp [hc]

theorem forall_span (P : Char → Bool) (x : List Char) :
    (∀ c ∈ (x.span P).1, P c = true) ∧ ∀ c ∈ (x.span P).2.head?, P c = false := by
  rw [List.span_eq_takeWhile_dropWhile]
  refine ⟨fun c hc => List.mem_takeWhile_imp hc, ?_⟩
  intro c hc
  have hhead := List.head?_dropWhile_not P x
  rwa [Option.mem_def.mp hc] at hhead

/-- A numeral does not go on into this text. -/
def Stops (y : List Char) : Prop :=
  ∀ c ∈ y.head?, c.isDigit = false ∧ c ≠ '.' ∧ c ≠ 'e' ∧ c ≠ 'E'

theorem isDigit_head_exponent (he : Matches (optional exponent) x) (hy : Stops y) :
    ∀ c ∈ (x ++ y).head?, c.isDigit = false ∧ c ≠ '.' := by
  rcases he with rfl | he
  · intro c hc
    exact ⟨(hy c hc).1, (hy c hc).2.1⟩
  · obtain ⟨e, sign, ds, hletter, -, -, rfl⟩ := matches_exponent.mp he
    intro c hc
    obtain rfl : e = c := by simpa using hc
    rcases hletter with rfl | rfl <;> exact ⟨rfl, by decide⟩

theorem isDigit_head_fraction (hf : Matches (optional fraction) x)
    (hy : ∀ c ∈ y.head?, c.isDigit = false) : ∀ c ∈ (x ++ y).head?, c.isDigit = false := by
  rcases hf with rfl | hf
  · exact hy
  · obtain ⟨ds, -, rfl⟩ := matches_fraction.mp hf
    intro c hc
    obtain rfl : '.' = c := by simpa using hc
    rfl

theorem spanFraction_append (hf : Matches (optional fraction) x)
    (hy : ∀ c ∈ y.head?, c.isDigit = false ∧ c ≠ '.') :
    Lexeme.spanFraction (x ++ y) = (x, y) := by
  rcases hf with rfl | hf
  · cases y with
    | nil => rfl
    | cons c rest =>
      have hc := (hy c rfl).2
      simp [Lexeme.spanFraction, hc]
  · obtain ⟨ds, hds, rfl⟩ := matches_fraction.mp hf
    obtain ⟨hne, hall⟩ := matches_digits.mp hds
    have hspan := span_append hall fun c hc => (hy c hc).1
    obtain ⟨c, rest, rfl⟩ := List.exists_cons_of_ne_nil hne
    simp only [Lexeme.spanFraction, List.cons_append] at hspan ⊢
    rw [hspan]

theorem spanSign_append {sign : List Char} (h : sign = [] ∨ sign = ['+'] ∨ sign = ['-'])
    (hc : c.isDigit = true) (y : List Char) :
    Lexeme.spanSign (sign ++ c :: y) = (sign, c :: y) := by
  rcases h with rfl | rfl | rfl
  · have hplus : c ≠ '+' := ne_of_isDigit hc rfl
    have hminus : c ≠ '-' := ne_of_isDigit hc rfl
    simp [Lexeme.spanSign, hplus, hminus]
  · rfl
  · rfl

theorem spanExponent_append (he : Matches (optional exponent) x) (hy : Stops y) :
    Lexeme.spanExponent (x ++ y) = (x, y) := by
  rcases he with rfl | he
  · cases y with
    | nil => rfl
    | cons c rest =>
      obtain ⟨-, -, hlower, hupper⟩ := hy c rfl
      rw [List.nil_append, Lexeme.spanExponent_cons, if_neg (by simp [hlower, hupper])]
  · obtain ⟨e, sign, ds, hletter, hsign, hds, rfl⟩ := matches_exponent.mp he
    have hspan := span_append (matches_digits.mp hds).2 fun c hc => (hy c hc).1
    obtain ⟨c, rest, hc, rfl⟩ := exists_digit_cons hds
    have hcut := spanSign_append hsign hc (rest ++ y)
    simp only [List.cons_append, List.append_assoc] at hspan ⊢
    rw [Lexeme.spanExponent_cons, if_pos hletter, hcut]
    simp only [hspan, List.cons_append]

/-- The reader of numerals takes a numeral as a whole. -/
theorem spanNumeral_append (hd : Matches magnitude d) (hy : Stops y) :
    Lexeme.spanNumeral (d ++ y) = (d, y) := by
  obtain ⟨whole, f, e, hwhole, hf, he, rfl⟩ := matches_magnitude.mp hd
  have hexponent := isDigit_head_exponent he hy
  have hfraction := isDigit_head_fraction hf fun c hc => (hexponent c hc).1
  have hspan := span_append (matches_digits.mp hwhole).2 hfraction
  simp only [Lexeme.spanNumeral, List.append_assoc]
  rw [hspan]
  simp only [spanFraction_append hf hexponent, spanExponent_append he hy]

/-! The values of numerals. -/

theorem stops_nil : Stops [] := by
  intro c hc
  cases hc

/-- A sign that is cut off as far as it goes. -/
def IsSign (sign more : List Char) : Prop :=
  sign = [] ∧ (∀ c ∈ more.head?, c ≠ '+' ∧ c ≠ '-') ∨ sign = ['+'] ∨ sign = ['-']

theorem exists_isSign (x : List Char) : ∃ sign more, IsSign sign more ∧ x = sign ++ more := by
  cases x with
  | nil => exact ⟨[], [], .inl ⟨rfl, by simp⟩, rfl⟩
  | cons c rest =>
    by_cases hplus : c = '+'
    · exact ⟨['+'], rest, .inr (.inl rfl), by rw [hplus]; rfl⟩
    · by_cases hminus : c = '-'
      · exact ⟨['-'], rest, .inr (.inr rfl), by rw [hminus]; rfl⟩
      · exact ⟨[], c :: rest, .inl ⟨rfl, by simp [hplus, hminus]⟩, rfl⟩

theorem readExponent?_cons {e : Char} {sign more : List Char} (h : IsSign sign more) :
    Decimal.readExponent? (e :: (sign ++ more)) ≠ none ↔
      (e = 'e' ∨ e = 'E') ∧ more ≠ [] ∧ ∀ c ∈ more, c.isDigit = true := by
  rcases h with ⟨rfl, hmore⟩ | rfl | rfl
  · cases more with
    | nil => simp [Decimal.readExponent?]
    | cons c rest =>
      obtain ⟨hplus, hminus⟩ := hmore c rfl
      simp [Decimal.readExponent?, hplus, hminus]
  · simp [Decimal.readExponent?]
  · simp [Decimal.readExponent?]

/-- Exponents are read in their form only. -/
theorem readExponent?_ne_none_iff :
    Decimal.readExponent? x ≠ none ↔ Matches (optional exponent) x := by
  constructor
  · intro h
    cases x with
    | nil => exact .inl rfl
    | cons e rest =>
      obtain ⟨sign, more, hsign, rfl⟩ := exists_isSign rest
      obtain ⟨hletter, hmore⟩ := (readExponent?_cons hsign).mp h
      refine .inr (matches_exponent.mpr ⟨e, sign, more, hletter, ?_, matches_digits.mpr hmore, rfl⟩)
      exact hsign.imp_left And.left
  · rintro (rfl | hx)
    · nofun
    · obtain ⟨e, sign, ds, hletter, hsign, hds, rfl⟩ := matches_exponent.mp hx
      obtain ⟨c, rest, hc, rfl⟩ := exists_digit_cons hds
      have hdigit : ∀ d ∈ (c :: rest).head?, d ≠ '+' ∧ d ≠ '-' := by
        intro d hd
        obtain rfl : c = d := by simpa using hd
        constructor <;> rintro rfl <;> cases hc
      exact (readExponent?_cons (hsign.imp_left fun h => ⟨h, hdigit⟩)).mpr
        ⟨hletter, matches_digits.mp hds⟩

/-- A decimal is read as digits, a point behind which digits may be missing, and an exponent. -/
theorem read?_append {whole f e : List Char} (hwhole : Matches digits whole)
    (hf : f = [] ∧ (∀ c ∈ e.head?, c ≠ '.') ∨ ∃ ds, (∀ c ∈ ds, c.isDigit = true) ∧ f = '.' :: ds)
    (hfe : ∀ c ∈ (f ++ e).head?, c.isDigit = false) (he : ∀ c ∈ e.head?, c.isDigit = false) :
    Decimal.read? (whole ++ (f ++ e)) ≠ none ↔ Decimal.readExponent? e ≠ none := by
  obtain ⟨hne, hall⟩ := matches_digits.mp hwhole
  have hspan : Decimal.spanDigits (whole ++ (f ++ e)) = (whole, f ++ e) := span_append hall hfe
  have hempty : whole.isEmpty = false := by simpa using hne
  unfold Decimal.read?
  rw [hspan]
  rcases hf with ⟨rfl, hpoint⟩ | ⟨ds, hds, rfl⟩
  · cases e with
    | nil => simp [hempty]
    | cons c rest =>
      have hc := hpoint c rfl
      simp [hempty, hc]
  · have hmore : Decimal.spanDigits (ds ++ e) = (ds, e) := span_append hds he
    simp [hempty, hmore]

theorem read?_magnitude (hd : Matches magnitude d) : Decimal.read? d ≠ none := by
  obtain ⟨whole, f, e, hwhole, hf, he, rfl⟩ := matches_magnitude.mp hd
  have hexponent := isDigit_head_exponent he stops_nil
  rw [List.append_nil] at hexponent
  have hdigit : ∀ c ∈ e.head?, c.isDigit = false := fun c hc => (hexponent c hc).1
  have hfraction := isDigit_head_fraction hf hdigit
  rw [read?_append hwhole ?_ hfraction hdigit]
  · exact readExponent?_ne_none_iff.mpr he
  · rcases hf with rfl | hf
    · exact .inl ⟨rfl, fun c hc => (hexponent c hc).2⟩
    · obtain ⟨ds, hds, rfl⟩ := matches_fraction.mp hf
      exact .inr ⟨ds, (matches_digits.mp hds).2, rfl⟩

theorem exists_digits (x : List Char) : ∃ ds rest, x = ds ++ rest ∧ (∀ c ∈ ds, c.isDigit = true) ∧
    ∀ c ∈ rest.head?, c.isDigit = false :=
  ⟨_, _, (Lexeme.cuts_digits.append x).symm, forall_span Char.isDigit x⟩

/--
What is read as a decimal has the form of a numeral, if it starts with a digit and each point in it
has a digit behind it.
-/
theorem matches_of_read? (hc : c.isDigit = true) (h : Decimal.read? (c :: x) ≠ none)
    (hpoint : ∀ a b, c :: x = a ++ '.' :: b → ∃ d ∈ b.head?, d.isDigit = true) :
    Matches magnitude (c :: x) := by
  obtain ⟨whole, rest, hx, hwhole, hrest⟩ := exists_digits (c :: x)
  have hne : whole ≠ [] := by
    rintro rfl
    rw [List.nil_append] at hx
    have hhead := hrest c (by rw [← hx]; rfl)
    rw [hc] at hhead
    cases hhead
  have hdigits : Matches digits whole := matches_digits.mpr ⟨hne, hwhole⟩
  rw [hx] at h hpoint ⊢
  by_cases hrest' : rest.head? = some '.'
  · obtain ⟨more, rfl⟩ : ∃ more, rest = '.' :: more := by
      cases rest <;> simp_all
    obtain ⟨ds, e, rfl, hds, he⟩ := exists_digits more
    have hread := read?_append hdigits (.inr ⟨ds, hds, rfl⟩) hrest he
    have hexponent := readExponent?_ne_none_iff.mp (hread.mp h)
    have hds' : ds ≠ [] := by
      rintro rfl
      obtain ⟨d, hd, hdigit⟩ := hpoint whole _ rfl
      rw [he d hd] at hdigit
      cases hdigit
    exact matches_magnitude.mpr ⟨whole, '.' :: ds, e, hdigits,
      .inr (matches_fraction.mpr ⟨ds, matches_digits.mpr ⟨hds', hds⟩, rfl⟩), hexponent, rfl⟩
  · have hno : ∀ c ∈ rest.head?, c ≠ '.' := by
      rintro c hc rfl
      exact hrest' hc
    have hread := read?_append hdigits (.inl ⟨rfl, hno⟩) hrest hrest
    have hexponent := readExponent?_ne_none_iff.mp (hread.mp h)
    exact matches_magnitude.mpr ⟨whole, [], rest, hdigits, .inl rfl, hexponent, rfl⟩

theorem toLower_of_isDigit (hc : c.isDigit = true) : c.toLower = c := by
  have hall : ("0123456789".toList.all fun c => c.toLower = c) = true := by decide
  simpa using List.all_eq_true.mp hall c (isDigit_iff.mp hc)

/-- The words for the special values do not start with a digit. -/
theorem readMagnitude?_cons (hc : c.isDigit = true) (x : List Char) :
    Number.readMagnitude? (c :: x) = (Decimal.read? (c :: x)).map Decimal.toFloat := by
  have hword {word : String} (hhead : word.toList.head?.any Char.isDigit = false) :
      String.ofList ((c :: x).map Char.toLower) ≠ word := by
    rintro rfl
    simp [toLower_of_isDigit hc, hc] at hhead
  unfold Number.readMagnitude?
  rw [if_neg (not_or.mpr ⟨hword (by decide), hword (by decide)⟩), if_neg (hword (by decide))]

theorem read?_cons (hc : c.isDigit = true) (x : List Char) :
    Number.read? (c :: x) = Number.readMagnitude? (c :: x) := by
  unfold Number.read?
  split
  next heq =>
    cases heq
    cases hc
  next heq =>
    cases heq
    cases hc
  next => rfl

/-- A numeral has a value, and with a minus sign in front the opposite of it. -/
theorem exists_read? (hd : Matches magnitude d) :
    ∃ v, Number.read? d = some v ∧ Number.read? ('-' :: d) = some (-v) := by
  obtain ⟨c, x, hc, rfl⟩ := exists_cons_of_magnitude hd
  obtain ⟨v, hv⟩ := Option.ne_none_iff_exists'.mp (read?_magnitude hd)
  have hmagnitude : Number.readMagnitude? (c :: x) = some v.toFloat := by
    rw [readMagnitude?_cons hc, hv]
    rfl
  refine ⟨v.toFloat, (read?_cons hc x).trans hmagnitude, ?_⟩
  rw [Number.read?, hmagnitude]
  rfl

/-! The pieces of words that are numbers. -/

theorem isNumeralChar_of_isDigit (hc : c.isDigit = true) : Word.isNumeralChar c = true := by
  simp [Word.isNumeralChar, hc]

theorem isNumeralChar_of_mem (hd : Matches magnitude d) : ∀ c ∈ d, Word.isNumeralChar c = true := by
  have hdigits {x : List Char} (hx : Matches digits x) : ∀ c ∈ x, Word.isNumeralChar c = true :=
    fun c hc => isNumeralChar_of_isDigit ((matches_digits.mp hx).2 c hc)
  obtain ⟨whole, f, e, hwhole, hf, he, rfl⟩ := matches_magnitude.mp hd
  simp only [List.forall_mem_append]
  refine ⟨hdigits hwhole, ?_, ?_⟩
  · rcases hf with rfl | hf
    · simp
    · obtain ⟨ds, hds, rfl⟩ := matches_fraction.mp hf
      exact List.forall_mem_cons.mpr ⟨rfl, hdigits hds⟩
  · rcases he with rfl | he
    · simp
    · obtain ⟨e, sign, ds, hletter, hsign, hds, rfl⟩ := matches_exponent.mp he
      simp only [List.forall_mem_cons, List.forall_mem_append]
      refine ⟨?_, ?_, hdigits hds⟩
      · rcases hletter with rfl | rfl <;> rfl
      · rcases hsign with rfl | rfl | rfl <;> simp [Word.isNumeralChar]

theorem unsigned_append {sign : List Char} (hsign : sign = [] ∨ sign = ['-'])
    (hc : c.isDigit = true) (x : List Char) : Word.unsigned (sign ++ c :: x) = c :: x := by
  rcases hsign with rfl | rfl
  · have hne : c ≠ '-' := ne_of_isDigit hc rfl
    simp [Word.unsigned, hne]
  · rfl

theorem exists_sign_append (t : List Char) :
    ∃ sign, (sign = [] ∨ sign = ['-']) ∧ t = sign ++ Word.unsigned t := by
  unfold Word.unsigned
  split
  · exact ⟨['-'], .inr rfl, rfl⟩
  · exact ⟨[], .inl rfl, rfl⟩

theorem number?_append {sign : List Char} (hsign : sign = [] ∨ sign = ['-'])
    (hc : c.isDigit = true) (hall : ∀ d ∈ c :: x, Word.isNumeralChar d = true) :
    Word.number? (sign ++ c :: x) = Number.read? (sign ++ c :: x) := by
  unfold Word.number?
  rw [unsigned_append hsign hc, if_pos]
  rw [Bool.and_eq_true, List.all_eq_true]
  exact ⟨by simpa using hc, hall⟩

/-- Neither of the words that are keywords is a number. -/
theorem find?_words_append {sign : List Char} (hsign : sign = [] ∨ sign = ['-'])
    (hc : c.isDigit = true) (x : List Char) :
    (Keyword.words.find? fun k => k.text.toList = sign ++ c :: x) = none := by
  rw [List.find?_eq_none]
  intro k hk htext
  have hall : ∀ k ∈ Keyword.words,
      (k.text.toList.head?.any fun d => d = '-' || d.isDigit) = false := by decide
  have hhead := hall k hk
  rw [decide_eq_true_eq] at htext
  rw [htext] at hhead
  rcases hsign with rfl | rfl
  · simp [hc] at hhead
  · cases hhead

/-- A piece of the form of a number is that number. -/
theorem classify_append {sign : List Char} {v : Float} (hsign : sign = [] ∨ sign = ['-'])
    (hd : Matches magnitude d) (hv : Number.read? (sign ++ d) = some v) :
    Word.classify (sign ++ d) = .number v := by
  have hall := isNumeralChar_of_mem hd
  obtain ⟨c, x, hc, rfl⟩ := exists_cons_of_magnitude hd
  unfold Word.classify
  rw [find?_words_append hsign hc, number?_append hsign hc hall, hv]

theorem number?_eq_some {t : List Char} {v : Float} (h : Word.number? t = some v) :
    ∃ sign c x, (sign = [] ∨ sign = ['-']) ∧ c.isDigit = true ∧ t = sign ++ c :: x ∧
      Decimal.read? (c :: x) ≠ none := by
  obtain ⟨sign, hsign, ht⟩ := exists_sign_append t
  unfold Word.number? at h
  split at h
  next hcond =>
    rw [Bool.and_eq_true] at hcond
    cases hu : Word.unsigned t with
    | nil =>
      rw [hu] at hcond
      cases hcond.1
    | cons c x =>
      rw [hu] at hcond ht
      have hc : c.isDigit = true := by simpa using hcond.1
      refine ⟨sign, c, x, hsign, hc, ht, ?_⟩
      intro hnone
      have hmagnitude : Number.readMagnitude? (c :: x) = none := by
        rw [readMagnitude?_cons hc, hnone]
        rfl
      rcases hsign with rfl | rfl
      · rw [ht, List.nil_append, read?_cons hc, hmagnitude] at h
        cases h
      · rw [ht, List.cons_append, List.nil_append, Number.read?, hmagnitude] at h
        cases h
  next => cases h

/-- A piece in which each point has a digit behind it is a number exactly if it has that form. -/
theorem kind_classify_iff {t : List Char}
    (hpoint : ∀ a b, t = a ++ '.' :: b → ∃ d ∈ b.head?, d.isDigit = true) :
    (Word.classify t).kind = .number ↔ Matches signed t := by
  constructor
  · intro h
    unfold Word.classify at h
    split at h
    next => cases h
    next =>
      split at h
      next v hv =>
        obtain ⟨sign, c, x, hsign, hc, rfl, hread⟩ := number?_eq_some hv
        refine matches_signed.mpr ⟨sign, c :: x, hsign, matches_of_read? hc hread ?_, rfl⟩
        intro a b hab
        exact hpoint (sign ++ a) b (by rw [hab, List.append_assoc])
      next => cases h
  · intro h
    obtain ⟨sign, d, hsign, hd, rfl⟩ := matches_signed.mp h
    obtain ⟨v, hv, hneg⟩ := exists_read? hd
    rcases hsign with rfl | rfl
    · rw [classify_append (.inl rfl) hd hv]
      rfl
    · rw [classify_append (.inr rfl) hd hneg]
      rfl

/-- Whole numbers are the texts of their form. -/
theorem isInteger_iff : Word.isInteger x = true ↔ Matches integer x := by
  unfold integer Word.isInteger
  simp only [matches_mul, matches_optional, matches_char, matches_digits, Bool.and_eq_true,
    Bool.not_eq_true', List.isEmpty_eq_false_iff, List.all_eq_true]
  constructor
  · intro h
    obtain ⟨sign, hsign, hx⟩ := exists_sign_append x
    exact ⟨sign, _, hsign, h, hx⟩
  · rintro ⟨sign, ds, hsign, ⟨hne, hds⟩, rfl⟩
    obtain ⟨c, rest, rfl⟩ := List.exists_cons_of_ne_nil hne
    rw [unsigned_append hsign (hds c List.mem_cons_self)]
    exact ⟨hne, hds⟩

end ChainScript.Numeral
