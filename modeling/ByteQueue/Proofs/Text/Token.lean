import ByteQueue.Log.Severity

/-! Reading values of enumerations. The token in front of a text is read whatever it says, and the
value that it stands for is found: by number if it begins with a digit, and else by a walk over the
names. As names begin with no digit and are told apart in any letter case, there is never more than
one value to be found. -/
namespace ByteQueue

namespace Token

theorem fronts_split (text : Text) : Fronts (split text).1 (split text).2 text where
  text_eq := (split_append text).symm
  isTokenChar := List.all_eq_true.mp List.all_takeWhile
  boundary c hc := by
    have hRest := List.head?_dropWhile_not Token.isTokenChar text
    rw [split, Option.mem_def] at hc
    simp only [hc] at hRest
    exact hRest

/-- There is only one token at the front of a text. -/
theorem Fronts.split_eq {token rest text : Text} (h : Fronts token rest text) :
    split text = (token, rest) := by
  rw [h.text_eq, split, List.takeWhile_append_of_pos h.isTokenChar,
    List.dropWhile_append_of_pos h.isTokenChar]
  cases hRest : rest with
  | nil => simp
  | cons c others =>
    have hc : Token.isTokenChar c = false := h.boundary c (hRest ▸ rfl)
    simp [hc]

/-- Letter case does not turn other characters into digits. -/
theorem isDigit_toUpper (c : Char) : c.toUpper.isDigit = c.isDigit := by
  unfold Char.toUpper Char.isDigit
  grind

theorem sameLetters_iff {first second : Text} :
    sameLetters first second = true ↔ first.map Char.toUpper = second.map Char.toUpper :=
  beq_iff_eq

section Walk

variable {type : NumberType} {name : type.Number → Text} {token : Text}
  {first stop number : type.Number}

theorem value_lt_of_ne (h : type.value first ≤ type.value stop) (hOn : first ≠ stop) :
    type.value first < type.value stop :=
  Int.lt_iff_le_and_ne.mpr ⟨h, fun hSame => hOn (NumberType.value_injective hSame)⟩

/-- The number that the walk looks at first, and the others. -/
theorem between_iff (h : type.value first < type.value stop) :
    type.Between first stop number ↔ number = first ∨ type.Between (first + 1) stop number := by
  simp only [NumberType.Between, NumberType.value_add_one h]
  constructor
  · rintro ⟨hFirst, hStop⟩
    rcases Int.lt_or_eq_of_le hFirst with hLater | hSame
    · exact .inr ⟨hLater, hStop⟩
    · exact .inl (NumberType.value_injective hSame.symm)
  · rintro (rfl | ⟨hLater, hStop⟩)
    · exact ⟨Int.le_refl _, h⟩
    · exact ⟨Int.le_of_lt hLater, hStop⟩

/-- The walk finds a number by its name, if the name is that of no other number on the way. -/
theorem firstNamed_eq_some_iff (hWay : type.value first ≤ type.value stop)
    (hUnique : ∀ one, type.Between first stop one → sameLetters token (name one) = true →
      ∀ other, type.Between first stop other → sameLetters token (name other) = true →
        one = other) :
    firstNamed name token first stop = some number ↔
      type.Between first stop number ∧ sameLetters token (name number) = true := by
  -- The numbers still ahead are among those of the whole way, and so are their names.
  fun_induction firstNamed name token first stop with
  | case1 =>
    constructor
    · exact nofun
    · rintro ⟨⟨hFirst, hStop⟩, -⟩
      exact absurd hStop (Int.not_lt.mpr hFirst)
  | case2 first hOn hSame =>
    have hBelow := value_lt_of_ne hWay hOn
    have hFirst := (between_iff hBelow).mpr (.inl rfl)
    rw [Option.some.injEq]
    constructor
    · rintro rfl
      exact ⟨hFirst, hSame⟩
    · rintro ⟨hNumber, hNamed⟩
      exact hUnique first hFirst hSame number hNumber hNamed
  | case3 first hOn hOther ih =>
    have hBelow := value_lt_of_ne hWay hOn
    have hLater {later : type.Number} (h : type.Between (first + 1) stop later) :
        type.Between first stop later := (between_iff hBelow).mpr (.inr h)
    have hNext : type.value (first + 1) ≤ type.value stop := by
      rw [NumberType.value_add_one hBelow]
      exact hBelow
    rw [ih hNext fun one hOne hNamed other hBetween =>
      hUnique one (hLater hOne) hNamed other (hLater hBetween), between_iff hBelow]
    constructor
    · exact fun h => ⟨.inr h.1, h.2⟩
    · rintro ⟨rfl | hBetween, hNamed⟩
      · exact absurd hNamed hOther
      · exact ⟨hBetween, hNamed⟩

end Walk

/-- In the letters of a name there is something, and it does not begin with a digit. -/
theorem IsName.exists_head {token name : Text} (hName : IsName name)
    (hSame : sameLetters token name = true) : ∃ first ∈ token.head?, first.isDigit = false := by
  obtain ⟨-, first, hFirst, hDigit⟩ := hName
  have hHeads := congrArg List.head? (sameLetters_iff.mp hSame)
  rw [List.head?_map, List.head?_map, hFirst, Option.map_some] at hHeads
  obtain ⟨given, hGiven, hUpper⟩ := Option.map_eq_some_iff.mp hHeads
  refine ⟨given, hGiven, ?_⟩
  rw [← isDigit_toUpper, hUpper, isDigit_toUpper, hDigit]

end Token

namespace Enumeration

variable {type : NumberType} {enumeration : Enumeration type} {token : Text} {number : type.Number}

theorem spells_iff_of_isDigit {first : Char} {rest : Text} (hDigit : first.isDigit = true) :
    enumeration.Spells number (first :: rest) ↔
      enumeration.Has number ∧ ∃ n : Nat, Text.IsNumeral (first :: rest) n ∧
        type.value number = n := by
  constructor
  · intro h
    cases h with
    | byName has same =>
      obtain ⟨_, hFirst, hOther⟩ := (enumeration.isName_name has).exists_head same
      rw [List.head?_cons, Option.mem_some] at hFirst
      simp [hFirst ▸ hDigit] at hOther
    | byNumber has n numeral value => exact ⟨has, n, numeral, value⟩
  · rintro ⟨has, n, numeral, value⟩
    exact .byNumber has n numeral value

theorem spells_iff_of_not_isDigit {first : Char} {rest : Text} (hDigit : first.isDigit = false) :
    enumeration.Spells number (first :: rest) ↔
      enumeration.Has number ∧
        Token.sameLetters (first :: rest) (enumeration.name number) = true := by
  constructor
  · intro h
    cases h with
    | byName has same => exact ⟨has, same⟩
    | byNumber has n numeral value =>
      have hFirst := numeral.isDigit first List.mem_cons_self
      simp [hDigit] at hFirst
  · rintro ⟨has, same⟩
    exact .byName has same

theorem not_spells_nil : ¬ enumeration.Spells number [] := by
  intro h
  cases h with
  | byName has same =>
    obtain ⟨_, hFirst, -⟩ := (enumeration.isName_name has).exists_head same
    cases hFirst
  | byNumber has n numeral value => exact numeral.ne_nil rfl

/-- What is found for a token is what it stands for. -/
theorem value?_eq_some_iff (reader : NumberReader type) (enumeration : Enumeration type)
    (hToken : ∀ c ∈ token, Token.isTokenChar c = true) :
    Token.value? reader enumeration.name enumeration.lowest enumeration.stop token = some number ↔
      enumeration.Spells number token := by
  cases token with
  | nil => simp [Token.value?, not_spells_nil]
  | cons first rest =>
    rw [Token.value?]
    cases hDigit : first.isDigit with
    | true =>
      rw [if_pos rfl, Option.filter_eq_some_iff, reader.read?_eq_some_iff hToken,
        spells_iff_of_isDigit hDigit, decide_eq_true_eq, and_comm]
      rfl
    | false =>
      rw [if_neg Bool.false_ne_true, spells_iff_of_not_isDigit hDigit]
      refine Token.firstNamed_eq_some_iff enumeration.lowest_le_stop ?_
      intro one hOne hNamed other hOther hAlso
      refine enumeration.eq_of_sameLetters hOne hOther ?_
      rw [Token.sameLetters_iff] at hNamed hAlso ⊢
      exact hNamed.symm.trans hAlso

theorem spells_name {number : type.Number} (has : enumeration.Has number) :
    enumeration.Spells number (enumeration.name number) :=
  .byName has (Token.sameLetters_iff.mpr rfl)

section Reading

variable (reader : NumberReader type) (enumeration : Enumeration type) (fallback : type.Number)
  {rest text : Text}

theorem read_of_spells (hFront : Token.Fronts token rest text)
    (hSpells : enumeration.Spells number token) :
    enumeration.read reader fallback text = (number, rest) := by
  have hValue := (value?_eq_some_iff reader enumeration hFront.isTokenChar).mpr hSpells
  rw [read, Token.read, hFront.split_eq]
  simp only [hValue, Option.getD_some]

theorem read_of_not_spells (hFront : Token.Fronts token rest text)
    (hNone : ∀ number, ¬ enumeration.Spells number token) :
    enumeration.read reader fallback text = (fallback, rest) := by
  have hValue : Token.value? reader enumeration.name enumeration.lowest enumeration.stop token =
      none := by
    rw [Option.eq_none_iff_forall_ne_some]
    intro number hNumber
    exact hNone number ((value?_eq_some_iff reader enumeration hFront.isTokenChar).mp hNumber)
  rw [read, Token.read, hFront.split_eq]
  simp only [hValue, Option.getD_none]

end Reading

/-- Of every text exactly the token at its front is read, and nothing but the names of values in any
letter case, and their numbers in decimal digits, is taken for a value. What is printed is read
back. -/
theorem read_accepts_names_and_numerals (reader : NumberReader type)
    (enumeration : Enumeration type) (fallback : type.Number) (text : Text) :
    (∃ token rest, Token.Fronts token rest text ∧
      (enumeration.read reader fallback text).2 = rest ∧
      (∀ number, enumeration.Spells number token →
        (enumeration.read reader fallback text).1 = number) ∧
      ((∀ number, ¬ enumeration.Spells number token) →
        (enumeration.read reader fallback text).1 = fallback)) ∧
    ∀ number rest, enumeration.Has number → (∀ c ∈ rest.head?, Token.isTokenChar c = false) →
      enumeration.read reader fallback (enumeration.name number ++ rest) = (number, rest) := by
  have hFront := Token.fronts_split text
  refine ⟨⟨_, _, hFront, rfl, ?_, ?_⟩, ?_⟩
  · intro number hSpells
    rw [read_of_spells reader enumeration fallback hFront hSpells]
  · intro hNone
    rw [read_of_not_spells reader enumeration fallback hFront hNone]
  · intro number rest has boundary
    have hPrinted : Token.Fronts (enumeration.name number) rest (enumeration.name number ++ rest) :=
      ⟨rfl, (enumeration.isName_name has).1, boundary⟩
    exact read_of_spells reader enumeration fallback hPrinted (spells_name has)

/-- Severities by a name in mixed case and by a number with leading zeros, what is neither of them,
and a name as it is printed. -/
theorem severities_read_from_names_and_numerals :
    let read := Severity.readWithin .info .silent .bound
    read "dEbUg,rest".toList = (.debug, ",rest".toList) ∧
      read "007 2".toList = (.data, " 2".toList) ∧
      read "2x=1".toList = (.info, "=1".toList) ∧
      read (Severity.trace.name ++ ": 9".toList) = (.trace, ": 9".toList) := by
  have hReads := read_accepts_names_and_numerals (.decimal .word64) Severity.enumeration
    Severity.info.level.toBitVec
  have hSeverity {text rest : Text} {severity : Severity}
      (h : Severity.enumeration.read (.decimal .word64) Severity.info.level.toBitVec text =
        (severity.level.toBitVec, rest)) :
      Severity.readWithin .info .silent .bound text = (severity, rest) := by
    rw [Severity.readWithin_bound, h]
  refine ⟨hSeverity ?_, hSeverity ?_, hSeverity ?_, hSeverity ?_⟩
  · obtain ⟨token, rest, hFront, hRest, hValue, -⟩ := (hReads "dEbUg,rest".toList).1
    cases hFront.split_eq.symm.trans (rfl : _ = ("dEbUg".toList, ",rest".toList))
    have hSpells : Severity.enumeration.Spells Severity.debug.level.toBitVec "dEbUg".toList :=
      .byName (by decide) (by decide)
    exact Prod.ext (hValue _ hSpells) hRest
  · obtain ⟨token, rest, hFront, hRest, hValue, -⟩ := (hReads "007 2".toList).1
    cases hFront.split_eq.symm.trans (rfl : _ = ("007".toList, " 2".toList))
    have hSpells : Severity.enumeration.Spells Severity.data.level.toBitVec "007".toList :=
      .byNumber (by decide) 7 ⟨2, rfl⟩ rfl
    exact Prod.ext (hValue _ hSpells) hRest
  · obtain ⟨token, rest, hFront, hRest, -, hOther⟩ := (hReads "2x=1".toList).1
    cases hFront.split_eq.symm.trans (rfl : _ = ("2x".toList, "=1".toList))
    have hNone (number) : ¬ Severity.enumeration.Spells number ['2', 'x'] := by
      intro hSpells
      obtain ⟨-, n, hNumeral, -⟩ := (spells_iff_of_isDigit rfl).mp hSpells
      have hDigit := hNumeral.isDigit 'x' (by simp)
      cases hDigit
    exact Prod.ext (hOther hNone) hRest
  · exact (hReads []).2 Severity.trace.level.toBitVec ": 9".toList (by decide) (by simp; rfl)

end Enumeration

end ByteQueue
