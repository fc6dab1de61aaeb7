import ByteQueue.Text.Number

/-!
Reading a named value from text. The token is the longest run of ASCII letters, digits and
underscores; it names a value by number if it begins with a digit, and else by name in any
letter case. Whatever the token says, exactly the token is read.
-/
namespace ByteQueue

namespace Token

def isTokenChar (char : Char) : Bool := char.isAlphanum || char == '_'

theorem isTokenChar_of_isDigit {char : Char} (h : char.isDigit = true) :
    isTokenChar char = true := by
  simp [isTokenChar, Char.isAlphanum, h]

/-- The token at the front of a text, and the text after it. -/
def split (text : Text) : Text × Text :=
  (text.takeWhile isTokenChar, text.dropWhile isTokenChar)

theorem split_append (text : Text) : (split text).1 ++ (split text).2 = text :=
  List.takeWhile_append_dropWhile

/-- Equality in any mixture of ASCII letter case. -/
def sameLetters (first second : Text) : Bool :=
  first.map Char.toUpper == second.map Char.toUpper

/-- A step towards `stop`, which may go round, comes nearer to it. -/
theorem toNat_sub_add_one_lt {bits : Nat} {first stop : BitVec bits} (h : first ≠ stop) :
    (stop - (first + 1)).toNat < (stop - first).toNat := by
  have hSteps : stop - (first + 1) = stop - first - 1 := by grind
  have hApart : stop - first ≠ 0 := by grind
  have hSome : 0 < (stop - first).toNat := by
    refine Nat.pos_of_ne_zero fun hNone => hApart (BitVec.eq_of_toNat_eq ?_)
    rw [hNone]
    exact BitVec.toNat_zero.symm
  have hBelow := (stop - first).isLt
  have hOne : (1 : BitVec bits).toNat = 1 :=
    (BitVec.toNat_ofNat 1 bits).trans (Nat.mod_eq_of_lt (by omega))
  rw [hSteps, BitVec.toNat_sub_of_le (by rw [BitVec.le_def, hOne]; exact hSome), hOne]
  exact Nat.sub_lt hSome Nat.one_pos

/-- The first number from `first` on, before `stop`, whose name is the token. The walk goes round
in the type of the numbers, so it reaches every `stop`. -/
def firstNamed {bits : Nat} (name : BitVec bits → Text) (token : Text)
    (first stop : BitVec bits) : Option (BitVec bits) :=
  if first = stop then none
  else if sameLetters token (name first) then some first
  else firstNamed name token (first + 1) stop
termination_by (stop - first).toNat
decreasing_by exact toNat_sub_add_one_lt ‹_›

end Token

/-- A way to convert whole texts to numbers of a type. Of tokens it converts the decimal numerals,
exactly, as far as the type has their numbers, and refuses all others. What it makes of signs and
blanks is left open. -/
structure NumberReader (type : NumberType) where
  read? : Text → Option type.Number
  read?_eq_some_iff {token : Text} (h : ∀ c ∈ token, Token.isTokenChar c = true)
    {number : type.Number} :
    read? token = some number ↔ ∃ n : Nat, token.IsNumeral n ∧ type.value number = n

namespace NumberType

variable (type : NumberType)

/-- The number of the type that decimal digits write, if there are digits only and it has one. -/
def ofDigits? (text : Text) : Option type.Number :=
  let number := BitVec.ofNat type.bits (Nat.ofDigitChars 10 text 0)
  if text ≠ [] ∧ text.all Char.isDigit ∧ type.value number = Nat.ofDigitChars 10 text 0 then
    some number
  else none

theorem ofDigits?_eq_some_iff {text : Text} {number : type.Number} :
    type.ofDigits? text = some number ↔ ∃ n : Nat, text.IsNumeral n ∧ type.value number = n := by
  have hAll : text.all Char.isDigit = true ↔ ∀ c ∈ text, c.isDigit = true := List.all_eq_true
  simp only [ofDigits?, hAll, Option.ite_none_right_eq_some, Option.some.injEq]
  constructor
  · rintro ⟨⟨hSome, hDigits, hFits⟩, rfl⟩
    exact ⟨_, Text.isNumeral_iff.mpr ⟨hSome, hDigits, rfl⟩, hFits⟩
  · rintro ⟨n, hNumeral, hValue⟩
    obtain ⟨hSome, hDigits, rfl⟩ := Text.isNumeral_iff.mp hNumeral
    have hNumber := eq_ofNat_of_value hValue
    exact ⟨⟨hSome, hDigits, hNumber ▸ hValue⟩, hNumber.symm⟩

end NumberType

/-- Refuses everything but decimal digits. -/
def NumberReader.decimal (type : NumberType) : NumberReader type where
  read? := type.ofDigits?
  read?_eq_some_iff _ := type.ofDigits?_eq_some_iff

namespace Token

variable {type : NumberType}

/-- The number that a token stands for, among those from `lowest` on and before `stop`. -/
def value? (reader : NumberReader type) (name : type.Number → Text) (lowest stop : type.Number)
    (token : Text) : Option type.Number :=
  match token with
  | [] => none
  | first :: _ =>
    if first.isDigit then (reader.read? token).filter fun number => type.Between lowest stop number
    else firstNamed name token lowest stop

/-- Reads a token, and answers the number it stands for, or `fallback` if there is none,
together with the rest of the text. -/
def read (reader : NumberReader type) (name : type.Number → Text)
    (fallback lowest stop : type.Number) (text : Text) : type.Number × Text :=
  let (token, rest) := split text
  ((value? reader name lowest stop token).getD fallback, rest)

end Token

end ByteQueue
