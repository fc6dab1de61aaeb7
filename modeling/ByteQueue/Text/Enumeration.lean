import ByteQueue.Text.Token

/-!
Enumerations that can be read back from text. Their values are the numbers from a lowest one on and
before another, and each has a name of its own; what a token stands for is said without reading it.
-/
namespace ByteQueue

namespace Token

/-- The token is at the front of the text and does not go on there; the rest follows. -/
structure Fronts (token rest text : Text) : Prop where
  text_eq : text = token ++ rest
  isTokenChar : ∀ c ∈ token, Token.isTokenChar c = true
  boundary : ∀ c ∈ rest.head?, Token.isTokenChar c = false

/-- A name is a token that does not begin with a digit. -/
def IsName (text : Text) : Prop :=
  (∀ c ∈ text, isTokenChar c = true) ∧ ∃ first ∈ text.head?, first.isDigit = false

instance (text : Text) : Decidable (IsName text) :=
  decidable_of_iff (text.all isTokenChar = true ∧ text.head?.any (!·.isDigit) = true) <| by
    simp [IsName, Option.any_eq_true]

end Token

/-- The numbers of consecutive values, and their names. No two names differ in letter case only. -/
structure Enumeration (type : NumberType) where
  name : type.Number → Text
  lowest : type.Number
  /-- The number after the last value. -/
  stop : type.Number
  lowest_le_stop : type.value lowest ≤ type.value stop
  isName_name {number : type.Number} (h : type.Between lowest stop number) :
    Token.IsName (name number)
  eq_of_sameLetters {first second : type.Number} (hFirst : type.Between lowest stop first)
    (hSecond : type.Between lowest stop second)
    (h : Token.sameLetters (name first) (name second) = true) : first = second

namespace Enumeration

variable {type : NumberType}

/-- The number is one of a value. -/
def Has (enumeration : Enumeration type) (number : type.Number) : Prop :=
  type.Between enumeration.lowest enumeration.stop number

instance (enumeration : Enumeration type) (number : type.Number) :
    Decidable (enumeration.Has number) :=
  inferInstanceAs (Decidable (type.Between ..))

/-- A token stands for a value: it is the value's name in any letter case, or its number in decimal
digits. -/
inductive Spells (enumeration : Enumeration type) (number : type.Number) (token : Text) : Prop where
  | byName (has : enumeration.Has number)
      (same : Token.sameLetters token (enumeration.name number) = true)
  | byNumber (has : enumeration.Has number) (n : Nat) (numeral : token.IsNumeral n)
      (value : type.value number = n)

/-- Reads a value, or `fallback` if the token at the front of the text stands for none. -/
def read (enumeration : Enumeration type) (reader : NumberReader type) (fallback : type.Number)
    (text : Text) : type.Number × Text :=
  Token.read reader enumeration.name fallback enumeration.lowest enumeration.stop text

end Enumeration

end ByteQueue
