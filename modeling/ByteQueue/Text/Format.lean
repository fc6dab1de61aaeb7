import ByteQueue.Text.Basic

/-!
Formatted printing. A `Format` is the state that decides how the next item looks: base,
alignment, fill, a pending width, some switches, and how floating-point numbers are written.
Printing an item yields its text and the format for the items after it: manipulators change the
format, and everything that is printed uses up the pending width, whether or not it was wide enough
to be padded.
-/
namespace ByteQueue

/-- The base in which integers are printed. -/
inductive Base where
  | decimal | hexadecimal | octal
  deriving DecidableEq, Repr

def Base.radix : Base → Nat
  | .decimal => 10
  | .hexadecimal => 16
  | .octal => 8

/-- Where a text that is narrower than the pending width stands. `internal` puts the fill
between the sign or hexadecimal mark of a number and its digits, and otherwise acts as `right`. -/
inductive Align where
  | left | right | internal
  deriving DecidableEq, Repr

/-- How floating-point numbers are written: as is best for the number, in one of two notations, or
with the digits of base sixteen. -/
inductive Notation where
  | general | fixed | scientific | hexadecimal
  deriving DecidableEq, Repr

/-- How the next item is printed. -/
structure Format where
  base : Base := .decimal
  align : Align := .right
  /-- Non-zero hexadecimal numbers begin with `0x`, non-zero octal ones with `0`. -/
  showBase : Bool := false
  /-- Digits and the mark of hexadecimal numbers are upper-case letters. -/
  upperCase : Bool := false
  /-- Decimal signed numbers that are not negative begin with `+`. -/
  showSign : Bool := false
  /-- Floating-point numbers always show a decimal point. -/
  showPoint : Bool := false
  /-- Truth values are printed as words. -/
  words : Bool := false
  floating : Notation := .general
  /-- The digits that a floating-point number is written with. -/
  precision : Nat := 6
  fill : Char := ' '
  /-- The least width of the next item; it holds for that item only. -/
  width : Nat := 0
  deriving DecidableEq, Repr

/-- A change of the format. Each switch can be turned on and off. -/
inductive Manipulator where
  | base (base : Base)
  | align (align : Align)
  | showBase (on : Bool := true)
  | upperCase (on : Bool := true)
  | showSign (on : Bool := true)
  | showPoint (on : Bool := true)
  | words (on : Bool := true)
  | floating (style : Notation)
  | precision (digits : Nat)
  | fill (char : Char)
  | width (width : Nat)
  /-- Leaves the format alone; it asks the stream to pass on what it holds. -/
  | flush
  deriving DecidableEq, Repr

/-- One insertion into a stream. Unsigned numbers of fewer bits are printed as those of 64. -/
inductive Item where
  | text (text : Text)
  | char (char : Char)
  | signed (value : Int64)
  | signed32 (value : Int32)
  | unsigned (value : UInt64)
  | truth (value : Bool)
  | change (manipulator : Manipulator)
  /-- A value of any other type, a floating-point number for instance. What is inserted is up to
  the type: the text may depend on the format, and the format may be another one afterwards. -/
  | other (insert : Format → Text × Format)

/-- Whether an item only asks the stream to pass on what it holds. -/
def Item.isFlush : Item → Bool
  | .change .flush => true
  | _ => false

namespace Format

/-- Digits in the current base and letter case. -/
def digits (f : Format) (n : Nat) : Text :=
  let plain := Nat.toDigits f.base.radix n
  if f.upperCase then plain.map Char.toUpper else plain

/-- Fills up `lead ++ body` to the pending width. -/
def padded (f : Format) (lead body : Text) : Text :=
  let gap := List.replicate (f.width - (Text.width lead + Text.width body)) f.fill
  match f.align with
  | .left => lead ++ body ++ gap
  | .right => gap ++ lead ++ body
  | .internal => lead ++ gap ++ body

/-- The mark of the base, which is part of the digits for octal numbers. -/
def unsigned (f : Format) (value : UInt64) : Text :=
  let body := f.digits value.toNat
  if f.showBase && value != 0 then
    match f.base with
    | .decimal => f.padded [] body
    | .hexadecimal => f.padded ['0', if f.upperCase then 'X' else 'x'] body
    | .octal => f.padded [] ('0' :: body)
  else f.padded [] body

/-- Signs exist in base ten only; in the other bases a negative number is printed as the two's
complement that it has in its type. -/
def signed (f : Format) (value : Int) (complement : UInt64) : Text :=
  if f.base = .decimal then
    f.padded (if value < 0 then ['-'] else if f.showSign then ['+'] else [])
      (f.digits value.natAbs)
  else f.unsigned complement

def truth (f : Format) (value : Bool) : Text :=
  if f.words then f.padded [] (if value then "true".toList else "false".toList)
  else f.signed (if value then 1 else 0) (if value then 1 else 0)

def apply (f : Format) : Manipulator → Format
  | .base base => { f with base := base }
  | .align align => { f with align := align }
  | .showBase on => { f with showBase := on }
  | .upperCase on => { f with upperCase := on }
  | .showSign on => { f with showSign := on }
  | .showPoint on => { f with showPoint := on }
  | .words on => { f with words := on }
  | .floating style => { f with floating := style }
  | .precision digits => { f with precision := digits }
  | .fill char => { f with fill := char }
  | .width width => { f with width := width }
  | .flush => f

/-- The flags of another format, which are all but precision, fill and width. -/
def withFlags (f other : Format) : Format :=
  { other with precision := f.precision, fill := f.fill, width := f.width }

/-- Prints one item: its text, and the format for what follows. -/
def print (f : Format) : Item → Text × Format
  | .text text => (f.padded [] text, { f with width := 0 })
  | .char char => (f.padded [] [char], { f with width := 0 })
  | .signed value => (f.signed value.toInt value.toUInt64, { f with width := 0 })
  | .signed32 value => (f.signed value.toInt value.toUInt32.toUInt64, { f with width := 0 })
  | .unsigned value => (f.unsigned value, { f with width := 0 })
  | .truth value => (f.truth value, { f with width := 0 })
  | .change manipulator => ([], f.apply manipulator)
  | .other insert => insert f

/-- Prints items one after the other. -/
def printAll (f : Format) : List Item → Text × Format
  | [] => ([], f)
  | item :: rest =>
    let (first, g) := f.print item
    let (second, h) := g.printAll rest
    (first ++ second, h)

theorem printAll_append (f : Format) (first second : List Item) :
    f.printAll (first ++ second) =
      ((f.printAll first).1 ++ ((f.printAll first).2.printAll second).1,
        ((f.printAll first).2.printAll second).2) := by
  induction first generalizing f with
  | nil => simp [printAll]
  | cons item rest ih => simp [printAll, ih]

end Format

/-- The text of the items on a fresh stream. -/
def Text.ofItems (items : List Item) : Text := (({} : Format).printAll items).1

end ByteQueue
