import CodeTint.Byte

/-!
# Numbers

A number has an optional radix mark, digits, at most one fraction, at most one
exponent and a suffix of letters, digits and underscores. A dot belongs to it
only before a digit, so that a range or a member access keeps its operator.
-/

namespace CodeTint

inductive Radix
  | binary
  | octal
  | decimal
  | hexadecimal
  deriving DecidableEq, Repr

namespace Radix

/-- The radix with this base, and decimal for any other number. -/
def ofBase : Nat → Radix
  | 2 => binary
  | 8 => octal
  | 16 => hexadecimal
  | _ => decimal

def isDigit : Radix → UInt8 → Bool
  | binary, b => b == 0x30 || b == 0x31
  | octal, b => 0x30 ≤ b && b ≤ 0x37
  | decimal, b => Byte.isDigit b
  | hexadecimal, b => Byte.isHexDigit b

/-- The radix that a zero and a letter at the front select. -/
def ofFront : Bytes → Radix
  | zero :: letter :: _ =>
      if zero != 0x30 then decimal
      else if Byte.isAmong "xX" letter then hexadecimal
      else if Byte.isAmong "oO" letter then octal
      else if Byte.isAmong "bB" letter then binary
      else decimal
  | _ => decimal

def markLength : Radix → Nat
  | decimal => 0
  | _ => 2

def hasFraction : Radix → Bool
  | decimal | hexadecimal => true
  | _ => false

/-- The letters that introduce an exponent. -/
def isExponentMark : Radix → UInt8 → Bool
  | decimal, b => Byte.isAmong "eE" b
  | hexadecimal, b => Byte.isAmong "pP" b
  | _, _ => false

end Radix

namespace Number

/-- The length of the digits and underscores at the front. -/
def digitsLength (radix : Radix) (rest : Bytes) : Nat :=
  (rest.takeWhile fun b => radix.isDigit b || b == Byte.underscore).length

/-- The length of a dot with the digits after it. -/
def fractionLength (radix : Radix) : Bytes → Nat
  | dot :: digit :: rest =>
      if radix.hasFraction && dot == Byte.dot && radix.isDigit digit then
        1 + digitsLength radix (digit :: rest)
      else 0
  | _ => 0

def signLength : Bytes → Nat
  | b :: _ => if Byte.isAmong "+-" b then 1 else 0
  | [] => 0

/-- The length of an exponent mark with its sign and digits. -/
def exponentLength (radix : Radix) : Bytes → Nat
  | mark :: rest =>
      let digits := rest.drop (signLength rest)
      if radix.isExponentMark mark && digits.head?.any Byte.isDigit then
        1 + signLength rest + digitsLength .decimal digits
      else 0
  | [] => 0

def suffixLength (rest : Bytes) : Nat :=
  (rest.takeWhile Byte.isSuffix).length

/-- A number starts here; after an operand a dot is a member access. -/
def starts (afterOperand : Bool) : Bytes → Bool
  | b :: rest => Byte.isDigit b || (b == Byte.dot && !afterOperand && rest.head?.any Byte.isDigit)
  | [] => false

/-- The length of the number at the front of the text. -/
def length (rest : Bytes) : Nat :=
  let radix := Radix.ofFront rest
  let whole := radix.markLength + digitsLength radix (rest.drop radix.markLength)
  let fraction := whole + fractionLength radix (rest.drop whole)
  let exponent := fraction + exponentLength radix (rest.drop fraction)
  exponent + suffixLength (rest.drop exponent)

theorem digitsLength_pos {radix : Radix} {b : UInt8} {rest : Bytes}
    (digit : radix.isDigit b = true) : 0 < digitsLength radix (b :: rest) := by
  simp [digitsLength, digit]

theorem ofFront_dot (rest : Bytes) : Radix.ofFront (Byte.dot :: rest) = .decimal := by
  cases rest with
  | nil => rfl
  | cons b rest => rfl

theorem length_pos {afterOperand : Bool} {rest : Bytes}
    (number : starts afterOperand rest = true) : 0 < length rest := by
  match rest, number with
  | b :: rest, number =>
      simp only [starts, Bool.or_eq_true, Bool.and_eq_true] at number
      have whole_le : ∀ whole, whole = (Radix.ofFront (b :: rest)).markLength +
          digitsLength (Radix.ofFront (b :: rest))
            ((b :: rest).drop (Radix.ofFront (b :: rest)).markLength) →
          whole + fractionLength (Radix.ofFront (b :: rest)) ((b :: rest).drop whole) ≤
            length (b :: rest) := by
        rintro whole rfl
        unfold length
        dsimp only
        omega
      have bound := whole_le _ rfl
      cases number with
      | inl digit =>
          cases radix : Radix.ofFront (b :: rest) with
          | decimal =>
              rw [radix] at bound
              have run : 0 < digitsLength .decimal (b :: rest) := digitsLength_pos digit
              simp only [Radix.markLength, List.drop_zero] at bound
              omega
          | binary | octal | hexadecimal =>
              rw [radix] at bound
              simp only [Radix.markLength] at bound
              omega
      | inr dotted =>
          obtain ⟨⟨dot, _⟩, digit⟩ := dotted
          obtain rfl := eq_of_beq dot
          obtain ⟨d, more, rfl⟩ : ∃ d more, rest = d :: more := by
            cases rest with
            | nil => simp at digit
            | cons d more => exact ⟨d, more, rfl⟩
          rw [ofFront_dot] at bound
          have none : digitsLength .decimal (Byte.dot :: d :: more) = 0 := rfl
          simp only [Radix.markLength, List.drop_zero, none, Nat.zero_add] at bound
          have first : Radix.decimal.isDigit d = true := by simpa [Radix.isDigit] using digit
          have fraction : fractionLength .decimal (Byte.dot :: d :: more) =
              1 + digitsLength .decimal (d :: more) := by
            simp [fractionLength, Radix.hasFraction, first]
          omega

end Number

end CodeTint
