/-!
# Bytes and their classes

Source text is a list of bytes and need not be well-formed UTF-8. The classes
below are the ASCII part of the lexical rules; no byte above `0x7F` is in any
of them.
-/

namespace CodeTint

abbrev Bytes := List UInt8

namespace Byte

def lineFeed : UInt8 := 0x0A

def carriageReturn : UInt8 := 0x0D

def backslash : UInt8 := 0x5C

def backtick : UInt8 := 0x60

def dot : UInt8 := 0x2E

def underscore : UInt8 := 0x5F

/-- The byte of an ASCII character. -/
def ofChar (c : Char) : UInt8 := UInt8.ofNat c.toNat

/-- The byte is one of the ASCII characters of `text`. -/
def isAmong (text : String) (b : UInt8) : Bool :=
  text.toList.any fun c => ofChar c == b

def isBlank (b : UInt8) : Bool :=
  b == 0x20 || (0x09 ≤ b && b ≤ 0x0D)

def isLineBreak (b : UInt8) : Bool :=
  b == lineFeed || b == carriageReturn

theorem isLineBreak_iff {b : UInt8} : isLineBreak b = true ↔ b = lineFeed ∨ b = carriageReturn := by
  rw [isLineBreak, Bool.or_eq_true, beq_iff_eq, beq_iff_eq]

theorem isLineBreak_eq_false_iff {b : UInt8} : isLineBreak b = false ↔ b ≠ lineFeed ∧ b ≠ carriageReturn := by
  rw [Bool.eq_false_iff, ne_eq, isLineBreak_iff, not_or]

def isDigit (b : UInt8) : Bool :=
  0x30 ≤ b && b ≤ 0x39

def isLetter (b : UInt8) : Bool :=
  (0x41 ≤ b && b ≤ 0x5A) || (0x61 ≤ b && b ≤ 0x7A)

def isHexDigit (b : UInt8) : Bool :=
  isDigit b || (0x41 ≤ b && b ≤ 0x46) || (0x61 ≤ b && b ≤ 0x66)

def isIdentStart (b : UInt8) : Bool :=
  isLetter b || b == underscore || b == 0x24

def isIdentContinue (b : UInt8) : Bool :=
  isIdentStart b || isDigit b

/-- Letters, digits and underscores, which may follow the digits of a number. -/
def isSuffix (b : UInt8) : Bool :=
  isLetter b || isDigit b || b == underscore

/-- Bytes that may begin an operator. -/
def isOperator (b : UInt8) : Bool :=
  isAmong "+-*/%=<>!&|^~?:.@" b

/-- Brackets and separators. -/
def isSeparator (b : UInt8) : Bool :=
  isAmong "()[]\x7b\x7d;,#\\" b

/-- An operator may start here, and a lone mark is punctuation. -/
def isMark (b : UInt8) : Bool :=
  isOperator b || isSeparator b

/-- A closing bracket ends an operand. -/
def isClosingBracket (b : UInt8) : Bool :=
  b == 0x29 || b == 0x5D || b == 0x7D

/-- The ASCII characters that are neither letters, digits, blanks nor controls. -/
def isPunctuation (b : UInt8) : Bool :=
  0x21 ≤ b && b ≤ 0x7E && !isLetter b && !isDigit b

/-- Upper case letters become lower case; every other byte stays. -/
def lower (b : UInt8) : UInt8 :=
  if 0x41 ≤ b && b ≤ 0x5A then b + 0x20 else b

end Byte

namespace Bytes

/-- The first place in the text where `needle` occurs. -/
def offsetOf? (needle : Bytes) : Bytes → Option Nat
  | [] => if needle.isEmpty then some 0 else none
  | b :: rest =>
      if needle.isPrefixOf (b :: rest) then some 0
      else (offsetOf? needle rest).map (· + 1)

/-- The last byte is a line feed; an empty text ends no line. -/
def endsLine (text : Bytes) : Bool :=
  text.getLast? == some Byte.lineFeed

end Bytes

end CodeTint
