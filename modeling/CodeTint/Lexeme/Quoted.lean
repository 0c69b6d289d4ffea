import CodeTint.Text

/-!
# String literals

A literal is opened by a quote and closed by the same quote, or opened and
closed by three. A backslash escapes the next byte. A literal that may not span
lines ends before the first line feed that is not escaped, and before a carriage
return directly in front of it.
-/

namespace CodeTint

structure Quoted where
  quote : UInt8
  triple : Bool

namespace Quoted

/-- How the literal at the front of the text is opened. -/
def ofFront (tripleQuotes : Bool) (quote : UInt8) (rest : Bytes) : Quoted :=
  ⟨quote, tripleQuotes && quote != Byte.backtick && [quote, quote, quote].isPrefixOf rest⟩

def openLength (literal : Quoted) : Nat :=
  if literal.triple then 3 else 1

def multiline (literal : Quoted) : Bool :=
  literal.triple || literal.quote == Byte.backtick

/-- The bytes that need a closer look. -/
def stops (literal : Quoted) (b : UInt8) : Bool :=
  b == literal.quote || b == Byte.backslash || (!literal.multiline && b == Byte.lineFeed)

/-- Where the part after the opening quotes ends. -/
structure Extent where
  length : Nat
  /-- It ends before a line feed, not after a closing quote or with the text. -/
  beforeLineFeed : Bool

def Extent.after (count : Nat) (extent : Extent) : Extent :=
  ⟨count + extent.length, extent.beforeLineFeed⟩

/-- The extent of the part after the opening quotes. -/
def extent (literal : Quoted) (body : Bytes) : Extent :=
  let plain := (body.takeWhile (!literal.stops ·)).length
  match _ : body.dropWhile (!literal.stops ·) with
  | [] => ⟨body.length, false⟩
  | b :: rest =>
      if b == Byte.backslash then
        (extent literal (rest.drop 1)).after (plain + 1 + (rest.take 1).length)
      else if b == Byte.lineFeed then ⟨plain, true⟩
      else if literal.triple then
        if [literal.quote, literal.quote, literal.quote].isPrefixOf (b :: rest) then ⟨plain + 3, false⟩
        else (extent literal rest).after (plain + 1)
      else ⟨plain + 1, false⟩
termination_by body.length
decreasing_by
  · have shorter := Text.length_lt_of_dropWhile (by assumption)
    simp only [List.length_drop]
    omega
  · exact Text.length_lt_of_dropWhile (by assumption)

/-- The length of the literal at the front of the text. -/
def length (literal : Quoted) (rest : Bytes) : Nat :=
  let body := rest.drop literal.openLength
  let extent := literal.extent body
  if extent.beforeLineFeed && (body.take extent.length).getLast? == some Byte.carriageReturn then
    literal.openLength + (extent.length - 1)
  else literal.openLength + extent.length

theorem openLength_pos (literal : Quoted) : 0 < literal.openLength := by
  unfold openLength
  split <;> decide

theorem length_pos (literal : Quoted) (rest : Bytes) : 0 < literal.length rest := by
  have opened := openLength_pos literal
  unfold length
  dsimp only
  split <;> omega

end Quoted

end CodeTint
