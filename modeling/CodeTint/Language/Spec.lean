/-!
# Language descriptions

A language is data: the scanner runs the same rules for every language and only
consults the lists of its description.
-/

namespace CodeTint

structure BlockComment where
  opening : String
  closing : String
  /-- Both delimiters count only at the start of a line. -/
  lineStart : Bool := false
  deriving DecidableEq, Repr

structure Spec where
  name : String
  aliases : List String := []
  /-- File extensions without the leading dot. -/
  extensions : List String := []
  keywords : List String := []
  /-- Operators in any order; the longest one that fits is taken. -/
  operators : List String := []
  lineComments : List String := []
  blockComments : List BlockComment := []
  /-- Characters that open and close a string literal. -/
  quotes : String := "'\"`"
  /-- Three quotes open a literal that three quotes close. -/
  tripleQuotes : Bool := false
  ignoreCase : Bool := false
  deriving DecidableEq, Repr

end CodeTint
