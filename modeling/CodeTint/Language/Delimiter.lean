import CodeTint.Text

/-!
# Delimiters

Operators and comment marks are spelled by non-empty texts. A delimiter keeps
its bytes together with the fact that they spell such a text.
-/

namespace CodeTint

structure Delimiter where
  bytes : Bytes
  spelled : ∃ text : List Char, text ≠ [] ∧ bytes = Utf8.encode text

namespace Delimiter

def ofText (c : Char) (rest : List Char) : Delimiter :=
  ⟨Utf8.encode (c :: rest), c :: rest, List.cons_ne_nil _ _, rfl⟩

/-- The delimiter a string spells, unless the string is empty. -/
def ofString? (text : String) : Option Delimiter :=
  match text.toList with
  | [] => none
  | c :: rest => some (ofText c rest)

/-- The delimiter a string spells at the start of a line, with the line feed before it. -/
def afterLineFeed (text : String) : Delimiter :=
  ofText '\n' text.toList

def length (delimiter : Delimiter) : Nat :=
  delimiter.bytes.length

theorem length_pos (delimiter : Delimiter) : 0 < delimiter.length := by
  obtain ⟨bytes, text, nonempty, rfl⟩ := delimiter
  obtain ⟨c, rest, rfl⟩ := List.exists_cons_of_ne_nil nonempty
  have width := Char.utf8Size_pos c
  simp only [length, Utf8.encode, List.flatMap_cons, List.length_append,
    String.length_utf8EncodeChar]
  omega

/-- The delimiter stands at the front of the text. -/
def opens (rest : Bytes) (delimiter : Delimiter) : Bool :=
  delimiter.bytes.isPrefixOf rest

/-- Longer delimiters first; those of one length keep their order. -/
def longestFirst (delimiters : List Delimiter) : List Delimiter :=
  delimiters.mergeSort fun left right => right.length ≤ left.length

theorem mem_longestFirst {delimiters : List Delimiter} {delimiter : Delimiter} :
    delimiter ∈ longestFirst delimiters ↔ delimiter ∈ delimiters :=
  List.mem_mergeSort

end Delimiter

end CodeTint
