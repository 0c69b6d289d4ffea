import CodeTint.Lexeme.Comment
import CodeTint.Lexeme.Number
import CodeTint.Lexeme.Quoted
import CodeTint.Kind
import CodeTint.Unicode.Identifier

/-!
# Lexemes

The first lexeme of a text is decided by its first byte, in a fixed order: white
space, string literal, comment, number, identifier, operator or punctuation, and
plain text for the rest. Of what stands before the text only two facts matter:
whether an operand has just ended, and whether a line starts here.
-/

namespace CodeTint

/-- What the scan knows of the text before a lexeme. -/
structure Context where
  afterOperand : Bool
  lineStart : Bool
  deriving DecidableEq, Repr

structure Lexeme where
  kind : Kind
  length : Nat
  deriving DecidableEq, Repr

namespace Lexeme

open Unicode (isWhiteSpace isXidStart isXidContinue)

def isIdentStart (c : Char) : Bool :=
  isXidStart c || c == '_' || c == '$'

def isIdentContinue (c : Char) : Bool :=
  isXidContinue c || c == '$'

theorem isIdentContinue_of_isIdentStart {c : Char} (starts : isIdentStart c = true) :
    isIdentContinue c = true := by
  simp only [isIdentStart, Bool.or_eq_true, beq_iff_eq] at starts
  rcases starts with (letter | rfl) | rfl
  · simp [isIdentContinue, Unicode.isXidContinue_of_isXidStart letter]
  · simp [isIdentContinue, isXidContinue]
  · simp [isIdentContinue]

/-- The identifier or keyword at the front of the text. -/
def identifier (language : Language) (rest : Bytes) : Lexeme :=
  let length := Utf8.runLength isIdentContinue rest
  ⟨if language.isKeyword (rest.take length) then .keyword else .ident, length⟩

/-- The operator at the front of the text, or its first byte as punctuation. -/
def mark (language : Language) (rest : Bytes) : Lexeme :=
  match language.operator? rest with
  | some operator => ⟨.operator, operator.length⟩
  | none => ⟨.punctuation, 1⟩

/-- The comment at the front of the text, a block comment before a line comment. -/
def comment? (language : Language) (lineStart : Bool) (rest : Bytes) : Option Lexeme :=
  match language.blockComment? lineStart rest with
  | some rule => some ⟨.comment, Comment.blockLength rule rest⟩
  | none =>
      (language.lineComment? rest).map fun delimiter => ⟨.comment, Comment.lineLength delimiter rest⟩

/-- The first lexeme of a text that starts with the byte `b`. -/
def first (language : Language) (context : Context) (b : UInt8) (bs : Bytes) : Lexeme :=
  let rest := b :: bs
  if Utf8.startsWith isWhiteSpace rest then ⟨.whitespace, Utf8.runLength isWhiteSpace rest⟩
  else if language.isQuote b then
    ⟨.string, (Quoted.ofFront language.tripleQuotes b rest).length rest⟩
  else
    match comment? language context.lineStart rest with
    | some comment => comment
    | none =>
        if Number.starts context.afterOperand rest then ⟨.number, Number.length rest⟩
        else if Utf8.startsWith isIdentStart rest then identifier language rest
        else if Byte.isMark b then mark language rest
        else ⟨.plaintext, Utf8.width rest⟩

theorem startsWith_isIdentContinue {rest : Bytes}
    (starts : Utf8.startsWith isIdentStart rest = true) :
    Utf8.startsWith isIdentContinue rest = true := by
  unfold Utf8.startsWith at starts ⊢
  split at starts
  · exact isIdentContinue_of_isIdentStart starts
  · cases starts

theorem comment?_length_pos {language : Language} {lineStart : Bool} {rest : Bytes} {lexeme : Lexeme}
    (found : comment? language lineStart rest = some lexeme) : 0 < lexeme.length := by
  unfold comment? at found
  split at found
  · cases found
    exact Comment.blockLength_pos _ _
  · obtain ⟨delimiter, _, rfl⟩ := Option.map_eq_some_iff.mp found
    exact Comment.lineLength_pos _ _

/-- Every lexeme takes at least one byte. -/
theorem first_length_pos (language : Language) (context : Context) (b : UInt8) (bs : Bytes) :
    0 < (first language context b bs).length := by
  unfold first
  dsimp only
  split
  · rename_i blank
    exact Utf8.runLength_pos blank
  · split
    · exact Quoted.length_pos _ _
    · split
      · rename_i found
        exact comment?_length_pos found
      · split
        · rename_i number
          exact Number.length_pos number
        · split
          · rename_i starts
            exact Utf8.runLength_pos (startsWith_isIdentContinue starts)
          · split
            · unfold mark
              split
              · exact Delimiter.length_pos _
              · exact Nat.one_pos
            · exact Utf8.width_pos _

end Lexeme

end CodeTint
