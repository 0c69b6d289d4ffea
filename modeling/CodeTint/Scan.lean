import CodeTint.Lexeme.Basic
import CodeTint.Language.Registry
import CodeTint.Token

/-!
# Scanning

A cursor stands in front of the bytes not yet read and remembers what the next
lexeme depends on. Each step cuts the first lexeme off, so the rest gets shorter
and the scan ends; no input is refused.
-/

namespace CodeTint

structure Cursor where
  offset : Nat
  rest : Bytes
  /-- The offset is 0 or the byte before it is a line feed. -/
  lineStart : Bool
  /-- The kind of the last token that is not trivia. -/
  lastSignificant : Option Kind
  /-- That token can end an operand, so that a dot after it is a member access. -/
  afterOperand : Bool

/-- Keywords after which an expression starts. -/
def expressionKeywords : List Bytes :=
  ["and", "await", "case", "do", "echo", "else", "in", "not", "of", "or", "print", "return",
    "select", "then", "throw", "when", "where", "yield"].map Text.bytes

def isExpressionKeyword (text : Bytes) : Bool :=
  expressionKeywords.contains (text.map Byte.lower)

/-- A token of this kind and text can end an operand. -/
def endsOperand (kind : Kind) (text : Bytes) : Bool :=
  match kind with
  | .ident | .number | .string => true
  | .keyword => !isExpressionKeyword text
  | .punctuation => text.getLast?.any Byte.isClosingBracket
  | _ => false

namespace Cursor

def start (source : Bytes) : Cursor :=
  ⟨0, source, true, none, false⟩

def context (cursor : Cursor) : Context :=
  ⟨cursor.afterOperand, cursor.lineStart⟩

/-- The cursor behind a lexeme. -/
def advance (cursor : Cursor) (lexeme : Lexeme) : Cursor :=
  let text := cursor.rest.take lexeme.length
  { offset := cursor.offset + lexeme.length
    rest := cursor.rest.drop lexeme.length
    lineStart := Bytes.endsLine text
    lastSignificant := if lexeme.kind.isTrivia then cursor.lastSignificant else some lexeme.kind
    afterOperand :=
      if lexeme.kind.isTrivia then cursor.afterOperand else endsOperand lexeme.kind text }

/-- The next token and the cursor behind it, unless all is read. -/
def next? (language : Language) (cursor : Cursor) : Option (Token × Cursor) :=
  match cursor.rest with
  | [] => none
  | b :: bs =>
      let lexeme := Lexeme.first language cursor.context b bs
      some (⟨lexeme.kind, cursor.offset, cursor.offset + lexeme.length⟩, cursor.advance lexeme)

theorem next?_shorter {language : Language} {cursor after : Cursor} {token : Token}
    (found : cursor.next? language = some (token, after)) :
    after.rest.length < cursor.rest.length := by
  unfold next? at found
  split at found
  · cases found
  · rename_i b bs here
    have progress := Lexeme.first_length_pos language cursor.context b bs
    cases found
    simp only [advance, here, List.length_drop, List.length_cons]
    omega

/-- Every token from the cursor on, each with the cursor behind it. -/
def run (language : Language) (cursor : Cursor) : List (Token × Cursor) :=
  match _ : cursor.next? language with
  | none => []
  | some (token, after) => (token, after) :: run language after
termination_by cursor.rest.length
decreasing_by exact next?_shorter (by assumption)

end Cursor

/-- The tokens of a source. -/
def scan (language : Language) (source : Bytes) : List Token :=
  ((Cursor.start source).run language).map Prod.fst

/-- The tokens of a source whose language is not known. -/
def scanDefault (source : Bytes) : List Token :=
  scan Registry.builtin.default source

end CodeTint
