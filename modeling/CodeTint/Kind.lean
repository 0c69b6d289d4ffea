import CodeTint.Text

/-!
# Token kinds

Every byte of a scanned source belongs to a token of exactly one kind. A kind
is written by its name in classes, settings and JSON.
-/

namespace CodeTint

inductive Kind
  | whitespace
  | comment
  | string
  | number
  | keyword
  | operator
  | ident
  | punctuation
  | plaintext
  deriving DecidableEq, Repr

namespace Kind

/-- Every kind, in the order in which styles are listed. -/
def all : List Kind :=
  [.whitespace, .comment, .string, .number, .keyword, .operator, .ident, .punctuation, .plaintext]

theorem mem_all (kind : Kind) : kind ∈ all := by
  cases kind <;> decide

def name : Kind → String
  | whitespace => "whitespace"
  | comment => "comment"
  | string => "string"
  | number => "number"
  | keyword => "keyword"
  | operator => "operator"
  | ident => "ident"
  | punctuation => "punctuation"
  | plaintext => "plaintext"

/-- The kind with exactly this name. -/
def ofName? (name : String) : Option Kind :=
  all.find? fun kind => kind.name == name

theorem ofName?_name (kind : Kind) : ofName? kind.name = some kind := by
  cases kind <;> decide

/-- The kind a setting names, in any case and with white space around it. -/
def parse? (text : String) : Option Kind :=
  ofName? (Text.normalize text)

/-- Trivia leave the look-back of the scan as it was. -/
def isTrivia : Kind → Bool
  | whitespace | comment => true
  | _ => false

theorem isTrivia_iff {kind : Kind} : kind.isTrivia = true ↔ kind = .whitespace ∨ kind = .comment := by
  cases kind <;> decide

end Kind

end CodeTint
