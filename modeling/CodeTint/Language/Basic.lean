import CodeTint.Language.Delimiter
import CodeTint.Language.Spec

/-!
# Compiled languages

A language holds the tables the scanner consults, longest delimiters first, so
that the first one that fits is the longest one that fits.
-/

namespace CodeTint

structure BlockRule where
  opening : Delimiter
  /-- With the line feed it has to follow, if the rule holds at line starts only. -/
  closing : Delimiter
  lineStart : Bool

namespace BlockRule

/-- The rule of a pair, unless one of its delimiters is empty. -/
def ofPair? (pair : BlockComment) : Option BlockRule :=
  match Delimiter.ofString? pair.opening, Delimiter.ofString? pair.closing with
  | some opening, some closing =>
      some ⟨opening, if pair.lineStart then .afterLineFeed pair.closing else closing, pair.lineStart⟩
  | _, _ => none

def longestFirst (rules : List BlockRule) : List BlockRule :=
  rules.mergeSort fun left right => right.opening.length ≤ left.opening.length

end BlockRule

structure Language where
  name : String
  keywords : List Bytes
  /-- Keywords are kept in lower case and compared with the lexeme in lower case. -/
  ignoreCase : Bool
  operators : List Delimiter
  lineComments : List Delimiter
  blockComments : List BlockRule
  quotes : List UInt8
  tripleQuotes : Bool
  /-- Letters and digits never open a literal. -/
  quotes_punctuation : ∀ quote ∈ quotes, Byte.isPunctuation quote = true

namespace Language

/-- The bytes of a keyword in the form in which it is compared. -/
def keywordBytes (ignoreCase : Bool) (keyword : String) : Bytes :=
  if ignoreCase then (Text.bytes keyword).map Byte.lower else Text.bytes keyword

def keywordsOf (spec : Spec) : List Bytes :=
  (spec.keywords.filter fun keyword => !keyword.isEmpty).map (keywordBytes spec.ignoreCase)

/-- The operators that some byte can start. -/
def operatorsOf (spec : Spec) : List Delimiter :=
  (spec.operators.filterMap Delimiter.ofString?).filter fun operator =>
    operator.bytes.head?.any Byte.isMark

def quotesOf (text : String) : List UInt8 :=
  (Text.bytes text).filter Byte.isPunctuation

theorem quotesOf_punctuation (text : String) :
    ∀ quote ∈ quotesOf text, Byte.isPunctuation quote = true := by
  intro quote member
  exact (List.mem_filter.mp member).2

def ofSpec (spec : Spec) : Language where
  name := Text.normalize spec.name
  keywords := (keywordsOf spec).eraseDups
  ignoreCase := spec.ignoreCase
  operators := Delimiter.longestFirst (operatorsOf spec)
  lineComments := Delimiter.longestFirst (spec.lineComments.filterMap Delimiter.ofString?)
  blockComments := BlockRule.longestFirst (spec.blockComments.filterMap BlockRule.ofPair?)
  quotes := quotesOf spec.quotes
  tripleQuotes := spec.tripleQuotes
  quotes_punctuation := quotesOf_punctuation spec.quotes

/-- The union of the keywords and operators of several languages, with the most
common comments and quotes. -/
def merged (name : String) (specs : List Spec) : Language where
  name := name
  keywords := (specs.flatMap keywordsOf).eraseDups
  ignoreCase := false
  operators := Delimiter.longestFirst (specs.flatMap operatorsOf)
  lineComments := [.ofText '/' ['/'], .ofText '#' []]
  blockComments := [⟨.ofText '/' ['*'], .ofText '*' ['/'], false⟩]
  quotes := quotesOf "'\"`"
  tripleQuotes := true
  quotes_punctuation := quotesOf_punctuation "'\"`"

def isKeyword (language : Language) (lexeme : Bytes) : Bool :=
  language.keywords.contains (if language.ignoreCase then lexeme.map Byte.lower else lexeme)

def isQuote (language : Language) (b : UInt8) : Bool :=
  language.quotes.contains b

def maxOperatorLength (language : Language) : Nat :=
  (language.operators.map Delimiter.length).foldl max 0

/-- The longest operator at the front of the text. -/
def operator? (language : Language) (rest : Bytes) : Option Delimiter :=
  language.operators.find? (Delimiter.opens rest)

/-- The longest line comment mark at the front of the text. -/
def lineComment? (language : Language) (rest : Bytes) : Option Delimiter :=
  language.lineComments.find? (Delimiter.opens rest)

/-- The block comment with the longest opening at the front of the text, among
those allowed there. -/
def blockComment? (language : Language) (atLineStart : Bool) (rest : Bytes) : Option BlockRule :=
  language.blockComments.find? fun rule =>
    (atLineStart || !rule.lineStart) && rule.opening.opens rest

/-- A line starts at this offset. -/
def isLineStart (source : Bytes) (offset : Nat) : Bool :=
  offset == 0 || source[offset - 1]? == some Byte.lineFeed

def operatorAt? (language : Language) (source : Bytes) (offset : Nat) : Option Delimiter :=
  language.operator? (source.drop offset)

def lineCommentAt? (language : Language) (source : Bytes) (offset : Nat) : Option Delimiter :=
  language.lineComment? (source.drop offset)

def blockCommentAt? (language : Language) (source : Bytes) (offset : Nat) : Option BlockRule :=
  language.blockComment? (isLineStart source offset) (source.drop offset)

end Language

end CodeTint
