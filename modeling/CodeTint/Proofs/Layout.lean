import CodeTint.Proofs.JsonText
import Mathlib.Data.List.Chain

/-!
# Settings documents as laid out JSON

A settings document is a sequence of JSON symbols with trivia between them: white
space, comments, and commas before closing brackets that JSON does not have.
`Derives` is the grammar of JSON together with the places where such a comma may
stand, and `Layout` is a way to write symbols with trivia between them. Cleaning a
layout leaves the symbols of the document, spread over white space.
-/

namespace CodeTint.Jsonc

open Document (piecesFrom cleanPieces closesNext Prepends)

/-! ## Comments -/

theorem first_slash {context : Context} {bs : Bytes} {lexeme : Lexeme}
    (found : Lexeme.comment? Document.language context.lineStart (0x2F :: bs) = some lexeme) :
    Lexeme.first Document.language context 0x2F bs = lexeme := by
  refine (Lexeme.Leads.comment ?_ ?_ found).first_eq
  · exact Document.startsWith_isWhiteSpace (by decide) bs
  · exact Document.isQuote_eq 0x2F

theorem piecesFrom_line {body rest : Bytes} (unbroken : ∀ b ∈ body, Byte.isLineBreak b = false)
    (ends : ∀ b ∈ rest.head?, Byte.isLineBreak b = true) (afterOperand : Bool) :
    piecesFrom afterOperand (0x2F :: (0x2F :: body) ++ rest) =
      ⟨.comment, 0x2F :: 0x2F :: body⟩ :: piecesFrom afterOperand rest := by
  have line : Document.lineMark.opens (0x2F :: (0x2F :: body ++ rest)) = true := rfl
  have block : Document.blockRule.opening.opens (0x2F :: (0x2F :: body ++ rest)) = false := rfl
  have length : Comment.lineLength Document.lineMark (0x2F :: (0x2F :: body ++ rest)) =
      (0x2F :: 0x2F :: body).length := by
    have run : (body ++ rest).takeWhile (!Byte.isLineBreak ·) = body := by
      rw [takeWhile_append_of_other (fun b member => by rw [ends b member]; rfl),
        List.takeWhile_eq_self_iff.mpr (fun b member => by rw [unbroken b member]; rfl)]
    change 2 + ((body ++ rest).takeWhile (!Byte.isLineBreak ·)).length = _
    rw [run, List.length_cons, List.length_cons, Nat.add_comm]
  refine Document.piecesFrom_append (first_slash ?_)
  rw [Document.comment?_eq, block, line, length]
  rfl

theorem piecesFrom_block {body rest : Bytes}
    (closed : Bytes.offsetOf? [0x2A, 0x2F] (body ++ 0x2A :: 0x2F :: rest) = some body.length)
    (afterOperand : Bool) :
    piecesFrom afterOperand (0x2F :: (0x2A :: (body ++ [0x2A, 0x2F])) ++ rest) =
      ⟨.comment, 0x2F :: 0x2A :: (body ++ [0x2A, 0x2F])⟩ :: piecesFrom afterOperand rest := by
  have block : Document.blockRule.opening.opens (0x2F :: (0x2A :: (body ++ [0x2A, 0x2F]) ++ rest)) = true := rfl
  have length : Comment.blockLength Document.blockRule (0x2F :: (0x2A :: (body ++ [0x2A, 0x2F]) ++ rest)) =
      (0x2F :: 0x2A :: (body ++ [0x2A, 0x2F])).length := by
    have found : Bytes.offsetOf? Document.blockRule.closing.bytes
        ((0x2F :: (0x2A :: (body ++ [0x2A, 0x2F]) ++ rest)).drop Document.blockRule.opening.length) =
          some body.length := by
      change Bytes.offsetOf? [0x2A, 0x2F] ((body ++ [0x2A, 0x2F]) ++ rest) = _
      rw [List.append_assoc]
      exact closed
    unfold Comment.blockLength
    dsimp only
    rw [found]
    change 2 + body.length + 2 = _
    simp only [List.length_cons, List.length_append, List.length_nil]
    omega
  refine Document.piecesFrom_append (first_slash ?_)
  rw [Document.comment?_eq, block, length]
  rfl

/-- Bytes that do not start the needle are passed over. -/
theorem offsetOf?_append_of_other {n : UInt8} {needle front : Bytes} (other : ∀ b ∈ front, b ≠ n)
    (rest : Bytes) :
    Bytes.offsetOf? (n :: needle) (front ++ rest) =
      (Bytes.offsetOf? (n :: needle) rest).map (front.length + ·) := by
  induction front with
  | nil =>
      have unmoved : ((List.length ([] : Bytes)) + ·) = id := funext Nat.zero_add
      rw [List.nil_append, unmoved, Option.map_id, id]
  | cons b front ih =>
      rw [List.forall_mem_cons] at other
      have differ : (n :: needle).isPrefixOf (b :: (front ++ rest)) = false := by
        rw [List.isPrefixOf_cons_cons, beq_eq_false_iff_ne.mpr (Ne.symm other.1), Bool.false_and]
      rw [List.cons_append, Bytes.offsetOf?, differ, if_neg Bool.false_ne_true, ih other.2, Option.map_map]
      congr 1
      funext offset
      change front.length + offset + 1 = front.length + 1 + offset
      omega

theorem encodeChar_ne {c d : Char} (ascii : d.toNat < 0x80) (other : c ≠ d) :
    ∀ b ∈ String.utf8EncodeChar c, b ≠ Byte.ofChar d := by
  rintro b member rfl
  have code : (Byte.ofChar d).toNat = d.toNat := Utf8.toNat_byte (Nat.lt_trans ascii (by decide))
  have same := (Utf8.sequence_encodeChar c).toNat_of_mem member (by omega)
  exact other (Char.toNat_inj.mp (same.trans code))

/-- The first closing delimiter behind a comment without one is the one that ends it. -/
theorem offsetOf?_closing {body : List Char} (inner : ¬['*', '/'] <:+: body) (rest : Bytes) :
    Bytes.offsetOf? [0x2A, 0x2F] (Utf8.encode body ++ 0x2A :: 0x2F :: rest) =
      some (Utf8.encode body).length := by
  induction body with
  | nil => rfl
  | cons c body ih =>
      have later : ¬['*', '/'] <:+: body := fun inside => inner (inside.trans (List.infix_cons (List.infix_refl body)))
      by_cases star : c = '*'
      · subst star
        have apart : ([0x2A, 0x2F] : Bytes).isPrefixOf
            (0x2A :: (Utf8.encode body ++ 0x2A :: 0x2F :: rest)) = false := by
          cases body with
          | nil => rfl
          | cons d body =>
              have slash : d ≠ '/' := by
                rintro rfl
                exact inner ⟨[], body, rfl⟩
              obtain ⟨lead, tail, shape, _⟩ := (Utf8.sequence_encodeChar d).lead_tail
              have other : lead ≠ 0x2F :=
                encodeChar_ne (d := '/') (by decide) slash lead (by rw [shape]; exact List.mem_cons_self)
              rw [Utf8.encode_cons, shape, List.cons_append, List.cons_append, List.isPrefixOf_cons_cons,
                List.isPrefixOf_cons_cons, beq_eq_false_iff_ne.mpr (Ne.symm other)]
              rfl
        rw [Utf8.encode_cons_ascii (by decide), List.cons_append]
        change Bytes.offsetOf? _ (0x2A :: _) = _
        rw [Bytes.offsetOf?, apart, if_neg Bool.false_ne_true, ih later]
        rfl
      · have other : ∀ b ∈ String.utf8EncodeChar c, b ≠ 0x2A := encodeChar_ne (d := '*') (by decide) star
        rw [Utf8.encode_cons, List.append_assoc, offsetOf?_append_of_other other, ih later, Option.map_some,
          List.length_append]

/-! ## Trivia -/

/-- The text of a line comment, which has no line end in it. -/
structure Remark where
  body : List Char
  unbroken : ∀ c ∈ body, c ≠ '\n' ∧ c ≠ '\r'

def Remark.text (remark : Remark) : List Char :=
  '/' :: '/' :: remark.body

/-- What may stand between symbols. -/
inductive Trivia
  | blank (c : Char) (isBlank : JsonToken.isBlank c = true)
  | line (remark : Remark) (ending : Char) (ends : ending = '\n' ∨ ending = '\r')
  | block (body : List Char) (closed : ¬['*', '/'] <:+: body)

namespace Trivia

def text : Trivia → List Char
  | blank c _ => [c]
  | line remark ending _ => remark.text ++ [ending]
  | block body _ => '/' :: '*' :: (body ++ ['*', '/'])

/-- The white space that is left of it without the comment. -/
def blanks : Trivia → List Char
  | blank c _ => [c]
  | line _ ending _ => [ending]
  | block _ _ => []

def isComment : Trivia → Bool
  | blank _ _ => false
  | line _ _ _ | block _ _ => true

theorem isBlank_of_mem_blanks (trivia : Trivia) : ∀ c ∈ trivia.blanks, JsonToken.isBlank c = true := by
  intro c member
  cases trivia with
  | blank d isBlank =>
      rw [List.mem_singleton.mp member]
      exact isBlank
  | line remark ending ends =>
      rw [List.mem_singleton.mp member]
      rcases ends with rfl | rfl <;> rfl
  | block body closed => cases member

end Trivia

theorem isWhiteSpace_of_isBlank {c : Char} (blank : JsonToken.isBlank c = true) :
    Unicode.isWhiteSpace c = true := by
  simp only [JsonToken.isBlank, Bool.or_eq_true, beq_iff_eq] at blank
  rcases blank with ((rfl | rfl) | rfl) | rfl <;> decide

theorem Remark.isLineBreak_of_mem (remark : Remark) :
    ∀ b ∈ Utf8.encode remark.body, Byte.isLineBreak b = false := by
  intro b member
  obtain ⟨c, listed, inside⟩ := List.mem_flatMap.mp member
  obtain ⟨feed, back⟩ := remark.unbroken c listed
  rw [Byte.isLineBreak_eq_false_iff]
  exact ⟨encodeChar_ne (d := '\n') (by decide) feed b inside, encodeChar_ne (d := '\r') (by decide) back b inside⟩

theorem Remark.encode_text (remark : Remark) :
    Utf8.encode remark.text = 0x2F :: 0x2F :: Utf8.encode remark.body :=
  rfl

theorem prepends_blanks {c : Char} (blank : JsonToken.isBlank c = true) (afterOperand : Bool) (rest : Bytes) :
    Prepends (Utf8.encode [c]) (piecesFrom afterOperand (Utf8.encode [c] ++ rest))
      (piecesFrom afterOperand rest) := by
  have single : Utf8.encode [c] = String.utf8EncodeChar c := List.flatMap_singleton ..
  rw [single]
  exact Document.prepends_blank (isWhiteSpace_of_isBlank blank) (Utf8.sequence_encodeChar c) afterOperand rest

/-- Cleaning leaves the white space of trivia. -/
theorem Trivia.prepends (trivia : Trivia) (afterOperand : Bool) (rest : Bytes) :
    Prepends (Utf8.encode trivia.blanks) (piecesFrom afterOperand (Utf8.encode trivia.text ++ rest))
      (piecesFrom afterOperand rest) := by
  cases trivia with
  | blank c isBlank => exact prepends_blanks isBlank afterOperand rest
  | line remark ending ends =>
      have isBlank : JsonToken.isBlank ending = true := by rcases ends with rfl | rfl <;> rfl
      have breaks : ∀ b ∈ (Utf8.encode [ending] ++ rest).head?, Byte.isLineBreak b = true := by
        intro b member
        rcases ends with rfl | rfl <;> cases member <;> rfl
      rw [Trivia.text, Utf8.encode_append, remark.encode_text, List.append_assoc]
      rw [piecesFrom_line remark.isLineBreak_of_mem breaks]
      exact (Prepends.comment _ _).trans (prepends_blanks isBlank afterOperand rest)
  | block body closed =>
      have text : Utf8.encode (block body closed).text =
          0x2F :: 0x2A :: (Utf8.encode body ++ [0x2A, 0x2F]) := by
        change 0x2F :: 0x2A :: Utf8.encode (body ++ ['*', '/']) = _
        rw [Utf8.encode_append]
        rfl
      rw [text, piecesFrom_block (offsetOf?_closing closed rest)]
      exact Prepends.comment _ _

/-! ## Layouts -/

inductive Part
  | gap (trivia : Trivia)
  | symbol (symbol : Symbol)

namespace Part

def text : Part → List Char
  | .gap trivia => trivia.text
  | .symbol s => s.text

def symbol? : Part → Option Symbol
  | .gap _ => none
  | .symbol s => some s

def isComment : Part → Bool
  | .gap trivia => trivia.isComment
  | .symbol _ => false

end Part

/-- Symbols with trivia before, between and behind them. -/
structure Layout where
  parts : List Part
  /-- A line comment that ends with the text. -/
  remark : Option Remark

namespace Layout

def text (layout : Layout) : List Char :=
  layout.parts.flatMap Part.text ++ layout.remark.elim [] Remark.text

def symbols (layout : Layout) : List Symbol :=
  layout.parts.filterMap Part.symbol?

def hasComment (layout : Layout) : Bool :=
  layout.parts.any Part.isComment || layout.remark.isSome

end Layout

/-- The first symbol is a closing bracket. -/
def closesFirst (symbols : List Symbol) : Bool :=
  symbols.head?.any Symbol.isClosing

/-- The text without comments and without commas before closing brackets. -/
def withoutTrivia : List Part → List Char
  | [] => []
  | .gap trivia :: parts => trivia.blanks ++ withoutTrivia parts
  | .symbol symbol :: parts =>
      (if symbol.isComma && closesFirst (parts.filterMap Part.symbol?) then [] else symbol.text) ++
        withoutTrivia parts

/-- Only one of two neighbours is a scalar. -/
def Apart (first second : Symbol) : Prop :=
  ¬(first.isScalar = true ∧ second.isScalar = true)

theorem Symbol.endsWord_text {symbol : Symbol} (structural : symbol.isScalar = false) (rest : Bytes) :
    (Utf8.encode symbol.text ++ rest).EndsWord := by
  cases symbol with
  | string | number | truth | null => cases structural
  | openBrace | closeBrace | openBracket | closeBracket | colon | comma =>
      exact Bytes.endsWord_cons (by decide) _

theorem Trivia.endsWord_text (trivia : Trivia) (rest : Bytes) :
    (Utf8.encode trivia.text ++ rest).EndsWord := by
  cases trivia with
  | blank c isBlank =>
      simp only [JsonToken.isBlank, Bool.or_eq_true, beq_iff_eq] at isBlank
      rcases isBlank with ((rfl | rfl) | rfl) | rfl <;> exact Bytes.endsWord_cons (by decide) _
  | line | block => exact Bytes.endsWord_cons (by decide) _

/-- No word goes on into a layout that starts with another symbol than a scalar. -/
theorem endsWord_parts {parts : List Part} {rest : Bytes} (last : rest.EndsWord)
    (structural : ∀ symbol ∈ (parts.filterMap Part.symbol?).head?, symbol.isScalar = false) :
    (Utf8.encode (parts.flatMap Part.text) ++ rest).EndsWord := by
  cases parts with
  | nil => exact last
  | cons part parts =>
      rw [List.flatMap_cons, Utf8.encode_append, List.append_assoc]
      cases part with
      | gap trivia => exact trivia.endsWord_text _
      | symbol symbol => exact Symbol.endsWord_text (structural symbol rfl) _

/-- Cleaning a layout removes its comments and the commas before closing brackets. -/
theorem clean_parts (parts : List Part) {rest : Bytes} (last : rest.EndsWord)
    (bare : ∀ operand, cleanPieces (piecesFrom operand rest) = [] ∧ closesNext (piecesFrom operand rest) = false)
    (apart : (parts.filterMap Part.symbol?).IsChain Apart) (afterOperand : Bool) :
    cleanPieces (piecesFrom afterOperand (Utf8.encode (parts.flatMap Part.text) ++ rest)) =
        Utf8.encode (withoutTrivia parts) ∧
      closesNext (piecesFrom afterOperand (Utf8.encode (parts.flatMap Part.text) ++ rest)) =
        closesFirst (parts.filterMap Part.symbol?) := by
  induction parts generalizing afterOperand with
  | nil => exact bare afterOperand
  | cons part parts ih =>
      rw [List.flatMap_cons, Utf8.encode_append, List.append_assoc]
      cases part with
      | gap trivia =>
          have prepends := trivia.prepends afterOperand (Utf8.encode (parts.flatMap Part.text) ++ rest)
          obtain ⟨cleaned, closes⟩ := ih apart afterOperand
          refine ⟨?_, prepends.closes.trans closes⟩
          rw [withoutTrivia, Utf8.encode_append, ← cleaned]
          exact prepends.cleaned
      | symbol symbol =>
          obtain ⟨neighbour, chain⟩ := List.isChain_cons.mp apart
          have ends : symbol.isScalar = true →
              (Utf8.encode (parts.flatMap Part.text) ++ rest).EndsWord := by
            intro scalar
            refine endsWord_parts last fun next member => ?_
            rw [Bool.eq_false_iff]
            exact fun both => neighbour next member ⟨scalar, both⟩
          obtain ⟨operand, leads⟩ := leads_symbol symbol ends afterOperand
          obtain ⟨cleaned, closes⟩ := ih chain operand
          refine ⟨?_, leads.closes⟩
          have here := leads.cleaned
          rw [cleaned, closes] at here
          rw [withoutTrivia, Utf8.encode_append]
          refine here.trans ?_
          split <;> rfl

/-! ## Documents -/

inductive Phrase
  | value
  | elements
  | members

/-- The grammar of JSON, over the symbols of a document and those of the document with one comma more
behind the last element of any of its arrays and objects that are not empty. -/
inductive Derives : Phrase → List Symbol → List Symbol → Prop
  | scalar {symbol : Symbol} (isScalar : symbol.isScalar = true) : Derives .value [symbol] [symbol]
  | emptyArray : Derives .value [.openBracket, .closeBracket] [.openBracket, .closeBracket]
  | array {plain loose extra : List Symbol} (elements : Derives .elements plain loose)
      (trailing : extra = [] ∨ extra = [.comma]) :
      Derives .value (.openBracket :: (plain ++ [.closeBracket]))
        (.openBracket :: (loose ++ (extra ++ [.closeBracket])))
  | emptyObject : Derives .value [.openBrace, .closeBrace] [.openBrace, .closeBrace]
  | object {plain loose extra : List Symbol} (members : Derives .members plain loose)
      (trailing : extra = [] ∨ extra = [.comma]) :
      Derives .value (.openBrace :: (plain ++ [.closeBrace]))
        (.openBrace :: (loose ++ (extra ++ [.closeBrace])))
  | element {plain loose : List Symbol} (value : Derives .value plain loose) : Derives .elements plain loose
  | elements {plain loose plain' loose' : List Symbol} (value : Derives .value plain loose)
      (rest : Derives .elements plain' loose') :
      Derives .elements (plain ++ .comma :: plain') (loose ++ .comma :: loose')
  | member {key : List Char} {plain loose : List Symbol} (valid : Body key)
      (value : Derives .value plain loose) :
      Derives .members (.string key valid :: .colon :: plain) (.string key valid :: .colon :: loose)
  | members {key : List Char} {plain loose plain' loose' : List Symbol} (valid : Body key)
      (value : Derives .value plain loose) (rest : Derives .members plain' loose') :
      Derives .members (.string key valid :: .colon :: (plain ++ .comma :: plain'))
        (.string key valid :: .colon :: (loose ++ .comma :: loose'))

/-- The symbols without the commas before closing brackets. -/
def withoutTrailing : List Symbol → List Symbol
  | [] => []
  | symbol :: rest =>
      if symbol.isComma && closesFirst rest then withoutTrailing rest else symbol :: withoutTrailing rest

namespace Derives

variable {phrase : Phrase} {plain loose : List Symbol}

theorem head_loose (derives : Derives phrase plain loose) :
    ∃ symbol more, loose = symbol :: more ∧ symbol.isClosing = false := by
  induction derives with
  | scalar isScalar =>
      refine ⟨_, _, rfl, ?_⟩
      rename_i symbol
      cases symbol <;> first | rfl | cases isScalar
  | emptyArray | array | emptyObject | object | member | members => exact ⟨_, _, rfl, rfl⟩
  | element value ih => exact ih
  | elements value rest ih _ =>
      obtain ⟨symbol, more, same, opens⟩ := ih
      exact ⟨symbol, more ++ _, by rw [same]; rfl, opens⟩

theorem closesFirst_append (derives : Derives phrase plain loose) (rest : List Symbol) :
    closesFirst (loose ++ rest) = false := by
  obtain ⟨symbol, more, rfl, opens⟩ := derives.head_loose
  exact opens

/-- Commas before closing brackets are those that the document does not have. -/
theorem withoutTrailing_append (derives : Derives phrase plain loose) (rest : List Symbol) :
    withoutTrailing (loose ++ rest) = plain ++ withoutTrailing rest := by
  have closed {bracket : Symbol} {extra : List Symbol} (closing : bracket.isClosing = true)
      (trailing : extra = [] ∨ extra = [.comma]) (rest : List Symbol) :
      withoutTrailing (extra ++ [bracket] ++ rest) = bracket :: withoutTrailing rest := by
    have here : withoutTrailing (bracket :: rest) = bracket :: withoutTrailing rest := by
      cases bracket <;> first | rfl | cases closing
    rcases trailing with rfl | rfl
    · exact here
    · rw [← here]
      change (if true && bracket.isClosing then _ else _) = _
      rw [closing]
      rfl
  have between {loose' : List Symbol} {rest : List Symbol} (opens : closesFirst (loose' ++ rest) = false) :
      withoutTrailing (.comma :: (loose' ++ rest)) = .comma :: withoutTrailing (loose' ++ rest) := by
    rw [withoutTrailing, opens]
    rfl
  induction derives generalizing rest with
  | scalar isScalar =>
      rename_i symbol
      cases symbol <;> first | rfl | cases isScalar
  | emptyArray | emptyObject => rfl
  | array elements trailing ih =>
      change .openBracket :: withoutTrailing (_ ++ (_ ++ [Symbol.closeBracket]) ++ rest) = _
      rw [List.append_assoc, ih, closed rfl trailing, List.cons_append, List.append_assoc]
      rfl
  | object members trailing ih =>
      change .openBrace :: withoutTrailing (_ ++ (_ ++ [Symbol.closeBrace]) ++ rest) = _
      rw [List.append_assoc, ih, closed rfl trailing, List.cons_append, List.append_assoc]
      rfl
  | element value ih => exact ih rest
  | elements value more ih later =>
      rw [List.append_assoc, List.cons_append, ih, between (more.closesFirst_append rest), later,
        List.append_assoc]
      rfl
  | member valid value ih =>
      change .string _ valid :: .colon :: withoutTrailing (_ ++ rest) = _
      rw [ih]
      rfl
  | members valid value more ih later =>
      change .string _ valid :: .colon :: withoutTrailing (_ ++ Symbol.comma :: _ ++ rest) = _
      rw [List.append_assoc, List.cons_append, ih, between (more.closesFirst_append rest), later,
        List.cons_append, List.cons_append, List.append_assoc]
      rfl

theorem withoutTrailing_eq (derives : Derives phrase plain loose) : withoutTrailing loose = plain := by
  have whole := derives.withoutTrailing_append []
  rwa [List.append_nil, withoutTrailing, List.append_nil] at whole

theorem isChain_cons {symbol : Symbol} {rest : List Symbol} (structural : symbol.isScalar = false)
    (chain : rest.IsChain Apart) : (symbol :: rest).IsChain Apart := by
  refine chain.cons fun next _ both => ?_
  rw [structural] at both
  cases both.1

/-- No two scalars are neighbours, with or without the commas. -/
theorem isChain_append (derives : Derives phrase plain loose) {rest : List Symbol}
    (chain : rest.IsChain Apart) (structural : ∀ symbol ∈ rest.head?, symbol.isScalar = false) :
    (loose ++ rest).IsChain Apart := by
  have closed (bracket : Symbol) (closing : bracket.isClosing = true) {extra rest : List Symbol}
      (trailing : extra = [] ∨ extra = [.comma]) (chain : rest.IsChain Apart) :
      (extra ++ [bracket] ++ rest).IsChain Apart ∧
        ∀ symbol ∈ (extra ++ [bracket] ++ rest).head?, symbol.isScalar = false := by
    have plain : bracket.isScalar = false := by
      cases bracket <;> first | rfl | cases closing
    have here : (bracket :: rest).IsChain Apart := isChain_cons plain chain
    rcases trailing with rfl | rfl
    · exact ⟨here, fun symbol member => by cases member; exact plain⟩
    · exact ⟨isChain_cons rfl here, fun symbol member => by cases member; rfl⟩
  have comma {symbol : Symbol} {rest : List Symbol} (member : symbol ∈ (Symbol.comma :: rest).head?) :
      symbol.isScalar = false := by
    cases member
    rfl
  induction derives generalizing rest with
  | scalar isScalar =>
      refine chain.cons fun next member both => ?_
      rw [structural next member] at both
      cases both.2
  | emptyArray | emptyObject => exact isChain_cons rfl (isChain_cons rfl chain)
  | array elements trailing ih =>
      obtain ⟨later, first⟩ := closed .closeBracket rfl trailing chain
      have inner := ih later first
      rw [← List.append_assoc] at inner
      exact isChain_cons rfl inner
  | object members trailing ih =>
      obtain ⟨later, first⟩ := closed .closeBrace rfl trailing chain
      have inner := ih later first
      rw [← List.append_assoc] at inner
      exact isChain_cons rfl inner
  | element value ih => exact ih chain structural
  | elements value more ih later =>
      rw [List.append_assoc]
      exact ih (isChain_cons rfl (later chain structural)) fun symbol => comma
  | member valid value ih =>
      have inner : (Symbol.colon :: (_ ++ rest)).IsChain Apart := isChain_cons rfl (ih chain structural)
      refine inner.cons fun next member both => ?_
      cases member
      cases both.2
  | members valid value more ih later =>
      have values := ih (isChain_cons rfl (later chain structural)) fun symbol => comma
      rw [← List.cons_append, ← List.append_assoc] at values
      refine (isChain_cons rfl values).cons fun next member both => ?_
      cases member
      cases both.2

theorem isChain (derives : Derives phrase plain loose) : loose.IsChain Apart := by
  have whole := derives.isChain_append .nil fun symbol member => by cases member
  rwa [List.append_nil] at whole

end Derives

/-- The texts of the symbols in order, with nothing but white space before, between and behind them. -/
inductive Spread : List Symbol → List Char → Prop
  | nil {blanks : List Char} (blank : ∀ c ∈ blanks, JsonToken.isBlank c = true) : Spread [] blanks
  | cons {blanks text : List Char} {symbol : Symbol} {symbols : List Symbol}
      (blank : ∀ c ∈ blanks, JsonToken.isBlank c = true) (rest : Spread symbols text) :
      Spread (symbol :: symbols) (blanks ++ (symbol.text ++ text))

theorem Spread.blanks_append {symbols : List Symbol} {text blanks : List Char} (spread : Spread symbols text)
    (blank : ∀ c ∈ blanks, JsonToken.isBlank c = true) : Spread symbols (blanks ++ text) := by
  cases spread with
  | nil inner => exact .nil (List.forall_mem_append.mpr ⟨blank, inner⟩)
  | cons inner rest =>
      rw [← List.append_assoc]
      exact .cons (List.forall_mem_append.mpr ⟨blank, inner⟩) rest

theorem spread_withoutTrivia (parts : List Part) :
    Spread (withoutTrailing (parts.filterMap Part.symbol?)) (withoutTrivia parts) := by
  have none : ∀ c ∈ ([] : List Char), JsonToken.isBlank c = true := fun c member => by cases member
  induction parts with
  | nil => exact .nil none
  | cons part parts ih =>
      cases part with
      | gap trivia => exact ih.blanks_append trivia.isBlank_of_mem_blanks
      | symbol symbol =>
          change Spread (withoutTrailing (symbol :: parts.filterMap Part.symbol?)) _
          rw [withoutTrailing, withoutTrivia]
          split
          · exact ih
          · exact .cons none ih

theorem length_withoutTrailing_le (symbols : List Symbol) :
    (withoutTrailing symbols).length ≤ symbols.length := by
  induction symbols with
  | nil => exact Nat.le_refl 0
  | cons symbol symbols ih =>
      rw [withoutTrailing]
      split
      · exact Nat.le_succ_of_le ih
      · exact Nat.succ_le_succ ih

/-- Where there is nothing to remove, the text stays as it is. -/
theorem withoutTrivia_eq_text {parts : List Part} (bare : parts.any Part.isComment = false)
    (strict : withoutTrailing (parts.filterMap Part.symbol?) = parts.filterMap Part.symbol?) :
    withoutTrivia parts = parts.flatMap Part.text := by
  induction parts with
  | nil => rfl
  | cons part parts ih =>
      rw [List.any_cons, Bool.or_eq_false_iff] at bare
      cases part with
      | gap trivia =>
          have same : trivia.blanks = trivia.text := by
            cases trivia with
            | blank c isBlank => rfl
            | line | block => cases bare.1
          rw [withoutTrivia, same, ih bare.2 strict]
          rfl
      | symbol symbol =>
          change withoutTrailing (symbol :: parts.filterMap Part.symbol?) =
            symbol :: parts.filterMap Part.symbol? at strict
          rw [withoutTrailing] at strict
          rw [withoutTrivia]
          split at strict
          · have shorter := length_withoutTrailing_le (parts.filterMap Part.symbol?)
            rw [strict, List.length_cons] at shorter
            omega
          · rename_i kept
            rw [if_neg kept, ih bare.2 (List.cons.inj strict).2]
            rfl

/-- Cleaning a document of any layout, with a comma more behind the last element of any arrays and
objects, leaves its symbols in order with white space between them; a layout without comments and
without such commas is left as it is. -/
theorem clean_layout {plain : List Symbol} {layout : Layout} (document : Derives .value plain layout.symbols) :
    ∃ cleaned,
      Document.clean (Utf8.encode layout.text) = Utf8.encode cleaned ∧
      Utf8.decodeLossy (Document.clean (Utf8.encode layout.text)) = cleaned ∧
      Spread plain cleaned ∧
      (layout.hasComment = false → layout.symbols = plain → cleaned = layout.text) := by
  obtain ⟨parts, remark⟩ := layout
  have cleaned : Document.clean (Utf8.encode (Layout.text ⟨parts, remark⟩)) =
      Utf8.encode (withoutTrivia parts) := by
    rw [Document.clean_eq, Layout.text, Utf8.encode_append]
    cases remark with
    | none =>
        refine (clean_parts parts Bytes.endsWord_nil (fun operand => ?_) document.isChain false).1
        rw [Document.piecesFrom_nil]
        exact ⟨rfl, rfl⟩
    | some remark =>
        refine (clean_parts parts (Bytes.endsWord_cons (by decide) _) (fun operand => ?_) document.isChain
          false).1
        have line : piecesFrom operand (0x2F :: (0x2F :: Utf8.encode remark.body) ++ []) = _ :=
          piecesFrom_line remark.isLineBreak_of_mem (fun b member => by cases member) operand
        rw [List.append_nil, Document.piecesFrom_nil] at line
        change cleanPieces (piecesFrom operand (0x2F :: 0x2F :: Utf8.encode remark.body)) = [] ∧
          closesNext (piecesFrom operand (0x2F :: 0x2F :: Utf8.encode remark.body)) = false
        rw [line]
        exact ⟨rfl, rfl⟩
  have strict : withoutTrailing (parts.filterMap Part.symbol?) = plain := document.withoutTrailing_eq
  refine ⟨withoutTrivia parts, cleaned, ?_, ?_, ?_⟩
  · rw [cleaned, Utf8.decodeLossy_encode]
  · rw [← strict]
    exact spread_withoutTrivia parts
  · intro bare same
    rw [Layout.hasComment, Bool.or_eq_false_iff] at bare
    cases remark with
    | none =>
        rw [withoutTrivia_eq_text bare.1 (strict.trans same.symm)]
        exact (List.append_nil _).symm
    | some remark => cases bare.2

theorem body_slashes : Body ['/', '/'] :=
  .plain (by decide) (by decide) (by decide) (.plain (by decide) (by decide) (by decide) .nil)

/-- A list of two with a bracket in a comment, slashes in a string and a comma too many. -/
theorem clean_layout_list :
    ∃ cleaned,
      Document.clean (Utf8.encode "[null,/*]*/\"//\",]//".toList) = Utf8.encode cleaned ∧
      Spread [.openBracket, .null, .comma, .string ['/', '/'] body_slashes, .closeBracket] cleaned := by
  have document : Derives .value
      [.openBracket, .null, .comma, .string ['/', '/'] body_slashes, .closeBracket]
      (Layout.symbols ⟨[.symbol .openBracket, .symbol .null, .symbol .comma, .gap (.block [']'] (by decide)),
        .symbol (.string ['/', '/'] body_slashes), .symbol .comma, .symbol .closeBracket],
        some ⟨[], fun c member => by cases member⟩⟩) :=
    .array (.elements (.scalar rfl) (.element (.scalar rfl))) (.inr rfl)
  obtain ⟨cleaned, bytes, _, spread, _⟩ := clean_layout document
  exact ⟨cleaned, bytes, spread⟩

end CodeTint.Jsonc
