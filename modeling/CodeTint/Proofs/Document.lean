import CodeTint.Config.Document
import CodeTint.Proofs.Indexed
import CodeTint.Proofs.Literal
import CodeTint.Proofs.Pieces
import CodeTint.Proofs.WordEnd

/-!
# How settings documents are cut into pieces

The table of settings documents has one quote, one line comment and one block
comment, and nothing else. So only two bytes open a comment, every mark is a piece
of its own, and what stands before a text matters to it only where it starts with
a dot. White space and comments before a text add to what cleaning leaves of it
and change nothing behind them: `Prepends` says so.
-/

namespace CodeTint.Document

open Unicode (isWhiteSpace)

/-! ## The table -/

def lineMark : Delimiter :=
  .ofText '/' ['/']

def blockRule : BlockRule :=
  ⟨.ofText '/' ['*'], .ofText '*' ['/'], false⟩

theorem lineComments_eq : language.lineComments = [lineMark] := by
  have spelled : ["//"].filterMap Delimiter.ofString? = [lineMark] := rfl
  unfold language Language.ofSpec
  dsimp only
  rw [spelled]
  exact List.mergeSort_singleton lineMark

theorem blockComments_eq : language.blockComments = [blockRule] := by
  have spelled : Builtin.starComments.filterMap BlockRule.ofPair? = [blockRule] := rfl
  unfold language Language.ofSpec
  dsimp only
  rw [spelled]
  exact List.mergeSort_singleton blockRule

theorem isQuote_eq (b : UInt8) : language.isQuote b = (b == 0x22) := by
  have quotes : language.quotes = [0x22] := by decide +kernel
  rw [Language.isQuote, quotes, List.contains_cons, List.contains_nil, Bool.or_false]

theorem mark_eq (rest : Bytes) : Lexeme.mark language rest = ⟨.punctuation, 1⟩ := by
  have operators : language.operators = [] := List.mergeSort_nil
  rw [Lexeme.mark, Language.operator?, operators]
  rfl

theorem identifier_eq (rest : Bytes) :
    Lexeme.identifier language rest = ⟨.ident, Utf8.runLength Lexeme.isIdentContinue rest⟩ :=
  rfl

/-- A comment starts here. -/
def opensComment (rest : Bytes) : Bool :=
  blockRule.opening.opens rest || lineMark.opens rest

theorem opensComment_cons (b c : UInt8) (rest : Bytes) :
    opensComment (b :: c :: rest) = (b == 0x2F && (c == 0x2A || c == 0x2F)) := by
  have opens (d : UInt8) : [0x2F, d].isPrefixOf (b :: c :: rest) = (b == 0x2F && c == d) := by
    simp only [List.isPrefixOf_cons_cons, List.isPrefixOf_nil_left, Bool.and_true]
    rw [Bool.beq_comm, Bool.beq_comm (a := d)]
  have block : blockRule.opening.opens (b :: c :: rest) = (b == 0x2F && c == 0x2A) := opens 0x2A
  have line : lineMark.opens (b :: c :: rest) = (b == 0x2F && c == 0x2F) := opens 0x2F
  rw [opensComment, block, line, Bool.and_or_distrib_left]

theorem opensComment_singleton (b : UInt8) : opensComment [b] = false := by
  have opens (d : UInt8) : [0x2F, d].isPrefixOf [b] = false := by
    rw [List.isPrefixOf_cons_cons]
    exact Bool.and_false _
  exact Bool.or_eq_false_iff.mpr ⟨opens 0x2A, opens 0x2F⟩

theorem comment?_eq (lineStart : Bool) (rest : Bytes) :
    Lexeme.comment? language lineStart rest =
      if blockRule.opening.opens rest then some ⟨.comment, Comment.blockLength blockRule rest⟩
      else if lineMark.opens rest then some ⟨.comment, Comment.lineLength lineMark rest⟩
      else none := by
  have allowed : (lineStart || !blockRule.lineStart) = true := Bool.or_true lineStart
  rw [Lexeme.comment?, Language.blockComment?, blockComments_eq, Language.lineComment?, lineComments_eq,
    List.find?_cons, allowed, Bool.true_and]
  cases blockRule.opening.opens rest with
  | true => rfl
  | false =>
      rw [List.find?_nil, List.find?_cons]
      cases lineMark.opens rest with
      | true => rfl
      | false => rfl

theorem comment?_eq_none_iff (lineStart : Bool) (rest : Bytes) :
    Lexeme.comment? language lineStart rest = none ↔ opensComment rest = false := by
  rw [comment?_eq, opensComment]
  cases blockRule.opening.opens rest <;> cases lineMark.opens rest <;> simp

/-! ## Pieces -/

/-- No rule of the table asks whether a line starts. -/
theorem first_lineStart (afterOperand lineStart : Bool) (b : UInt8) (bs : Bytes) :
    Lexeme.first language ⟨afterOperand, lineStart⟩ b bs = Lexeme.first language ⟨afterOperand, true⟩ b bs := by
  unfold Lexeme.first
  dsimp only
  rw [comment?_eq lineStart, comment?_eq true]

theorem pieces_lineStart (afterOperand lineStart : Bool) (text : Bytes) :
    pieces language ⟨afterOperand, lineStart⟩ text = pieces language ⟨afterOperand, true⟩ text := by
  cases text with
  | nil => rw [pieces_nil, pieces_nil]
  | cons b bs =>
      rw [pieces, pieces, first_lineStart]
      rfl

/-- The pieces of a text behind an operand or not. -/
def piecesFrom (afterOperand : Bool) (text : Bytes) : List Piece :=
  pieces language ⟨afterOperand, true⟩ text

/-- An operand stands before the text behind the piece. -/
def operandAfter (afterOperand : Bool) (piece : Piece) : Bool :=
  if piece.kind.isTrivia then afterOperand else endsOperand piece.kind piece.text

theorem piecesFrom_nil (afterOperand : Bool) : piecesFrom afterOperand [] = [] :=
  pieces_nil _ _

theorem piecesFrom_append {afterOperand : Bool} {b : UInt8} {front rest : Bytes} {kind : Kind}
    (first : Lexeme.first language ⟨afterOperand, true⟩ b (front ++ rest) = ⟨kind, (b :: front).length⟩) :
    piecesFrom afterOperand (b :: front ++ rest) =
      ⟨kind, b :: front⟩ :: piecesFrom (operandAfter afterOperand ⟨kind, b :: front⟩) rest := by
  rw [piecesFrom, pieces_append first]
  exact congrArg _ (pieces_lineStart _ _ rest)

theorem piecesFrom_eq_cons {afterOperand : Bool} {text : Bytes} {piece : Piece} {others : List Piece}
    (cut : piecesFrom afterOperand text = piece :: others) :
    ∃ b front rest, piece.text = b :: front ∧ text = b :: front ++ rest ∧
      Lexeme.first language ⟨afterOperand, true⟩ b (front ++ rest) = ⟨piece.kind, (b :: front).length⟩ ∧
      others = piecesFrom (operandAfter afterOperand piece) rest := by
  obtain ⟨b, front, rest, text_eq, whole, first, others_eq⟩ := pieces_eq_cons cut
  exact ⟨b, front, rest, text_eq, whole, first, others_eq.trans (pieces_lineStart _ _ rest)⟩

theorem clean_eq (source : Bytes) : clean source = cleanPieces (piecesFrom false source) := by
  rw [clean, cut_scan, piecesFrom]

/-! ## Trivia -/

/-- Cleaning the longer list leaves the text before what it leaves of the shorter list, and a comma
before either is dropped or kept alike. -/
structure Prepends (text : Bytes) (longer shorter : List Piece) : Prop where
  cleaned : cleanPieces longer = text ++ cleanPieces shorter
  closes : closesNext longer = closesNext shorter

namespace Prepends

theorem refl (pieces : List Piece) : Prepends [] pieces pieces :=
  ⟨rfl, rfl⟩

theorem trans {first second : Bytes} {long middle short : List Piece} (outer : Prepends first long middle)
    (inner : Prepends second middle short) : Prepends (first ++ second) long short :=
  ⟨by rw [outer.cleaned, inner.cleaned, List.append_assoc], outer.closes.trans inner.closes⟩

theorem comment (text : Bytes) (rest : List Piece) : Prepends [] (⟨.comment, text⟩ :: rest) rest :=
  ⟨rfl, rfl⟩

theorem whitespace (text : Bytes) (rest : List Piece) : Prepends text (⟨.whitespace, text⟩ :: rest) rest := by
  refine ⟨?_, rfl⟩
  rw [cleanPieces, if_neg Kind.noConfusion, if_neg]
  rintro ⟨comma, _⟩
  cases congrArg Piece.kind comma

end Prepends

theorem first_blank {text : Bytes} (blank : Utf8.startsWith isWhiteSpace text = true) :
    ∃ b bs, text = b :: bs ∧ ∀ context,
      Lexeme.first language context b bs = ⟨.whitespace, Utf8.runLength isWhiteSpace text⟩ := by
  cases text with
  | nil => cases blank
  | cons b bs => exact ⟨b, bs, rfl, fun _ => (Lexeme.Leads.blank blank).first_eq⟩

/-- A run of white space is a piece. -/
theorem piecesFrom_blank {text : Bytes} (blank : Utf8.startsWith isWhiteSpace text = true) (afterOperand : Bool) :
    piecesFrom afterOperand text =
      ⟨.whitespace, text.take (Utf8.runLength isWhiteSpace text)⟩ ::
        piecesFrom afterOperand (text.drop (Utf8.runLength isWhiteSpace text)) := by
  obtain ⟨b, bs, rfl, first⟩ := first_blank blank
  rw [piecesFrom, pieces_cons (first _)]
  exact congrArg _ (pieces_lineStart _ _ _)

/-- White space before a text is kept, and joins the white space the text starts with. -/
theorem prepends_blank {c : Char} (blank : isWhiteSpace c = true) {sequence : Bytes}
    (shape : Utf8.Sequence c sequence) (afterOperand : Bool) (rest : Bytes) :
    Prepends sequence (piecesFrom afterOperand (sequence ++ rest)) (piecesFrom afterOperand rest) := by
  have decoded := Utf8.decode?_sequence_append shape rest
  have starts : Utf8.startsWith isWhiteSpace (sequence ++ rest) = true := by
    rw [Utf8.startsWith, decoded]
    exact blank
  have run : Utf8.runLength isWhiteSpace (sequence ++ rest) =
      sequence.length + Utf8.runLength isWhiteSpace rest := by
    rw [Utf8.runLength_of_decode? decoded, if_pos blank, List.drop_left]
  rw [piecesFrom_blank starts, run, List.take_length_add_append, List.drop_length_add_append]
  cases more : Utf8.startsWith isWhiteSpace rest with
  | true =>
      rw [piecesFrom_blank more]
      refine ⟨?_, rfl⟩
      rw [(Prepends.whitespace _ _).cleaned, (Prepends.whitespace _ _).cleaned, List.append_assoc]
  | false =>
      have none : Utf8.runLength isWhiteSpace rest = 0 := Utf8.runLength_of_not_startsWith more
      rw [none, List.take_zero, List.drop_zero, List.append_nil]
      exact Prepends.whitespace sequence _

/-! ## Other pieces -/

/-- A piece that is no comment and no comma before a closing bracket is kept. -/
theorem cleanPieces_kept {piece : Piece} {rest : List Piece} (code : piece.kind ≠ .comment)
    (kept : piece = ⟨.punctuation, [0x2C]⟩ → closesNext rest = false) :
    cleanPieces (piece :: rest) = piece.text ++ cleanPieces rest := by
  rw [cleanPieces, if_neg code, if_neg]
  rintro ⟨comma, closes⟩
  rw [kept comma] at closes
  cases closes

theorem cleanPieces_dropped {rest : List Piece} (closes : closesNext rest = true) :
    cleanPieces (⟨.punctuation, [0x2C]⟩ :: rest) = cleanPieces rest := by
  rw [cleanPieces, if_neg Kind.noConfusion, if_pos ⟨rfl, closes⟩]

theorem closesNext_visible {piece : Piece} (visible : piece.kind.isTrivia = false) (rest : List Piece) :
    closesNext (piece :: rest) = (piece.text == [0x7D] || piece.text == [0x5D]) := by
  rw [closesNext, List.find?_cons_of_pos]
  rw [visible]
  rfl

theorem opensComment_of_ne {b : UInt8} (other : b ≠ 0x2F) (bs : Bytes) : opensComment (b :: bs) = false := by
  cases bs with
  | nil => exact opensComment_singleton b
  | cons c bs => rw [opensComment_cons, beq_eq_false_iff_ne.mpr other, Bool.false_and]

theorem startsWith_ascii {isMember : Char → Bool} {b : UInt8} (ascii : b.toNat < 0x80) (bs : Bytes) :
    Utf8.startsWith isMember (b :: bs) = isMember (Char.ofNat b.toNat) := by
  rw [Utf8.startsWith, Utf8.decode?_ascii ascii]

theorem startsWith_isWhiteSpace {b : UInt8} (ascii : b.toNat < 0x80) (bs : Bytes) :
    Utf8.startsWith isWhiteSpace (b :: bs) = Byte.isBlank b := by
  rw [startsWith_ascii ascii, ← Indexed.CharClass.blank_agrees.byte b ascii]
  rfl

theorem startsWith_isIdentStart {b : UInt8} (ascii : b.toNat < 0x80) (bs : Bytes) :
    Utf8.startsWith Lexeme.isIdentStart (b :: bs) = Byte.isIdentStart b := by
  rw [startsWith_ascii ascii, ← Indexed.CharClass.identStart_agrees.byte b ascii]
  rfl

/-- An identifier before a byte that ends words is the identifier at the end of the text. -/
theorem runLength_append_of_ends {rest : Bytes} (ends : rest.EndsWord) (word : Bytes) :
    Utf8.runLength Lexeme.isIdentContinue (word ++ rest) = Utf8.runLength Lexeme.isIdentContinue word := by
  refine Utf8.runLength_append_of_other (Utf8.ascii_of_endsWord ends) (fun b member => ?_) word
  rw [← Indexed.CharClass.identContinue_agrees.byte b (Byte.ascii_of_endsWord (ends b member))]
  exact Byte.not_isIdentContinue_of_endsWord (ends b member)

/-- A mark is neither blank nor a quote, a digit or a letter. -/
theorem classes_of_isMark {b : UInt8} (mark : Byte.isMark b = true) :
    Byte.isBlank b = false ∧ (b == 0x22) = false ∧ Byte.isDigit b = false ∧ Byte.isIdentStart b = false := by
  have all : ∀ n < 0x80, Byte.isMark (UInt8.ofNat n) = true →
      Byte.isBlank (UInt8.ofNat n) = false ∧ (UInt8.ofNat n == 0x22) = false ∧
        Byte.isDigit (UInt8.ofNat n) = false ∧ Byte.isIdentStart (UInt8.ofNat n) = false := by
    decide +kernel
  have here := all b.toNat (Byte.ascii_of_isMark mark)
  rw [UInt8.ofNat_toNat] at here
  exact here mark

/-- A mark that opens no comment and no number is a piece. -/
theorem first_mark {b : UInt8} (mark : Byte.isMark b = true) (slash : b ≠ 0x2F) (dot : b ≠ Byte.dot)
    (context : Context) (bs : Bytes) : Lexeme.first language context b bs = ⟨.punctuation, 1⟩ := by
  have ascii := Byte.ascii_of_isMark mark
  obtain ⟨blank, quote, digit, letter⟩ := classes_of_isMark mark
  have number : Number.starts context.afterOperand (b :: bs) = false := by
    rw [Number.starts, digit, beq_eq_false_iff_ne.mpr dot]
    rfl
  rw [← mark_eq (b :: bs)]
  refine (Lexeme.Leads.mark ?_ ?_ ?_ number ?_ mark).first_eq
  · rw [startsWith_isWhiteSpace ascii, blank]
  · rw [isQuote_eq, quote]
  · exact (comment?_eq_none_iff _ _).mpr (opensComment_of_ne slash bs)
  · rw [startsWith_isIdentStart ascii, letter]

/-! ## Literals -/

/-- The literals of settings documents. -/
def literal : Quoted :=
  ⟨0x22, false⟩

theorem first_quote (context : Context) (bs : Bytes) :
    Lexeme.first language context 0x22 bs = ⟨.string, literal.length (0x22 :: bs)⟩ :=
  (Lexeme.Leads.literal (startsWith_isWhiteSpace (by decide) bs) (isQuote_eq 0x22)).first_eq

theorem literal_length (bs : Bytes) :
    literal.length (0x22 :: bs) =
      if (literal.extent bs).beforeLineFeed &&
          (bs.take (literal.extent bs).length).getLast? == some Byte.carriageReturn then
        1 + ((literal.extent bs).length - 1)
      else 1 + (literal.extent bs).length :=
  rfl

/-- Only quotes, backslashes and line feeds stop the search for the end of a literal. -/
theorem not_stops_of_plain {c : Char} (quote : c ≠ '"') (slash : c ≠ '\\') (feed : c ≠ '\n') :
    ∀ b ∈ String.utf8EncodeChar c, literal.stops b = false := by
  intro b member
  rw [Bool.eq_false_iff]
  intro stops
  have code := (Utf8.sequence_encodeChar c).toNat_of_mem member (Quoted.ascii_of_stops (by decide) stops)
  simp only [Quoted.stops, literal, Bool.or_eq_true, Bool.and_eq_true, beq_iff_eq] at stops
  rcases stops with (rfl | rfl) | ⟨_, rfl⟩
  · exact quote (Char.toNat_inj.mp code)
  · exact slash (Char.toNat_inj.mp code)
  · exact feed (Char.toNat_inj.mp code)

end CodeTint.Document
