import CodeTint.Proofs.Decoder
import CodeTint.Proofs.Spelling

/-!
# Comments as white space

Cleaning deletes the comments of a settings document. Almost everywhere a space in
the place of each comment makes no difference: the scanner cuts the spaced document
at the same places, and JSON takes the same tokens from both. Only where nothing but
comments stands between two words does deletion join what a space keeps apart; there
the spaced document is refused, since no two values stand side by side in JSON.
-/

namespace CodeTint.Document

open JsonToken (Orderly StopsWord isWordChar structural? followedBy)
open Unicode (isWhiteSpace)

/-- A comment as one space; any other piece as it is. -/
def blanked (piece : Piece) : Piece :=
  if piece.kind = .comment then ⟨.whitespace, [0x20]⟩ else piece

/-- The text of the pieces with one space for each comment. -/
def spaced (pieces : List Piece) : Bytes :=
  (pieces.map blanked).flatMap Piece.text

/-- The document with one space for each comment. -/
def withSpaces (text : String) : String :=
  let source := Text.bytes text
  String.ofList (Utf8.decodeLossy (spaced (Piece.cut source (scan language source))))

/-- The text is a structural character of JSON. -/
def isStructural : Bytes → Bool
  | [b] => Byte.isAmong "\x7b\x7d[]:," b
  | _ => false

/-- The piece is neither trivia nor a string nor structural. -/
def isWord (piece : Piece) : Bool :=
  !piece.kind.isTrivia && piece.kind != .string && !isStructural piece.text

/-- The first piece that is no comment is a word. -/
def reachesWord (pieces : List Piece) : Bool :=
  (pieces.dropWhile (·.kind == .comment)).head?.any isWord

/-- A comment comes first, and a word directly behind it and the comments that follow it. -/
def hidesWord (pieces : List Piece) : Bool :=
  pieces.head?.any (·.kind == .comment) && reachesWord pieces

/-- Somewhere nothing but comments stands between two words. -/
def joinsWords : List Piece → Bool
  | [] => false
  | piece :: rest => (isWord piece && hidesWord rest) || joinsWords rest

theorem blanked_of_ne {piece : Piece} (code : piece.kind ≠ .comment) : blanked piece = piece :=
  if_neg code

theorem spaced_cons (piece : Piece) (pieces : List Piece) :
    spaced (piece :: pieces) = (blanked piece).text ++ spaced pieces :=
  List.flatMap_cons

/-! ## The spaced document is cut at the same places -/

/-- The ends of two texts that are equal up to there: both are empty, or one goes on with a comment
and the other with a space. -/
inductive Swapped : Bytes → Bytes → Prop
  | nil : Swapped [] []
  | comment (old new : Bytes) : Swapped (0x2F :: old) (0x20 :: new)

namespace Swapped

variable {old new : Bytes}

theorem endsWord (swapped : Swapped old new) : old.EndsWord ∧ new.EndsWord := by
  cases swapped with
  | nil => exact ⟨Bytes.endsWord_nil, Bytes.endsWord_nil⟩
  | comment old new => exact ⟨Bytes.endsWord_cons (by decide) old, Bytes.endsWord_cons (by decide) new⟩

theorem opensComment (swapped : Swapped old new) {b : UInt8} {front : Bytes}
    (code : Document.opensComment (b :: front ++ old) = false) :
    Document.opensComment (b :: front ++ new) = false := by
  cases front with
  | nil =>
      cases swapped with
      | nil => exact code
      | comment old new =>
          rw [List.cons_append, List.nil_append, opensComment_cons]
          exact Bool.and_false _
  | cons c front =>
      rw [List.cons_append, List.cons_append, opensComment_cons] at code ⊢
      exact code

/-- A literal that ends before the comment ends there too before the space. -/
theorem extent (swapped : Swapped old new) (body : Bytes)
    (within : (literal.extent (body ++ old)).length ≤ body.length) :
    literal.extent (body ++ new) = literal.extent (body ++ old) := by
  induction body using Quoted.body_induction with
  | nil =>
      cases swapped with
      | nil => rfl
      | comment old new =>
          rw [List.nil_append, Quoted.extent_plain (by decide), Quoted.Extent.after] at within
          simp only [List.length_nil] at within
          omega
  | open_escape =>
      cases swapped with
      | nil => rfl
      | comment old new =>
          rw [List.cons_append, List.nil_append, Quoted.extent_escape_cons, Quoted.Extent.after] at within
          simp only [List.length_singleton] at within
          omega
  | escape c body ih =>
      rw [List.cons_append, List.cons_append, Quoted.extent_escape_cons] at within ⊢
      rw [List.cons_append, List.cons_append, Quoted.extent_escape_cons, ih]
      simp only [Quoted.Extent.after, List.length_cons] at within
      omega
  | other b body slash ih =>
      rw [List.cons_append] at within ⊢
      cases stop : literal.stops b with
      | false =>
          rw [Quoted.extent_plain stop] at within ⊢
          rw [List.cons_append, Quoted.extent_plain stop, ih]
          simp only [Quoted.Extent.after, List.length_cons] at within
          omega
      | true =>
          rw [List.cons_append, Quoted.extent_stop stop, Quoted.extent_stop stop, beq_eq_false_iff_ne.mpr slash]
          rfl

theorem literal_length (swapped : Swapped old new) (body : Bytes)
    (fits : literal.length (0x22 :: (body ++ old)) ≤ body.length + 1) :
    literal.length (0x22 :: (body ++ new)) = literal.length (0x22 :: (body ++ old)) := by
  have within : (literal.extent (body ++ old)).length ≤ body.length := by
    rw [Document.literal_length] at fits
    split at fits
    · rename_i back
      -- A carriage return is given back; it stands before the comment.
      by_contra long
      have next : (literal.extent (body ++ old)).length = body.length + 1 := by omega
      rw [next] at back
      cases swapped with
      | nil =>
          have ascii : literal.quote.toNat < 0x80 := by decide
          have bound := (Quoted.extent_edge ascii (body ++ [])).fits
          rw [next, List.append_nil] at bound
          omega
      | comment old new =>
          rw [List.take_length_add_append, List.take_succ_cons, List.take_zero, List.getLast?_concat,
            Bool.and_eq_true] at back
          exact absurd back.2 (by decide)
    · omega
  have same := swapped.extent body within
  rw [Document.literal_length, Document.literal_length, same, List.take_append_of_le_length within,
    List.take_append_of_le_length within]

/-- A visible lexeme that ends before the comment is the same before the space. -/
theorem first (swapped : Swapped old new) {context : Context} {b : UInt8} {front : Bytes}
    (fits : (Lexeme.first language context b (front ++ old)).length ≤ (b :: front).length)
    (visible : (Lexeme.first language context b (front ++ old)).kind.isTrivia = false) :
    Lexeme.first language context b (front ++ new) = Lexeme.first language context b (front ++ old) := by
  obtain ⟨oldEnds, newEnds⟩ := swapped.endsWord
  have oldAscii := Utf8.ascii_of_endsWord oldEnds
  have newAscii := Utf8.ascii_of_endsWord newEnds
  have nonempty := List.cons_ne_nil b front
  have starts (isMember : Char → Bool) :
      Utf8.startsWith isMember (b :: (front ++ new)) = Utf8.startsWith isMember (b :: (front ++ old)) := by
    rw [← List.cons_append, Utf8.startsWith_append_of_ascii nonempty newAscii,
      ← Utf8.startsWith_append_of_ascii nonempty oldAscii, List.cons_append]
  have numbers : Number.starts context.afterOperand (b :: (front ++ new)) =
      Number.starts context.afterOperand (b :: (front ++ old)) := by
    rw [← List.cons_append, Number.starts_append_of_ends nonempty newEnds,
      ← Number.starts_append_of_ends nonempty oldEnds, List.cons_append]
  have comments (code : Lexeme.comment? language context.lineStart (b :: (front ++ old)) = none) :
      Lexeme.comment? language context.lineStart (b :: (front ++ new)) = none := by
    rw [comment?_eq_none_iff] at code ⊢
    exact swapped.opensComment code
  have leads := Lexeme.first_leads language context b (front ++ old)
  generalize lexemeEq : Lexeme.first language context b (front ++ old) = lexeme at leads fits visible ⊢
  cases leads with
  | blank blank => cases visible
  | literal outside quote =>
      rw [isQuote_eq, beq_iff_eq] at quote
      subst quote
      rw [first_quote]
      exact congrArg (Lexeme.mk .string) (swapped.literal_length front fits)
  | comment outside quote found =>
      rw [Lexeme.comment?_kind found] at visible
      cases visible
  | number outside quote code number =>
      rw [← starts] at outside
      rw [← numbers] at number
      have length := (Number.length_append_of_ends newEnds (b :: front)).trans
        (Number.length_append_of_ends oldEnds (b :: front)).symm
      exact (Lexeme.Leads.number outside quote (comments code) number).first_eq.trans
        (congrArg (Lexeme.mk .number) length)
  | word outside quote code number letter =>
      rw [← starts] at outside letter
      rw [← numbers] at number
      have length := (runLength_append_of_ends newEnds (b :: front)).trans
        (runLength_append_of_ends oldEnds (b :: front)).symm
      exact (Lexeme.Leads.word outside quote (comments code) number letter).first_eq.trans
        (congrArg (Lexeme.mk .ident) length)
  | mark outside quote code number letter mark =>
      rw [← starts] at outside letter
      rw [← numbers] at number
      refine (Lexeme.Leads.mark outside quote (comments code) number letter mark).first_eq.trans ?_
      rw [mark_eq, mark_eq]
  | plain outside quote code number letter mark =>
      rw [← starts] at outside letter
      rw [← numbers] at number
      have width := (Utf8.width_append_of_ascii nonempty newAscii).trans
        (Utf8.width_append_of_ascii nonempty oldAscii).symm
      exact (Lexeme.Leads.plain outside quote (comments code) number letter mark).first_eq.trans
        (congrArg (Lexeme.mk .plaintext) width)

end Swapped

theorem slash_of_comment {context : Context} {b : UInt8} {bs : Bytes}
    (comment : (Lexeme.first language context b bs).kind = .comment) : b = 0x2F := by
  by_contra slash
  have code := (comment?_eq_none_iff context.lineStart (b :: bs)).mpr (opensComment_of_ne slash bs)
  have leads := Lexeme.first_leads language context b bs
  generalize Lexeme.first language context b bs = lexeme at leads comment
  cases leads with
  | comment _ _ found =>
      rw [code] at found
      cases found
  | mark =>
      rw [mark_eq] at comment
      cases comment
  | blank | literal | number | word | plain => cases comment

/-- A document and its spaced text are equal up to the first comment. -/
theorem exists_swapped (afterOperand : Bool) (text : Bytes) :
    ∃ front old new, text = front ++ old ∧ spaced (piecesFrom afterOperand text) = front ++ new ∧
      Swapped old new := by
  generalize cut : piecesFrom afterOperand text = pieces
  induction pieces generalizing afterOperand text with
  | nil =>
      cases text with
      | nil => exact ⟨[], [], [], rfl, rfl, .nil⟩
      | cons b bs =>
          rw [piecesFrom, pieces] at cut
          cases cut
  | cons piece others ih =>
      obtain ⟨b, front, rest, text_eq, rfl, first, others_eq⟩ := piecesFrom_eq_cons cut
      by_cases comment : piece.kind = .comment
      · obtain rfl : b = 0x2F := slash_of_comment (by rw [first]; exact comment)
        refine ⟨[], _, _, rfl, ?_, .comment (front ++ rest) (spaced others)⟩
        rw [spaced_cons, blanked, if_pos comment]
        rfl
      · obtain ⟨more, old, new, rest_eq, spaced_eq, swapped⟩ := ih _ rest others_eq.symm
        refine ⟨b :: front ++ more, old, new, ?_, ?_, swapped⟩
        · rw [rest_eq, List.append_assoc]
        · rw [spaced_cons, blanked_of_ne comment, text_eq, spaced_eq, List.append_assoc]

theorem runLength_of_whitespace {context : Context} {b : UInt8} {bs : Bytes} {length : Nat}
    (first : Lexeme.first language context b bs = ⟨.whitespace, length⟩) :
    length = Utf8.runLength isWhiteSpace (b :: bs) := by
  have leads := Lexeme.first_leads language context b bs
  rw [first] at leads
  generalize lexemeEq : (⟨.whitespace, length⟩ : Lexeme) = lexeme at leads
  cases leads with
  | blank => cases lexemeEq; rfl
  | comment _ _ found => cases lexemeEq ▸ Lexeme.comment?_kind found
  | mark =>
      rw [mark_eq] at lexemeEq
      cases lexemeEq
  | literal | number | word | plain => cases lexemeEq

/-- White space before a text is kept. -/
theorem prepends_run (afterOperand : Bool) (text rest : Bytes) :
    Prepends (text.take (Utf8.runLength isWhiteSpace text))
      (piecesFrom afterOperand (text.take (Utf8.runLength isWhiteSpace text) ++ rest))
      (piecesFrom afterOperand rest) := by
  fun_induction Utf8.runLength isWhiteSpace text with
  | case1 text c width found white ih =>
      obtain ⟨sequence, more, rfl, shape, rfl⟩ := Utf8.sequence_of_decode? found
      rw [List.drop_left] at ih ⊢
      rw [List.take_length_add_append, List.append_assoc]
      exact (prepends_blank white shape afterOperand _).trans ih
  | case2 | case3 =>
      rw [List.take_zero]
      exact .refl _

theorem Prepends.cons {longer shorter : List Piece} (same : Prepends [] longer shorter) (piece : Piece) :
    Prepends [] (piece :: longer) (piece :: shorter) := by
  have cleaned : cleanPieces longer = cleanPieces shorter := same.cleaned
  refine ⟨?_, ?_⟩
  · rw [List.nil_append, cleanPieces, cleanPieces, cleaned, same.closes]
  · have closes := same.closes
    unfold closesNext at closes ⊢
    rw [List.find?_cons, List.find?_cons]
    cases piece.kind.isTrivia with
    | true => exact closes
    | false => rfl

theorem Prepends.common {text : Bytes} {first second rest : List Piece} (one : Prepends text first rest)
    (other : Prepends text second rest) : Prepends [] first second :=
  ⟨one.cleaned.trans other.cleaned.symm, one.closes.trans other.closes.symm⟩

/-- The spaced document is cleaned as the document with its comments made spaces. -/
theorem prepends_spaced (afterOperand : Bool) (text : Bytes) :
    Prepends [] (piecesFrom afterOperand (spaced (piecesFrom afterOperand text)))
      ((piecesFrom afterOperand text).map blanked) := by
  generalize cut : piecesFrom afterOperand text = pieces
  induction pieces generalizing afterOperand text with
  | nil =>
      rw [show spaced [] = [] from rfl, piecesFrom_nil]
      exact .refl _
  | cons piece others ih =>
      obtain ⟨b, front, rest, text_eq, rfl, first, others_eq⟩ := piecesFrom_eq_cons cut
      have later := ih _ rest others_eq.symm
      obtain ⟨kind, bytes⟩ := piece
      obtain rfl : bytes = b :: front := text_eq
      rw [spaced_cons, List.map_cons]
      by_cases comment : kind = .comment
      · subst comment
        -- The space may be read together with white space behind it, which cleaning does not see.
        have spaces := prepends_blank (c := ' ') rfl (.one 0x20 (by decide) rfl) afterOperand (spaced others)
        exact (spaces.trans later).common (.whitespace [0x20] _)
      rw [blanked_of_ne comment]
      by_cases white : kind = .whitespace
      · subst white
        have run := prepends_run afterOperand (b :: front ++ rest) (spaced others)
        rw [List.cons_append, ← runLength_of_whitespace first, ← List.cons_append, List.take_left] at run
        exact (run.trans later).common (by rw [List.append_nil]; exact .whitespace _ _)
      · -- What follows the piece is the same up to the next comment, so the piece is read again.
        obtain ⟨more, old, new, rfl, spaced_eq, swapped⟩ := exists_swapped
          (operandAfter afterOperand ⟨kind, b :: front⟩) rest
        rw [← others_eq] at spaced_eq
        rw [← List.append_assoc] at first
        have same : Lexeme.first language ⟨afterOperand, true⟩ b (front ++ spaced others) =
            ⟨kind, (b :: front).length⟩ := by
          rw [spaced_eq, ← List.append_assoc, swapped.first, first]
          · rw [first]
            exact Nat.succ_le_succ (by simp)
          · rw [first]
            cases kind <;> first | rfl | exact absurd rfl comment | exact absurd rfl white
        change Prepends [] (piecesFrom afterOperand (b :: front ++ spaced others)) _
        rw [piecesFrom_append same]
        exact later.cons _

/-! ## What cleaning leaves -/

/-- The JSON text that cleaning leaves of the pieces. -/
def cleanText (pieces : List Piece) : List Char :=
  Utf8.decodeLossy (cleanPieces pieces)

theorem closesNext_blanked (pieces : List Piece) : closesNext (pieces.map blanked) = closesNext pieces := by
  induction pieces with
  | nil => rfl
  | cons piece pieces ih =>
      by_cases comment : piece.kind = .comment
      · unfold closesNext at ih ⊢
        rw [List.map_cons, blanked, if_pos comment, List.find?_cons, List.find?_cons, comment]
        exact ih
      · rw [List.map_cons, blanked_of_ne comment]
        unfold closesNext at ih ⊢
        rw [List.find?_cons, List.find?_cons]
        cases piece.kind.isTrivia with
        | true => exact ih
        | false => rfl

theorem cleanText_nil : cleanText [] = [] := by
  rw [cleanText, cleanPieces, Utf8.decodeLossy]

theorem cleanText_comment (text : Bytes) (rest : List Piece) :
    cleanText (⟨.comment, text⟩ :: rest) = cleanText rest :=
  rfl

/-- The piece is no comma before a closing bracket. -/
def Kept (piece : Piece) (rest : List Piece) : Prop :=
  piece = ⟨.punctuation, [0x2C]⟩ → closesNext rest = false

theorem kept_of_ne {piece : Piece} (other : piece.kind ≠ .punctuation) (rest : List Piece) : Kept piece rest :=
  fun comma => absurd (congrArg Piece.kind comma) other

theorem cleanText_kept {kind : Kind} {chars : List Char} {rest : List Piece} (code : kind ≠ .comment)
    (kept : Kept ⟨kind, Utf8.encode chars⟩ rest) :
    cleanText (⟨kind, Utf8.encode chars⟩ :: rest) = chars ++ cleanText rest := by
  rw [cleanText, cleanPieces_kept code kept, Utf8.decodeLossy_encode_append]
  rfl

/-- The text of the spaced document starts with the same piece. -/
theorem cleanText_blanked {kind : Kind} {chars : List Char} {rest : List Piece} (code : kind ≠ .comment)
    (kept : Kept ⟨kind, Utf8.encode chars⟩ rest) :
    cleanText ((⟨kind, Utf8.encode chars⟩ :: rest).map blanked) = chars ++ cleanText (rest.map blanked) := by
  rw [List.map_cons, blanked_of_ne code, cleanText_kept code]
  rw [Kept, closesNext_blanked]
  exact kept

theorem cleanText_blanked_comment (text : Bytes) (rest : List Piece) :
    cleanText ((⟨.comment, text⟩ :: rest).map blanked) = ' ' :: cleanText (rest.map blanked) := by
  have kept : cleanText (⟨.whitespace, Utf8.encode [' ']⟩ :: rest.map blanked) =
      [' '] ++ cleanText (rest.map blanked) :=
    cleanText_kept Kind.noConfusion (kept_of_ne Kind.noConfusion _)
  exact kept

theorem closesNext_of_not_kept {piece : Piece} {rest : List Piece} (dropped : ¬Kept piece rest) :
    closesNext rest = true := by
  by_contra open_
  exact dropped fun _ => Bool.eq_false_iff.mpr open_

theorem cleanText_dropped {piece : Piece} {rest : List Piece} (dropped : ¬Kept piece rest) :
    cleanText (piece :: rest) = cleanText rest ∧
      cleanText ((piece :: rest).map blanked) = cleanText (rest.map blanked) := by
  have closes := closesNext_of_not_kept dropped
  have spacedCloses := (closesNext_blanked rest).trans closes
  obtain rfl : piece = ⟨.punctuation, [0x2C]⟩ := by
    by_contra other
    exact dropped fun comma => absurd comma other
  refine ⟨congrArg Utf8.decodeLossy (cleanPieces_dropped closes), ?_⟩
  rw [List.map_cons, blanked_of_ne Kind.noConfusion]
  exact congrArg Utf8.decodeLossy (cleanPieces_dropped spacedCloses)

/-! ## Words -/

theorem reachesWord_of_ne {piece : Piece} (code : piece.kind ≠ .comment) (rest : List Piece) :
    reachesWord (piece :: rest) = isWord piece := by
  rw [reachesWord, List.dropWhile_cons_of_neg]
  · rfl
  · rw [beq_iff_eq]
    exact code

theorem isWord_structural {c : Char} (structural : (structural? c).isSome = true) :
    isWord ⟨.punctuation, Utf8.encode [c]⟩ = false := by
  unfold structural? at structural
  split at structural <;> first | rfl | cases structural

theorem isWord_of_wordChars {kind : Kind} {word : List Char} (visible : kind.isTrivia = false)
    (bare : kind ≠ .string) (chars : ∀ c ∈ word, isWordChar c = true) :
    isWord ⟨kind, Utf8.encode word⟩ = true := by
  have other : isStructural (Utf8.encode word) = false := by
    rw [Bool.eq_false_iff]
    intro structural
    unfold isStructural at structural
    split at structural
    · rename_i b bytes
      obtain ⟨d, listed, same⟩ := List.any_eq_true.mp structural
      have marks : "\x7b\x7d[]:,".toList.all (fun d => d.toNat < 0x80 && !isWordChar d) = true := by decide
      have mark := List.all_eq_true.mp marks d listed
      rw [Bool.and_eq_true, decide_eq_true_eq, Bool.not_eq_true'] at mark
      have read := congrArg Utf8.decodeLossy (Utf8.encode_cons_ascii mark.1 [])
      rw [eq_of_beq same, show Utf8.encode [] = [] from rfl, ← bytes, Utf8.decodeLossy_encode,
        Utf8.decodeLossy_encode] at read
      have inside := chars d (by rw [← read]; exact List.mem_cons_self)
      rw [mark.2] at inside
      cases inside
    · cases structural
  rw [isWord, visible, other, bne_iff_ne.mpr bare]
  rfl

theorem kept_of_isWord {piece : Piece} (word : isWord piece = true) (rest : List Piece) : Kept piece rest := by
  rintro rfl
  cases word

theorem ne_comment_of_visible {kind : Kind} (visible : kind.isTrivia = false) : kind ≠ .comment := by
  rintro rfl
  cases visible

/-- A bracket or brace that closes is no word. -/
theorem reachesWord_of_closesNext {pieces : List Piece} (closes : closesNext pieces = true) :
    reachesWord pieces = false := by
  induction pieces with
  | nil => rfl
  | cons piece pieces ih =>
      by_cases comment : piece.kind = .comment
      · obtain ⟨kind, text⟩ := piece
        obtain rfl : kind = .comment := comment
        exact ih closes
      · rw [reachesWord_of_ne comment, isWord]
        cases trivia : piece.kind.isTrivia with
        | true => rfl
        | false =>
            rw [closesNext_visible trivia, Bool.or_eq_true, beq_iff_eq, beq_iff_eq] at closes
            rcases closes with brace | bracket
            · rw [brace]
              exact Bool.and_false _
            · rw [bracket]
              exact Bool.and_false _

theorem hidesWord_nil : hidesWord [] = false :=
  rfl

theorem hidesWord_of_ne {piece : Piece} (code : piece.kind ≠ .comment) (rest : List Piece) :
    hidesWord (piece :: rest) = false := by
  rw [hidesWord, List.head?_cons, Option.any_some, beq_eq_false_iff_ne.mpr code, Bool.false_and]

theorem joinsWords_of_not_isWord {piece : Piece} (other : isWord piece = false) (rest : List Piece) :
    joinsWords (piece :: rest) = joinsWords rest := by
  rw [joinsWords, other, Bool.false_and, Bool.false_or]

/-! ## Tokens -/

/-- The tokens are the same, unless words are joined; then the second are not orderly. -/
structure Agree (joins : Bool) (tokens others : List JsonToken) : Prop where
  same : joins = false → tokens = others
  refused : joins = true → ¬Orderly others

namespace Agree

variable {joins : Bool} {tokens others : List JsonToken}

theorem broken (joins : Bool) : Agree joins [.broken] [.broken] :=
  ⟨fun _ => rfl, fun _ orderly => orderly.whole List.mem_cons_self⟩

theorem append (agree : Agree joins tokens others) (front : List JsonToken) :
    Agree joins (front ++ tokens) (front ++ others) :=
  ⟨fun apart => by rw [agree.same apart], fun joined orderly => agree.refused joined orderly.right⟩

theorem followedBy (agree : Agree joins tokens others) (front : List JsonToken) :
    Agree joins (followedBy front tokens) (followedBy front others) := by
  unfold JsonToken.followedBy
  split
  · rename_i broken
    exact ⟨fun _ => rfl, fun _ orderly => orderly.whole broken⟩
  · exact agree.append front

end Agree

/-- A word, and then a value: no decoder accepts the tokens. -/
theorem not_orderly_of_word {word : List Char} (nonempty : word ≠ []) (chars : ∀ c ∈ word, isWordChar c = true)
    {token : JsonToken} (value : token.endsApart = true) (others : List JsonToken) :
    ¬Orderly (followedBy (JsonToken.scan word) (token :: others)) := by
  intro orderly
  have scalar {next : JsonToken} (apart : next.endsApart = true) (whole : next ≠ .broken) :
      next.isScalar = true := by
    rw [JsonToken.endsApart, beq_eq_false_iff_ne.mpr whole, Bool.or_false] at apart
    exact apart
  unfold followedBy at orderly
  split at orderly
  · rename_i broken
    exact orderly.whole broken
  · -- The last token of the word and the first behind it are values side by side.
    rename_i whole
    obtain ⟨c, rest, rfl⟩ := List.exists_cons_of_ne_nil nonempty
    obtain ⟨head, tail, scanned, _⟩ := JsonToken.scan_wordChar (chars c List.mem_cons_self) rest
    have some_token : JsonToken.scan (c :: rest) ≠ [] := by
      rw [scanned]
      exact List.cons_ne_nil _ _
    have last := List.getLast_mem some_token
    have ends := (List.isChain_append.mp orderly.apart).2.2
    refine ends _ (List.getLast?_eq_some_getLast some_token) token rfl ⟨?_, ?_⟩
    · refine scalar (JsonToken.endsApart_of_mem_scan chars _ last) fun broken => whole ?_
      rw [← broken]
      exact last
    · refine scalar value fun broken => orderly.whole ?_
      rw [broken]
      exact List.mem_append_right _ List.mem_cons_self

theorem scan_word_append {word rest : List Char} (chars : ∀ c ∈ word, isWordChar c = true)
    (stops : StopsWord rest) :
    JsonToken.scan (word ++ rest) = followedBy (JsonToken.scan word) (JsonToken.scan rest) := by
  refine JsonToken.scan_append (fun quote => ?_) stops
  exact absurd (chars '"' quote) (by decide)

/-- The text and the spaced text both start with no part of a word. -/
structure Stops (pieces : List Piece) : Prop where
  clean : StopsWord (cleanText pieces)
  spaced : StopsWord (cleanText (pieces.map blanked))

theorem stops_kept {kind : Kind} {c : Char} {chars : List Char} {rest : List Piece} (code : kind ≠ .comment)
    (kept : Kept ⟨kind, Utf8.encode (c :: chars)⟩ rest)
    (stops : JsonToken.continuesWord c = false) : Stops (⟨kind, Utf8.encode (c :: chars)⟩ :: rest) := by
  refine ⟨?_, ?_⟩
  · rw [cleanText_kept code kept]
    exact JsonToken.stopsWord_cons stops _
  · rw [cleanText_blanked code kept]
    exact JsonToken.stopsWord_cons stops _

theorem Spelled.stops {pieces : List Piece} (spelled : Spelled pieces) (apart : reachesWord pieces = false) :
    Stops pieces := by
  induction spelled with
  | nil =>
      have stops : StopsWord (cleanText []) := by
        rw [cleanText_nil]
        exact JsonToken.stopsWord_nil
      exact ⟨stops, stops⟩
  | comment text _ ih =>
      refine ⟨(ih apart).clean, ?_⟩
      rw [cleanText_blanked_comment]
      exact JsonToken.stopsWord_cons (by decide) _
  | @blank space rest nonempty white =>
      obtain ⟨c, space, rfl⟩ := List.exists_cons_of_ne_nil nonempty
      have far := Unicode.far_of_isWhiteSpace (white c List.mem_cons_self)
      exact stops_kept Kind.noConfusion (kept_of_ne Kind.noConfusion rest) (JsonToken.classes_of_far far).2.2
  | @mark c rest structural later ih =>
      by_cases kept : Kept ⟨.punctuation, Utf8.encode [c]⟩ rest
      · obtain ⟨token, structural⟩ := Option.isSome_iff_exists.mp structural
        exact stops_kept Kind.noConfusion kept (JsonToken.continuesWord_of_structural structural)
      · obtain ⟨clean, spaced⟩ := cleanText_dropped kept
        have stops := ih (reachesWord_of_closesNext (closesNext_of_not_kept kept))
        exact ⟨clean ▸ stops.clean, spaced ▸ stops.spaced⟩
  | @word kind word rest visible bare nonempty chars later ih =>
      rw [reachesWord_of_ne (ne_comment_of_visible visible), isWord_of_wordChars visible bare chars] at apart
      cases apart
  | closed | unclosed => exact stops_kept Kind.noConfusion (kept_of_ne Kind.noConfusion _) (by decide)

/-- Behind nothing but comments the spaced text starts with a value or is broken. -/
theorem Spelled.scan_of_reachesWord {pieces : List Piece} (spelled : Spelled pieces)
    (reaches : reachesWord pieces = true) :
    ∃ token others, JsonToken.scan (cleanText (pieces.map blanked)) = token :: others ∧
      token.endsApart = true := by
  induction spelled with
  | nil => cases reaches
  | comment text later ih =>
      rw [cleanText_blanked_comment, JsonToken.scan_blank rfl]
      exact ih reaches
  | blank => cases reaches
  | mark structural =>
      rw [reachesWord_of_ne Kind.noConfusion, isWord_structural structural] at reaches
      cases reaches
  | @word kind word rest visible bare nonempty chars later ih =>
      have kept := kept_of_isWord (isWord_of_wordChars visible bare chars) rest
      obtain ⟨c, word, rfl⟩ := List.exists_cons_of_ne_nil nonempty
      rw [cleanText_blanked (ne_comment_of_visible visible) kept]
      exact JsonToken.scan_wordChar (chars c List.mem_cons_self) _
  | closed | unclosed => cases reaches

theorem Agree.apart {joins : Bool} {word first second : List Char}
    (agree : Agree joins (JsonToken.scan first) (JsonToken.scan second))
    (chars : ∀ c ∈ word, isWordChar c = true) (firstStops : StopsWord first) (secondStops : StopsWord second) :
    Agree joins (JsonToken.scan (word ++ first)) (JsonToken.scan (word ++ second)) := by
  rw [scan_word_append chars firstStops, scan_word_append chars secondStops]
  exact agree.followedBy _

/-- The tokens of the text and of the spaced text agree, also behind a word that may go on into them. -/
def Alike (pieces : List Piece) : Prop :=
  ∀ word : List Char, (∀ c ∈ word, isWordChar c = true) →
    Agree ((!word.isEmpty && hidesWord pieces) || joinsWords pieces)
      (JsonToken.scan (word ++ cleanText pieces)) (JsonToken.scan (word ++ cleanText (pieces.map blanked)))

namespace Alike

variable {rest : List Piece}

theorem nil : Alike [] := by
  refine fun word _ => ⟨fun _ => rfl, fun joined => ?_⟩
  rw [hidesWord_nil, Bool.and_false] at joined
  cases joined

theorem agree {pieces : List Piece} (alike : Alike pieces) :
    Agree (joinsWords pieces) (JsonToken.scan (cleanText pieces))
      (JsonToken.scan (cleanText (pieces.map blanked))) :=
  alike [] fun _ member => by cases member

/-- A piece that is neither a comment nor a word parts what stands before it from what follows. -/
theorem of_separator {piece : Piece} (code : piece.kind ≠ .comment) (other : isWord piece = false)
    (stops : Stops (piece :: rest))
    (agree : Agree (joinsWords rest) (JsonToken.scan (cleanText (piece :: rest)))
      (JsonToken.scan (cleanText ((piece :: rest).map blanked)))) : Alike (piece :: rest) := by
  intro word chars
  rw [hidesWord_of_ne code, Bool.and_false, Bool.false_or, joinsWords_of_not_isWord other]
  exact agree.apart chars stops.clean stops.spaced

/-- The space in the place of a comment ends a word; without it the word goes on if a word follows. -/
theorem comment (alike : Alike rest) (later : Spelled rest) (text : Bytes) :
    Alike (⟨.comment, text⟩ :: rest) := by
  intro word chars
  have same : joinsWords (⟨.comment, text⟩ :: rest) = joinsWords rest := joinsWords_of_not_isWord rfl rest
  have hides : hidesWord (⟨.comment, text⟩ :: rest) = reachesWord rest := rfl
  rw [cleanText_comment, cleanText_blanked_comment, same, hides,
    scan_word_append chars (JsonToken.stopsWord_cons (by decide) _), JsonToken.scan_blank rfl]
  by_cases nonempty : word = []
  · subst nonempty
    rw [JsonToken.scan_nil, JsonToken.followedBy_nil]
    exact alike.agree
  have visible : word.isEmpty = false := by
    rw [Bool.eq_false_iff, List.isEmpty_iff.ne]
    exact nonempty
  rw [visible, Bool.not_false, Bool.true_and]
  cases reaches : reachesWord rest with
  | true =>
      obtain ⟨token, others, scanned, value⟩ := later.scan_of_reachesWord reaches
      rw [scanned]
      exact ⟨fun apart => (by cases apart), fun _ => not_orderly_of_word nonempty chars value others⟩
  | false =>
      rw [Bool.false_or, scan_word_append chars (later.stops reaches).clean]
      exact alike.agree.followedBy _

theorem blank (alike : Alike rest) (later : Spelled rest) {space : List Char} (nonempty : space ≠ [])
    (white : ∀ c ∈ space, isWhiteSpace c = true) : Alike (⟨.whitespace, Utf8.encode space⟩ :: rest) := by
  refine of_separator Kind.noConfusion rfl ((Spelled.blank nonempty white later).stops rfl) ?_
  have kept : Kept ⟨.whitespace, Utf8.encode space⟩ rest := kept_of_ne Kind.noConfusion rest
  rw [cleanText_kept Kind.noConfusion kept, cleanText_blanked Kind.noConfusion kept]
  rcases JsonToken.scan_whiteSpace fun c member => Unicode.far_of_isWhiteSpace (white c member) with skipped | refused
  · rw [skipped, skipped]
    exact alike.agree
  · rw [refused, refused]
    exact .broken _

theorem mark (alike : Alike rest) (later : Spelled rest) {c : Char} (structural : (structural? c).isSome = true) :
    Alike (⟨.punctuation, Utf8.encode [c]⟩ :: rest) := by
  have other := isWord_structural structural
  have stops := (Spelled.mark structural later).stops (by rw [reachesWord_of_ne Kind.noConfusion, other])
  refine of_separator Kind.noConfusion other stops ?_
  by_cases kept : Kept ⟨.punctuation, Utf8.encode [c]⟩ rest
  · obtain ⟨token, structural⟩ := Option.isSome_iff_exists.mp structural
    have visible : JsonToken.isBlank c = false := by
      unfold structural? at structural
      split at structural <;> first | rfl | cases structural
    rw [cleanText_kept Kind.noConfusion kept, cleanText_blanked Kind.noConfusion kept, List.singleton_append,
      List.singleton_append, JsonToken.scan_front visible (JsonToken.front?_structural structural _),
      JsonToken.scan_front visible (JsonToken.front?_structural structural _)]
    exact alike.agree.append [token]
  · obtain ⟨clean, spaced⟩ := cleanText_dropped kept
    rw [clean, spaced]
    exact alike.agree

theorem word (alike : Alike rest) {kind : Kind} {front : List Char} (visible : kind.isTrivia = false)
    (bare : kind ≠ .string) (nonempty : front ≠ []) (wordChars : ∀ c ∈ front, isWordChar c = true) :
    Alike (⟨kind, Utf8.encode front⟩ :: rest) := by
  intro word chars
  have code := ne_comment_of_visible visible
  have isWord := isWord_of_wordChars visible bare wordChars
  have kept := kept_of_isWord isWord rest
  have longer : ∀ c ∈ word ++ front, isWordChar c = true := fun c member =>
    (List.mem_append.mp member).elim (chars c) (wordChars c)
  have later := alike (word ++ front) longer
  have some_char : (word ++ front).isEmpty = false := by
    rw [Bool.eq_false_iff, List.isEmpty_iff.ne]
    exact List.append_ne_nil_of_right_ne_nil word nonempty
  rw [some_char, Bool.not_false, Bool.true_and, List.append_assoc, List.append_assoc] at later
  rw [hidesWord_of_ne code, Bool.and_false, Bool.false_or, joinsWords, isWord, Bool.true_and,
    cleanText_kept code kept, cleanText_blanked code kept]
  exact later

theorem closed (alike : Alike rest) (later : Spelled rest) {body : List Char} (enclosed : JsonToken.Enclosed body) :
    Alike (⟨.string, Utf8.encode ('"' :: (body ++ ['"']))⟩ :: rest) := by
  refine of_separator Kind.noConfusion rfl ((Spelled.closed enclosed later).stops rfl) ?_
  have kept : Kept ⟨.string, Utf8.encode ('"' :: (body ++ ['"']))⟩ rest := kept_of_ne Kind.noConfusion rest
  rw [cleanText_kept Kind.noConfusion kept, cleanText_blanked Kind.noConfusion kept]
  simp only [List.cons_append, List.append_assoc, List.nil_append]
  rcases enclosed.scan_closed with refused | ⟨value, read⟩
  · rw [refused, refused]
    exact .broken _
  · rw [read, read]
    exact alike.agree.append [.string value]

theorem unclosed (later : Spelled rest) {body tail : List Char} (enclosed : JsonToken.Enclosed body)
    (slash : tail = [] ∨ tail = ['\\'])
    (before : ∀ piece ∈ rest.head?, ∃ c space,
      piece = ⟨.whitespace, Utf8.encode (c :: space)⟩ ∧ c.toNat < 0x20) :
    Alike (⟨.string, Utf8.encode ('"' :: (body ++ tail))⟩ :: rest) := by
  refine of_separator Kind.noConfusion rfl ((Spelled.unclosed enclosed slash before later).stops rfl) ?_
  have broken {text : List Char} (control : ∀ c ∈ text.head?, c.toNat < 0x20) :
      JsonToken.scan ('"' :: (body ++ (tail ++ text))) = [.broken] := by
    rcases slash with rfl | rfl
    · exact (enclosed.scan_open control).1
    · exact (enclosed.scan_open control).2
  have control : (∀ c ∈ (cleanText rest).head?, c.toNat < 0x20) ∧
      ∀ c ∈ (cleanText (rest.map blanked)).head?, c.toNat < 0x20 := by
    cases rest with
    | nil =>
        rw [List.map_nil, cleanText_nil]
        exact ⟨fun c member => (by cases member), fun c member => (by cases member)⟩
    | cons piece rest =>
        obtain ⟨c, space, rfl, low⟩ := before piece rfl
        have kept : Kept ⟨.whitespace, Utf8.encode (c :: space)⟩ rest := kept_of_ne Kind.noConfusion rest
        rw [cleanText_kept Kind.noConfusion kept, cleanText_blanked Kind.noConfusion kept]
        exact ⟨fun d member => by cases member; exact low, fun d member => by cases member; exact low⟩
  have kept : Kept ⟨.string, Utf8.encode ('"' :: (body ++ tail))⟩ rest := kept_of_ne Kind.noConfusion rest
  rw [cleanText_kept Kind.noConfusion kept, cleanText_blanked Kind.noConfusion kept]
  simp only [List.cons_append, List.append_assoc]
  rw [broken control.1, broken control.2]
  exact .broken _

end Alike

theorem Spelled.alike {pieces : List Piece} (spelled : Spelled pieces) : Alike pieces := by
  induction spelled with
  | nil => exact .nil
  | comment text later ih => exact ih.comment later text
  | blank nonempty white later ih => exact ih.blank later nonempty white
  | mark structural later ih => exact ih.mark later structural
  | word visible bare nonempty chars later ih => exact ih.word visible bare nonempty chars
  | closed enclosed later ih => exact ih.closed later enclosed
  | unclosed enclosed slash before later ih => exact .unclosed later enclosed slash before

/-! ## Documents -/

/-- The spaced text of a document is a text. -/
theorem Spelled.spaced_encode {pieces : List Piece} (spelled : Spelled pieces) :
    ∃ text, spaced pieces = Utf8.encode text := by
  have kept {kind : Kind} {chars : List Char} {rest : List Piece} (code : kind ≠ .comment)
      (later : ∃ text, spaced rest = Utf8.encode text) :
      ∃ text, spaced (⟨kind, Utf8.encode chars⟩ :: rest) = Utf8.encode text := by
    obtain ⟨text, same⟩ := later
    exact ⟨chars ++ text, by rw [spaced_cons, blanked_of_ne code, same, Utf8.encode_append]⟩
  induction spelled with
  | nil => exact ⟨[], rfl⟩
  | comment bytes later ih =>
      obtain ⟨text, same⟩ := ih
      exact ⟨' ' :: text, by rw [spaced_cons, same, Utf8.encode_cons_ascii (by decide)]; rfl⟩
  | word visible bare nonempty chars later ih => exact kept (ne_comment_of_visible visible) ih
  | blank _ _ _ ih | mark _ _ ih | closed _ _ ih | unclosed _ _ _ _ ih => exact kept Kind.noConfusion ih

theorem bytes_withSpaces (text : String) :
    Text.bytes (withSpaces text) = spaced (piecesFrom false (Text.bytes text)) := by
  obtain ⟨chars, same⟩ := (spelled_pieces false text.toList).spaced_encode
  rw [withSpaces, cut_scan]
  change Utf8.encode (String.ofList (Utf8.decodeLossy (spaced (piecesFrom false (Text.bytes text))))).toList = _
  rw [String.toList_ofList, Text.bytes, same, Utf8.decodeLossy_encode]

theorem read_eq (text : String) :
    read text = Json.decode (Json.record fields {})
      (String.ofList (cleanText (piecesFrom false (Text.bytes text)))) := by
  rw [read, clean_eq]
  rfl

theorem read_withSpaces (text : String) :
    read (withSpaces text) = Json.decode (Json.record fields {})
      (String.ofList (cleanText ((piecesFrom false (Text.bytes text)).map blanked))) := by
  have cleaned := (prepends_spaced false (Text.bytes text)).cleaned
  rw [read_eq, bytes_withSpaces, cleanText, cleaned]
  rfl

/-- Only the tokens of a text matter to a decoder. -/
theorem decode_congr {α : Type} {decoder : Json.Decoder α} {first second : List Char} {value : α}
    (same : JsonToken.scan first = JsonToken.scan second) :
    Json.decode decoder (String.ofList first) = .ok value ↔
      Json.decode decoder (String.ofList second) = .ok value := by
  rw [Json.decode_eq_ok_iff, Json.decode_eq_ok_iff, String.toList_ofList, String.toList_ofList, same]

/-- A document with a space for each comment holds settings exactly if the document holds the same and
no comment in it joins two words. -/
theorem read_withSpaces_iff (text : String) (settings : Settings) :
    read (withSpaces text) = .ok settings ↔
      read text = .ok settings ∧
        joinsWords (Piece.cut (Text.bytes text) (scan language (Text.bytes text))) = false := by
  have agree := (spelled_pieces false text.toList).alike.agree
  rw [cut_scan]
  change _ ↔ _ ∧ joinsWords (piecesFrom false (Utf8.encode text.toList)) = false
  constructor
  · intro done
    have apart : joinsWords (piecesFrom false (Utf8.encode text.toList)) = false := by
      rw [Bool.eq_false_iff]
      intro joined
      rw [read_withSpaces] at done
      have orderly := Json.orderly_of_decode (Json.sound_record soundFields _) done
      rw [String.toList_ofList] at orderly
      exact agree.refused joined orderly
    rw [read_withSpaces] at done
    rw [read_eq]
    exact ⟨(decode_congr (agree.same apart)).mpr done, apart⟩
  · rintro ⟨done, apart⟩
    rw [read_eq] at done
    rw [read_withSpaces]
    exact (decode_congr (agree.same apart)).mp done

/-- A comment within a word is deleted and leaves the word whole; a space would break it. -/
theorem read_split_word :
    read "\x7b\"coalesce\": tr/**/ue\x7d" = .ok { coalesce := some true } ∧
      read (withSpaces "\x7b\"coalesce\": tr/**/ue\x7d") = .error .malformed := by
  decide +kernel

end CodeTint.Document
