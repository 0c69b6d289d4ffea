import CodeTint.Proofs.Document
import CodeTint.Proofs.JsonScan

/-!
# Settings documents in characters

The pieces of a document end between characters, and each is of one of a few sorts:
a comment, white space, a structural character of JSON, a string literal, or a word,
which has none of the characters that end words in JSON. A literal without its
closing quote stands at the end of the document or before a line break.
-/

namespace CodeTint.Document

open JsonToken (Enclosed isWordChar structural?)
open Unicode (isWhiteSpace)

/-- The pieces are spelled as those of a document are. -/
inductive Spelled : List Piece → Prop
  | nil : Spelled []
  | comment (text : Bytes) {rest : List Piece} : Spelled rest → Spelled (⟨.comment, text⟩ :: rest)
  | blank {space : List Char} {rest : List Piece} (nonempty : space ≠ [])
      (white : ∀ c ∈ space, isWhiteSpace c = true) :
      Spelled rest → Spelled (⟨.whitespace, Utf8.encode space⟩ :: rest)
  | mark {c : Char} {rest : List Piece} (structural : (structural? c).isSome = true) :
      Spelled rest → Spelled (⟨.punctuation, Utf8.encode [c]⟩ :: rest)
  | word {kind : Kind} {word : List Char} {rest : List Piece} (visible : kind.isTrivia = false)
      (bare : kind ≠ .string) (nonempty : word ≠ []) (chars : ∀ c ∈ word, isWordChar c = true) :
      Spelled rest → Spelled (⟨kind, Utf8.encode word⟩ :: rest)
  | closed {body : List Char} {rest : List Piece} (enclosed : Enclosed body) :
      Spelled rest → Spelled (⟨.string, Utf8.encode ('"' :: (body ++ ['"']))⟩ :: rest)
  /-- The backslash of a cut escape may stand at the end. -/
  | unclosed {body tail : List Char} {rest : List Piece} (enclosed : Enclosed body)
      (slash : tail = [] ∨ tail = ['\\'])
      (before : ∀ piece ∈ rest.head?, ∃ c space,
        piece = ⟨.whitespace, Utf8.encode (c :: space)⟩ ∧ c.toNat < 0x20) :
      Spelled rest → Spelled (⟨.string, Utf8.encode ('"' :: (body ++ tail))⟩ :: rest)

/-! ## Characters of pieces -/

/-- The first piece of a text, which is the first lexeme of its bytes. -/
structure Fronts (afterOperand : Bool) (text left right : List Char) (lexeme : Lexeme) : Prop where
  whole : text = left ++ right
  nonempty : left ≠ []
  leads : ∃ b bs, Utf8.encode text = b :: bs ∧ Lexeme.Leads language ⟨afterOperand, true⟩ b bs lexeme
  length : lexeme.length = (Utf8.encode left).length

theorem exists_fronts (afterOperand : Bool) {text : List Char} (nonempty : text ≠ []) :
    ∃ left right lexeme, Fronts afterOperand text left right lexeme := by
  obtain ⟨b, bs, here, _⟩ := Utf8.encode_head nonempty
  have cut := Lexeme.first_cut language ⟨afterOperand, true⟩ b bs
  have positive := Lexeme.first_length_pos language ⟨afterOperand, true⟩ b bs
  have leads := Lexeme.first_leads language ⟨afterOperand, true⟩ b bs
  rw [← here] at cut
  obtain ⟨left, right, whole, length⟩ := cut.whole.split_encode cut.fits
  refine ⟨left, right, _, whole, ?_, ⟨b, bs, here, leads⟩, length.symm⟩
  rintro rfl
  rw [← length] at positive
  cases positive

theorem Fronts.pieces {afterOperand : Bool} {text left right : List Char} {lexeme : Lexeme}
    (fronts : Fronts afterOperand text left right lexeme) :
    piecesFrom afterOperand (Utf8.encode text) =
      ⟨lexeme.kind, Utf8.encode left⟩ ::
        piecesFrom (operandAfter afterOperand ⟨lexeme.kind, Utf8.encode left⟩) (Utf8.encode right) := by
  obtain ⟨b, bs, here, leads⟩ := fronts.leads
  obtain ⟨c, front, same, _⟩ := Utf8.encode_head fronts.nonempty
  have bytes : b :: bs = c :: (front ++ Utf8.encode right) := by
    rw [← here, fronts.whole, Utf8.encode_append, same, List.cons_append]
  cases bytes
  have length := fronts.length
  rw [same] at length
  rw [here, same]
  exact piecesFrom_append (leads.first_eq.trans (by rw [← length]))

/-! ## Words -/

/-- The blanks, the structural characters and the quote. -/
def wordBreaks : List Char :=
  [' ', '\t', '\n', '\r', '\x7b', '\x7d', '[', ']', ':', ',', '"']

theorem isWordChar_of_not_mem {c : Char} (other : c ∉ wordBreaks) : isWordChar c = true := by
  simp only [wordBreaks, List.mem_cons, List.not_mem_nil, or_false, not_or] at other
  refine JsonToken.isWordChar_iff.mpr ⟨?_, ?_, other.2.2.2.2.2.2.2.2.2.2⟩
  · simp [JsonToken.isBlank, other]
  · unfold structural?
    split <;> first | rfl | simp at other

theorem isWordChar_of_isIdentContinue {c : Char} (continues : Lexeme.isIdentContinue c = true) :
    isWordChar c = true := by
  have stop : wordBreaks.all (fun d => !Lexeme.isIdentContinue d) = true := by decide +kernel
  refine isWordChar_of_not_mem fun member => ?_
  have stopped := List.all_eq_true.mp stop c member
  rw [continues] at stopped
  cases stopped

/-- A text none of whose bytes ends words is a word. -/
theorem isWordChar_of_not_endsWord {text : List Char}
    (none : ∀ b ∈ Utf8.encode text, Byte.endsWord b = false) : ∀ c ∈ text, isWordChar c = true := by
  intro c inside
  have ends : wordBreaks.all (fun d => d.toNat < 0x80 && Byte.endsWord (Byte.ofChar d)) = true := by decide
  refine isWordChar_of_not_mem fun member => ?_
  have here := List.all_eq_true.mp ends c member
  rw [Bool.and_eq_true, decide_eq_true_eq] at here
  have listed : Byte.ofChar c ∈ Utf8.encode text := by
    refine List.mem_flatMap.mpr ⟨c, inside, ?_⟩
    rw [← Utf8.encode_singleton, Utf8.encode_cons_ascii here.1]
    exact List.mem_cons_self
  rw [none _ listed] at here
  cases here.2

/-! ## Literals -/

/-- How the search for the closing quote ends in a text. -/
inductive Ends : List Char → Quoted.Extent → Prop
  | quote {body after : List Char} (enclosed : Enclosed body) :
      Ends (body ++ '"' :: after) ⟨(Utf8.encode body).length + 1, false⟩
  | line {body after : List Char} (enclosed : Enclosed body) :
      Ends (body ++ '\n' :: after) ⟨(Utf8.encode body).length, true⟩
  | text {body tail : List Char} (enclosed : Enclosed body) (slash : tail = [] ∨ tail = ['\\']) :
      Ends (body ++ tail) ⟨(Utf8.encode (body ++ tail)).length, false⟩

/-- Characters passed by the search. -/
theorem Ends.after (front : List Char) {body : List Char} {extent : Quoted.Extent} (ends : Ends body extent)
    (step : ∀ body, Enclosed body → Enclosed (front ++ body)) :
    Ends (front ++ body) (extent.after (Utf8.encode front).length) := by
  unfold Quoted.Extent.after
  cases ends with
  | quote enclosed =>
      rw [← List.append_assoc, ← Nat.add_assoc, ← List.length_append, ← Utf8.encode_append]
      exact .quote (step _ enclosed)
  | line enclosed =>
      rw [← List.append_assoc, ← List.length_append, ← Utf8.encode_append]
      exact .line (step _ enclosed)
  | text enclosed slash =>
      rw [← List.length_append, ← Utf8.encode_append, ← List.append_assoc]
      exact .text (step _ enclosed) slash

theorem extent_escaped (d : Char) (rest : Bytes) :
    literal.extent (Utf8.encode ['\\', d] ++ rest) =
      (literal.extent rest).after (Utf8.encode ['\\', d]).length := by
  obtain ⟨lead, tail, bytes, _, continued, _⟩ := (Utf8.sequence_encodeChar d).lead_tail
  have plain : ∀ b ∈ tail, literal.stops b = false := by
    intro b member
    rw [Bool.eq_false_iff]
    intro stops
    have ascii := Quoted.ascii_of_stops (by decide) stops
    have high := (Utf8.isContinuation_iff b).mp (continued b member)
    omega
  have spelled : Utf8.encode ['\\', d] = Byte.backslash :: lead :: tail := by
    rw [Utf8.encode_cons_ascii (by decide), Utf8.encode_singleton, bytes]
    rfl
  rw [spelled, List.cons_append, List.cons_append, Quoted.extent_escape_cons,
    Quoted.extent_append_plain plain]
  simp only [Quoted.Extent.after, List.length_cons, Quoted.Extent.mk.injEq, and_true]
  omega

theorem ends_extent : ∀ body : List Char, Ends body (literal.extent (Utf8.encode body))
  | [] => (Quoted.extent_empty literal) ▸ .text .nil (.inl rfl)
  | c :: body => by
      by_cases slash : c = '\\'
      · subst slash
        cases body with
        | nil => exact (Quoted.extent_open_escape literal) ▸ .text .nil (.inr rfl)
        | cons d body =>
            have later := (ends_extent body).after ['\\', d] fun _ => .escape d
            rwa [← extent_escaped, ← Utf8.encode_append] at later
      by_cases quote : c = '"'
      · subst quote
        rw [Utf8.encode_cons_ascii (by decide), Quoted.extent_stop (by decide)]
        exact .quote .nil
      by_cases feed : c = '\n'
      · subst feed
        rw [Utf8.encode_cons_ascii (by decide), Quoted.extent_stop (by decide)]
        exact .line .nil
      have plain : ∀ b ∈ Utf8.encode [c], literal.stops b = false := by
        intro b member
        rw [Utf8.encode_singleton] at member
        exact not_stops_of_plain quote slash feed b member
      have later := (ends_extent body).after [c] fun _ => .plain quote slash
      rwa [← Quoted.extent_append_plain plain, ← Utf8.encode_append] at later

/-- The last character of an enclosed text may be half of an escape. -/
theorem enclosed_of_concat {body : List Char} {c : Char} (enclosed : Enclosed (body ++ [c])) :
    ∃ inner tail, body = inner ++ tail ∧ (tail = [] ∨ tail = ['\\']) ∧ Enclosed inner := by
  generalize whole : body ++ [c] = text at enclosed
  induction enclosed generalizing body with
  | nil => exact absurd whole (by simp)
  | @plain d text quote slash rest ih =>
      cases body with
      | nil => exact ⟨[], [], rfl, .inl rfl, .nil⟩
      | cons e body =>
          cases whole
          obtain ⟨inner, tail, rfl, half, enclosed⟩ := ih rfl
          exact ⟨d :: inner, tail, rfl, half, .plain quote slash enclosed⟩
  | @escape d text rest ih =>
      match body, whole with
      | [_], whole =>
          cases whole
          exact ⟨[], ['\\'], rfl, .inr rfl, .nil⟩
      | _ :: _ :: _, whole =>
          cases whole
          obtain ⟨inner, tail, rfl, half, enclosed⟩ := ih rfl
          exact ⟨'\\' :: d :: inner, tail, rfl, half, .escape d enclosed⟩

theorem concat_of_getLast?_encode {text : List Char} {c : Char} (ascii : c.toNat < 0x80)
    (last : (Utf8.encode text).getLast? = some (Byte.ofChar c)) : ∃ front, text = front ++ [c] := by
  rcases List.eq_nil_or_concat text with rfl | ⟨front, d, rfl⟩
  · cases last
  · rw [List.concat_eq_append, Utf8.encode_append, Utf8.encode_singleton] at last
    obtain ⟨lead, tail, bytes, _⟩ := (Utf8.sequence_encodeChar d).lead_tail
    rw [bytes, List.getLast?_append_cons, ← bytes] at last
    have member := List.mem_of_getLast? last
    have code : (Byte.ofChar c).toNat = c.toNat := Utf8.toNat_byte (by omega)
    have same := (Utf8.sequence_encodeChar d).toNat_of_mem member (by omega)
    rw [code] at same
    exact ⟨front, by rw [List.concat_eq_append, Char.toNat_inj.mp same]⟩

/-- A literal and the text behind it. -/
inductive Literal : List Char → List Char → Prop
  | closed {body : List Char} (enclosed : Enclosed body) (right : List Char) :
      Literal ('"' :: (body ++ ['"'])) right
  | unclosed {body tail right : List Char} (enclosed : Enclosed body) (slash : tail = [] ∨ tail = ['\\'])
      (before : ∀ c ∈ right.head?, c = '\n' ∨ c = '\r') : Literal ('"' :: (body ++ tail)) right

theorem literal_split (body : List Char) :
    ∃ left right, '"' :: body = left ++ right ∧ Literal left right ∧
      literal.length (0x22 :: Utf8.encode body) = (Utf8.encode left).length := by
  have opened (text : List Char) : (Utf8.encode ('"' :: text)).length = 1 + (Utf8.encode text).length := by
    rw [Utf8.encode_cons_ascii (by decide), List.length_cons, Nat.add_comm]
  have ends := ends_extent body
  rw [literal_length]
  generalize literal.extent (Utf8.encode body) = extent at ends ⊢
  cases ends with
  | @quote inner after enclosed =>
      have closing : (Utf8.encode (inner ++ ['"'])).length = (Utf8.encode inner).length + 1 := by
        rw [Utf8.encode_append, List.length_append]
        rfl
      refine ⟨_, after, ?_, .closed enclosed after, ?_⟩
      · simp
      · rw [opened, closing]
        rfl
  | @line inner after enclosed =>
      rw [Utf8.encode_append, List.take_left, Bool.true_and]
      split
      · rename_i back
        obtain ⟨front, rfl⟩ := concat_of_getLast?_encode (c := '\r') (by decide) (eq_of_beq back)
        -- The return that is given back may be the second half of an escape.
        obtain ⟨inner, tail, rfl, slash, enclosed⟩ := enclosed_of_concat enclosed
        refine ⟨_, '\r' :: '\n' :: after, ?_, .unclosed enclosed slash ?_, ?_⟩
        · simp
        · intro c member
          cases member
          exact .inr rfl
        · rw [opened, Utf8.encode_append _ ['\r'], List.length_append]
          rfl
      · refine ⟨_, '\n' :: after, ?_, .unclosed enclosed (.inl rfl) ?_, ?_⟩
        · simp
        · intro c member
          cases member
          exact .inl rfl
        · rw [opened, List.append_nil]
  | @text inner tail enclosed slash =>
      refine ⟨_, [], ?_, .unclosed enclosed slash ?_, ?_⟩
      · simp
      · intro c member
        cases member
      · rw [opened]
        rfl

/-! ## All pieces -/

namespace Fronts

variable {afterOperand : Bool} {c : Char} {text left right : List Char} {lexeme : Lexeme}

/-- A lexeme that is not longer than the first character is that character. -/
theorem eq_singleton (fronts : Fronts afterOperand (c :: text) left right lexeme)
    (short : lexeme.length ≤ (String.utf8EncodeChar c).length) : left = [c] := by
  obtain ⟨d, more, rfl⟩ := List.exists_cons_of_ne_nil fronts.nonempty
  cases fronts.whole
  have length := fronts.length
  rw [Utf8.encode_cons, List.length_append] at length
  cases more with
  | nil => rfl
  | cons e more =>
      obtain ⟨b, bs, same, _⟩ := Utf8.encode_head (List.cons_ne_nil e more)
      rw [same, List.length_cons] at length
      omega

/-- The lexeme and what is left are those of any other cut of the same length. -/
theorem eq_of_length (fronts : Fronts afterOperand text left right lexeme) {front rest : List Char}
    (split : text = front ++ rest) (length : lexeme.length = (Utf8.encode front).length) :
    left = front ∧ right = rest := by
  have bytes := congrArg Utf8.encode (fronts.whole.symm.trans split)
  rw [Utf8.encode_append, Utf8.encode_append] at bytes
  have same := (List.append_inj bytes (fronts.length.symm.trans length)).1
  have chars := congrArg Utf8.decodeLossy same
  rw [Utf8.decodeLossy_encode, Utf8.decodeLossy_encode] at chars
  subst chars
  exact ⟨rfl, List.append_cancel_left (fronts.whole.symm.trans split)⟩

end Fronts

theorem isWordChar_of_visible {c : Char} (visible : isWhiteSpace c = false) (quote : c ≠ '"')
    (structural : structural? c = none) : isWordChar c = true := by
  refine JsonToken.isWordChar_iff.mpr ⟨?_, structural, quote⟩
  rw [Bool.eq_false_iff]
  intro blank
  simp only [JsonToken.isBlank, Bool.or_eq_true, beq_iff_eq] at blank
  rcases blank with ((rfl | rfl) | rfl) | rfl
  · exact absurd visible (by decide)
  · exact absurd visible (by decide)
  · exact absurd visible (by decide)
  · exact absurd visible (by decide)

theorem isMark_of_structural {c : Char} (structural : (structural? c).isSome = true) :
    c.toNat < 0x80 ∧ Byte.isMark (Byte.ofChar c) = true := by
  unfold structural? at structural
  split at structural <;> first | decide | cases structural

/-- A character that is a piece by itself is a word or a structural character. -/
theorem Spelled.single {c : Char} {kind : Kind} {rest : List Piece} (later : Spelled rest)
    (visible : isWhiteSpace c = false) (quote : c ≠ '"') (trivia : kind.isTrivia = false) (bare : kind ≠ .string)
    (punctuation : (structural? c).isSome = true → kind = .punctuation) :
    Spelled (⟨kind, Utf8.encode [c]⟩ :: rest) := by
  cases structural : structural? c with
  | some token =>
      have marked : (structural? c).isSome = true := by rw [structural]; rfl
      rw [punctuation marked]
      exact .mark marked later
  | none =>
      refine .word trivia bare (List.cons_ne_nil c []) (fun d member => ?_) later
      rw [List.mem_singleton.mp member]
      exact isWordChar_of_visible visible quote structural

/-- A line break is read as white space. -/
theorem head_of_lineBreak (afterOperand : Bool) {right : List Char}
    (before : ∀ c ∈ right.head?, c = '\n' ∨ c = '\r') :
    ∀ piece ∈ (piecesFrom afterOperand (Utf8.encode right)).head?, ∃ c space,
      piece = ⟨.whitespace, Utf8.encode (c :: space)⟩ ∧ c.toNat < 0x20 := by
  intro piece member
  cases right with
  | nil =>
      rw [show Utf8.encode [] = [] from rfl, piecesFrom_nil] at member
      cases member
  | cons c right =>
      have white : Utf8.startsWith isWhiteSpace (Utf8.encode (c :: right)) = true := by
        rw [Utf8.startsWith_encode_cons]
        rcases before c rfl with rfl | rfl <;> decide
      obtain ⟨left, rest, lexeme, fronts⟩ := exists_fronts afterOperand (List.cons_ne_nil c right)
      obtain ⟨b, bs, here, leads⟩ := fronts.leads
      rw [here] at white
      have lexeme_eq := leads.first_eq.symm.trans (Lexeme.Leads.blank white).first_eq
      obtain ⟨d, space, rfl⟩ := List.exists_cons_of_ne_nil fronts.nonempty
      rw [fronts.pieces, lexeme_eq] at member
      cases member
      refine ⟨d, space, rfl, ?_⟩
      cases fronts.whole
      rcases before c rfl with rfl | rfl <;> decide

/-- The first piece is of one of the sorts, and the others are if the rest is spelled so. -/
theorem Fronts.spelled {afterOperand : Bool} {text left right : List Char} {lexeme : Lexeme}
    (fronts : Fronts afterOperand text left right lexeme) (after : Bool)
    (later : Spelled (piecesFrom after (Utf8.encode right))) :
    Spelled (⟨lexeme.kind, Utf8.encode left⟩ :: piecesFrom after (Utf8.encode right)) := by
  have nonempty := fronts.nonempty
  have length := fronts.length
  obtain ⟨c, text, rfl⟩ : ∃ c rest, text = c :: rest := by
    rw [fronts.whole]
    obtain ⟨c, front, rfl⟩ := List.exists_cons_of_ne_nil nonempty
    exact ⟨c, front ++ right, rfl⟩
  obtain ⟨b, bs, here, leads⟩ := fronts.leads
  have seen (visible : Utf8.startsWith isWhiteSpace (b :: bs) = false) : isWhiteSpace c = false := by
    rwa [← here, Utf8.startsWith_encode_cons] at visible
  have unquoted (quote : language.isQuote b = false) : c ≠ '"' := by
    rintro rfl
    rw [Utf8.encode_cons_ascii (by decide)] at here
    cases here
    exact absurd quote (by decide)
  cases leads with
  | blank blank =>
      rw [← here, fronts.whole] at length
      exact .blank nonempty (Utf8.isMember_of_runLength_encode length) later
  | literal visible quote =>
      rw [isQuote_eq, beq_iff_eq] at quote
      subst quote
      obtain ⟨code, rfl⟩ := Utf8.of_encode_cons_ascii here (by decide)
      obtain rfl : c = '"' := Char.toNat_inj.mp code
      obtain ⟨front, rest, split, shape, cut⟩ := literal_split text
      obtain ⟨rfl, rfl⟩ := fronts.eq_of_length split cut
      cases shape with
      | closed enclosed => exact .closed enclosed later
      | unclosed enclosed slash before =>
          exact .unclosed enclosed slash (head_of_lineBreak after before) later
  | comment visible quote found =>
      rw [Lexeme.comment?_kind found]
      exact .comment _ later
  | number visible quote code number =>
      have bytes : Utf8.encode left = (b :: bs).take (Number.length (b :: bs)) := by
        dsimp only at length
        rw [length, ← here, fronts.whole, Utf8.encode_append, List.take_left]
      refine .word rfl Kind.noConfusion nonempty (isWordChar_of_not_endsWord fun d member => ?_) later
      rw [bytes] at member
      exact Number.not_endsWord_of_mem member
  | word visible quote code number letter =>
      rw [identifier_eq, ← here, fronts.whole] at length
      refine .word rfl Kind.noConfusion nonempty (fun d member => ?_) later
      exact isWordChar_of_isIdentContinue (Utf8.isMember_of_runLength_encode length d member)
  | mark visible quote code number letter mark =>
      rw [mark_eq]
      obtain rfl : left = [c] := fronts.eq_singleton (by rw [mark_eq]; exact Utf8.encodeChar_length_pos c)
      exact later.single (seen visible) (unquoted quote) rfl Kind.noConfusion fun _ => rfl
  | plain visible quote code number letter mark =>
      obtain rfl : left = [c] :=
        fronts.eq_singleton (by rw [← here]; exact Nat.le_of_eq (Utf8.width_encode_cons c text))
      refine later.single (seen visible) (unquoted quote) rfl Kind.noConfusion fun structural => ?_
      -- A structural character is a mark, and marks are no plain text.
      obtain ⟨ascii, marked⟩ := isMark_of_structural structural
      rw [Utf8.encode_cons_ascii ascii] at here
      cases here
      rw [mark] at marked
      cases marked

theorem spelled_pieces (afterOperand : Bool) (text : List Char) :
    Spelled (piecesFrom afterOperand (Utf8.encode text)) := by
  induction length : text.length using Nat.strongRecOn generalizing afterOperand text with
  | _ n ih =>
      by_cases nonempty : text = []
      · subst nonempty
        rw [show Utf8.encode [] = [] from rfl, piecesFrom_nil]
        exact .nil
      obtain ⟨left, right, lexeme, fronts⟩ := exists_fronts afterOperand nonempty
      rw [fronts.pieces]
      refine fronts.spelled _ (ih right.length ?_ _ right rfl)
      have positive := List.length_pos_iff.mpr fronts.nonempty
      rw [← length, fronts.whole, List.length_append]
      omega

end CodeTint.Document
