import CodeTint.Proofs.Scan

/-!
# The scan as a reading of text

`Lexeme.Leads` says why a lexeme is the first of a text, one case for each question
that `Lexeme.first` asks. The pieces of a source are its tokens with their texts.
Where they stand does not matter to them: `pieces` cuts a text into its lexemes one
after another, given only what is known of the text before it. Facts about all
tokens of a source are inductions over this list.
-/

namespace CodeTint

namespace Lexeme

open Unicode (isWhiteSpace)

/-- The lexeme is the first of the text `b :: bs`. -/
inductive Leads (language : Language) (context : Context) (b : UInt8) (bs : Bytes) : Lexeme → Prop
  | blank (blank : Utf8.startsWith isWhiteSpace (b :: bs) = true) :
      Leads language context b bs ⟨.whitespace, Utf8.runLength isWhiteSpace (b :: bs)⟩
  | literal (visible : Utf8.startsWith isWhiteSpace (b :: bs) = false) (quote : language.isQuote b = true) :
      Leads language context b bs
        ⟨.string, (Quoted.ofFront language.tripleQuotes b (b :: bs)).length (b :: bs)⟩
  | comment (visible : Utf8.startsWith isWhiteSpace (b :: bs) = false) (quote : language.isQuote b = false)
      {lexeme : Lexeme} (found : comment? language context.lineStart (b :: bs) = some lexeme) :
      Leads language context b bs lexeme
  | number (visible : Utf8.startsWith isWhiteSpace (b :: bs) = false) (quote : language.isQuote b = false)
      (code : comment? language context.lineStart (b :: bs) = none)
      (number : Number.starts context.afterOperand (b :: bs) = true) :
      Leads language context b bs ⟨.number, Number.length (b :: bs)⟩
  | word (visible : Utf8.startsWith isWhiteSpace (b :: bs) = false) (quote : language.isQuote b = false)
      (code : comment? language context.lineStart (b :: bs) = none)
      (number : Number.starts context.afterOperand (b :: bs) = false)
      (letter : Utf8.startsWith isIdentStart (b :: bs) = true) :
      Leads language context b bs (identifier language (b :: bs))
  | mark (visible : Utf8.startsWith isWhiteSpace (b :: bs) = false) (quote : language.isQuote b = false)
      (code : comment? language context.lineStart (b :: bs) = none)
      (number : Number.starts context.afterOperand (b :: bs) = false)
      (letter : Utf8.startsWith isIdentStart (b :: bs) = false) (mark : Byte.isMark b = true) :
      Leads language context b bs (Lexeme.mark language (b :: bs))
  | plain (visible : Utf8.startsWith isWhiteSpace (b :: bs) = false) (quote : language.isQuote b = false)
      (code : comment? language context.lineStart (b :: bs) = none)
      (number : Number.starts context.afterOperand (b :: bs) = false)
      (letter : Utf8.startsWith isIdentStart (b :: bs) = false) (mark : Byte.isMark b = false) :
      Leads language context b bs ⟨.plaintext, Utf8.width (b :: bs)⟩

theorem first_leads (language : Language) (context : Context) (b : UInt8) (bs : Bytes) :
    Leads language context b bs (first language context b bs) := by
  unfold first
  dsimp only
  split
  · rename_i blank
    exact .blank blank
  rename_i visible
  rw [Bool.not_eq_true] at visible
  split
  · rename_i quote
    exact .literal visible quote
  rename_i quote
  rw [Bool.not_eq_true] at quote
  split
  · rename_i found
    exact .comment visible quote found
  rename_i code
  split
  · rename_i number
    exact .number visible quote code number
  rename_i number
  rw [Bool.not_eq_true] at number
  split
  · rename_i letter
    exact .word visible quote code number letter
  rename_i letter
  rw [Bool.not_eq_true] at letter
  split
  · rename_i mark
    exact .mark visible quote code number letter mark
  · rename_i mark
    rw [Bool.not_eq_true] at mark
    exact .plain visible quote code number letter mark

theorem Leads.first_eq {language : Language} {context : Context} {b : UInt8} {bs : Bytes} {lexeme : Lexeme}
    (leads : Leads language context b bs lexeme) : first language context b bs = lexeme := by
  unfold first
  dsimp only
  cases leads with
  | blank blank => rw [if_pos blank]
  | literal visible quote => rw [visible, if_neg Bool.false_ne_true, if_pos quote]
  | comment visible quote found =>
      rw [visible, if_neg Bool.false_ne_true, quote, if_neg Bool.false_ne_true, found]
  | number visible quote code number =>
      rw [visible, if_neg Bool.false_ne_true, quote, if_neg Bool.false_ne_true, code]
      exact if_pos number
  | word visible quote code number letter =>
      rw [visible, if_neg Bool.false_ne_true, quote, if_neg Bool.false_ne_true, code]
      dsimp only
      rw [number, if_neg Bool.false_ne_true, if_pos letter]
  | mark visible quote code number letter mark =>
      rw [visible, if_neg Bool.false_ne_true, quote, if_neg Bool.false_ne_true, code]
      dsimp only
      rw [number, if_neg Bool.false_ne_true, letter, if_neg Bool.false_ne_true, if_pos mark]
  | plain visible quote code number letter mark =>
      rw [visible, if_neg Bool.false_ne_true, quote, if_neg Bool.false_ne_true, code]
      dsimp only
      rw [number, if_neg Bool.false_ne_true, letter, if_neg Bool.false_ne_true, mark,
        if_neg Bool.false_ne_true]

theorem comment?_kind {language : Language} {lineStart : Bool} {rest : Bytes} {lexeme : Lexeme}
    (found : comment? language lineStart rest = some lexeme) : lexeme.kind = .comment := by
  unfold comment? at found
  split at found
  · cases found
    rfl
  · obtain ⟨mark, _, rfl⟩ := Option.map_eq_some_iff.mp found
    rfl

theorem identifier_kind (language : Language) (rest : Bytes) :
    (identifier language rest).kind = .keyword ∨ (identifier language rest).kind = .ident := by
  unfold identifier
  dsimp only
  split
  · exact .inl rfl
  · exact .inr rfl

theorem mark_kind (language : Language) (rest : Bytes) :
    (mark language rest).kind = .operator ∨ (mark language rest).kind = .punctuation := by
  unfold mark
  split
  · exact .inl rfl
  · exact .inr rfl

/-- What a text starts with whose first lexeme is of the kind. -/
structure Begins (language : Language) (context : Context) (b : UInt8) (bs : Bytes) (kind : Kind) : Prop where
  whitespace : kind = .whitespace → Utf8.startsWith isWhiteSpace (b :: bs) = true := by nofun
  string : kind = .string → language.isQuote b = true := by nofun
  number : kind = .number → Number.starts context.afterOperand (b :: bs) = true := by nofun
  ident : kind = .ident → Utf8.startsWith isIdentStart (b :: bs) = true := by nofun
  keyword : kind = .keyword → Utf8.startsWith isIdentStart (b :: bs) = true := by nofun

theorem Leads.begins {language : Language} {context : Context} {b : UInt8} {bs : Bytes} {lexeme : Lexeme}
    (leads : Leads language context b bs lexeme) : Begins language context b bs lexeme.kind := by
  cases leads with
  | blank blank => exact { whitespace := fun _ => blank }
  | literal visible quote => exact { string := fun _ => quote }
  | comment visible quote found =>
      rw [comment?_kind found]
      exact {}
  | number visible quote code number => exact { number := fun _ => number }
  | word visible quote code number letter =>
      rcases identifier_kind language (b :: bs) with kind | kind
      · rw [kind]
        exact { keyword := fun _ => letter }
      · rw [kind]
        exact { ident := fun _ => letter }
  | mark =>
      rcases mark_kind language (b :: bs) with kind | kind
      · rw [kind]
        exact {}
      · rw [kind]
        exact {}
  | plain => exact {}

end Lexeme

/-- What is known behind a piece of text. -/
def Context.after (context : Context) (piece : Piece) : Context :=
  ⟨if piece.kind.isTrivia then context.afterOperand else endsOperand piece.kind piece.text,
    Bytes.endsLine piece.text⟩

/-- The lexemes of a text, each with its bytes. -/
def pieces (language : Language) (context : Context) (text : Bytes) : List Piece :=
  match text with
  | [] => []
  | b :: bs =>
      let lexeme := Lexeme.first language context b bs
      let piece : Piece := ⟨lexeme.kind, (b :: bs).take lexeme.length⟩
      piece :: pieces language (context.after piece) ((b :: bs).drop lexeme.length)
termination_by text.length
decreasing_by
  have progress := Lexeme.first_length_pos language context b bs
  simp only [List.length_drop, List.length_cons]
  omega

theorem pieces_nil (language : Language) (context : Context) : pieces language context [] = [] := by
  rw [pieces]

/-- The first lexeme of a text is its first piece. -/
theorem pieces_cons {language : Language} {context : Context} {b : UInt8} {bs : Bytes} {kind : Kind}
    {length : Nat} (first : Lexeme.first language context b bs = ⟨kind, length⟩) :
    pieces language context (b :: bs) =
      ⟨kind, (b :: bs).take length⟩ ::
        pieces language (context.after ⟨kind, (b :: bs).take length⟩) ((b :: bs).drop length) := by
  rw [pieces, first]

/-- A lexeme with more text behind it. -/
theorem pieces_append {language : Language} {context : Context} {b : UInt8} {text rest : Bytes} {kind : Kind}
    (first : Lexeme.first language context b (text ++ rest) = ⟨kind, (b :: text).length⟩) :
    pieces language context (b :: text ++ rest) =
      ⟨kind, b :: text⟩ :: pieces language (context.after ⟨kind, b :: text⟩) rest := by
  rw [List.cons_append, pieces_cons first, ← List.cons_append, List.take_left, List.drop_left]

/-- The first piece of a text is a lexeme of the text, and the others are those of the rest. -/
theorem pieces_eq_cons {language : Language} {context : Context} {text : Bytes} {piece : Piece}
    {others : List Piece} (cut : pieces language context text = piece :: others) :
    ∃ b front rest, piece.text = b :: front ∧ text = b :: front ++ rest ∧
      Lexeme.first language context b (front ++ rest) = ⟨piece.kind, (b :: front).length⟩ ∧
      others = pieces language (context.after piece) rest := by
  cases text with
  | nil =>
      rw [pieces_nil] at cut
      cases cut
  | cons b bs =>
      have positive := Lexeme.first_length_pos language context b bs
      have fits := (Lexeme.first_cut language context b bs).fits
      generalize firstEq : Lexeme.first language context b bs = lexeme at positive fits
      obtain ⟨kind, length⟩ := lexeme
      rw [pieces_cons firstEq] at cut
      cases cut
      cases length with
      | zero => cases positive
      | succ length =>
          refine ⟨b, bs.take length, bs.drop length, rfl, ?_, ?_, rfl⟩
          · rw [List.cons_append, List.take_append_drop]
          · rw [List.take_append_drop, firstEq, List.length_cons, List.length_take,
              Nat.min_eq_left (Nat.le_of_succ_le_succ fits)]

/-- The tokens of a run, with the texts they cut off the rest. -/
theorem Cursor.cut_run (language : Language) (cursor : Cursor) :
    Piece.cut cursor.rest ((cursor.run language).map Prod.fst) =
      pieces language cursor.context cursor.rest := by
  fun_induction Cursor.run language cursor with
  | case1 cursor read =>
      cases here : cursor.rest with
      | nil =>
          rw [pieces_nil]
          rfl
      | cons b bs =>
          rw [next?_cons language here] at read
          cases read
  | case2 cursor token after found ih =>
      obtain ⟨b, bs, lexeme, here, lexemeEq, rfl, rfl⟩ := next?_eq_some found
      have length : Token.length ⟨lexeme.kind, cursor.offset, cursor.offset + lexeme.length⟩ =
          lexeme.length := Nat.add_sub_cancel_left _ _
      rw [List.map_cons, Piece.cut, length]
      change (_ :: Piece.cut (cursor.advance lexeme).rest _) = _
      rw [ih]
      change _ :: pieces language (cursor.context.after ⟨lexeme.kind, cursor.rest.take lexeme.length⟩)
        (cursor.rest.drop lexeme.length) = _
      rw [here, ← pieces_cons lexemeEq.symm]

/-- The tokens of a source with their texts are the pieces of the source. -/
theorem scan_pieces (language : Language) (source : Bytes) :
    (scan language source).map (Piece.ofToken source) = pieces language ⟨false, true⟩ source := by
  rw [← Piece.cut_eq_map_ofToken (scan_covers language source)]
  exact Cursor.cut_run language (.start source)

theorem cut_scan (language : Language) (source : Bytes) :
    Piece.cut source (scan language source) = pieces language ⟨false, true⟩ source :=
  Cursor.cut_run language (.start source)

end CodeTint
