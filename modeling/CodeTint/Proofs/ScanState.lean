import CodeTint.Proofs.Kinds

/-!
# What a scan recalls

Between two tokens a cursor keeps the kind of the last token that is not trivia, and
whether that token can end an operand. Both are set by the token just read and used
at a later one, behind any number of blanks and comments. `Recalls` ties them to the
tokens read so far. Every step keeps it, so it holds after any number of steps; it
says whether a dot can start a number.
-/

namespace CodeTint

/-- The last of the tokens that is neither white space nor a comment. -/
def lastSignificant? (tokens : List Token) : Option Token :=
  (tokens.filter fun token => token.kind ≠ .whitespace ∧ token.kind ≠ .comment).getLast?

theorem lastSignificant?_concat_trivia {token : Token} (trivia : token.kind.isTrivia = true)
    (tokens : List Token) : lastSignificant? (tokens ++ [token]) = lastSignificant? tokens := by
  rcases Kind.isTrivia_iff.mp trivia with kind | kind
  · simp [lastSignificant?, kind]
  · simp [lastSignificant?, kind]

theorem lastSignificant?_concat {token : Token} (significant : token.kind.isTrivia = false)
    (tokens : List Token) : lastSignificant? (tokens ++ [token]) = some token := by
  have other : token.kind ≠ .whitespace ∧ token.kind ≠ .comment := by
    rw [← not_or, ← Kind.isTrivia_iff, significant]
    exact Bool.false_ne_true
  simp [lastSignificant?, other]

/-! ## Operands -/

/-- A dot behind the piece is a member access. -/
inductive Piece.EndsOperand : Piece → Prop
  | ident (text : Bytes) : EndsOperand ⟨.ident, text⟩
  | number (text : Bytes) : EndsOperand ⟨.number, text⟩
  | string (text : Bytes) : EndsOperand ⟨.string, text⟩
  | bracket {b : UInt8} (closing : Byte.isClosingBracket b = true) : EndsOperand ⟨.punctuation, [b]⟩
  | keyword {text : Bytes}
      (other : ∀ word ∈ expressionKeywords, text.map Byte.lower ≠ word.map Byte.lower) :
      EndsOperand ⟨.keyword, text⟩

/-- The words are listed in lower case, so both sides may be lowered. -/
theorem isExpressionKeyword_iff (text : Bytes) :
    isExpressionKeyword text = true ↔
      ∃ word ∈ expressionKeywords, text.map Byte.lower = word.map Byte.lower := by
  have lowered : ∀ word ∈ expressionKeywords, word.map Byte.lower = word := by decide
  unfold isExpressionKeyword
  rw [List.contains_iff_mem]
  constructor
  · intro listed
    exact ⟨_, listed, (lowered _ listed).symm⟩
  · rintro ⟨word, listed, same⟩
    rw [same, lowered word listed]
    exact listed

theorem endsOperand_iff {kind : Kind} {text : Bytes} (single : kind = .punctuation → ∃ b, text = [b]) :
    endsOperand kind text = true ↔ Piece.EndsOperand ⟨kind, text⟩ := by
  cases kind with
  | ident => exact iff_of_true rfl (.ident text)
  | number => exact iff_of_true rfl (.number text)
  | string => exact iff_of_true rfl (.string text)
  | keyword =>
      rw [endsOperand, Bool.not_eq_true', Bool.eq_false_iff, ne_eq, isExpressionKeyword_iff]
      constructor
      · intro other
        exact .keyword fun word listed same => other ⟨word, listed, same⟩
      · intro ends
        cases ends with
        | keyword other =>
            rintro ⟨word, listed, same⟩
            exact other word listed same
  | punctuation =>
      obtain ⟨b, rfl⟩ := single rfl
      constructor
      · exact .bracket
      · intro ends
        cases ends with
        | bracket closing => exact closing
  | whitespace | comment | operator | plaintext =>
      refine iff_of_false Bool.false_ne_true ?_
      intro ends
      cases ends

/-! ## Steps -/

namespace Cursor

/-- The cursor after so many steps; at the end of the text it stays. -/
def after (language : Language) (cursor : Cursor) : Nat → Cursor
  | 0 => cursor
  | count + 1 =>
      ((cursor.after language count).next? language).elim (cursor.after language count) Prod.snd

theorem after_succ_of_none {language : Language} {cursor : Cursor} {count : Nat}
    (read : (cursor.after language count).next? language = none) :
    cursor.after language (count + 1) = cursor.after language count := by
  rw [after, read, Option.elim_none]

theorem after_succ_of_some {language : Language} {cursor next : Cursor} {count : Nat} {token : Token}
    (found : (cursor.after language count).next? language = some (token, next)) :
    cursor.after language (count + 1) = next := by
  rw [after, found, Option.elim_some]

/-- Steps take the first tokens off a run. -/
theorem run_after (language : Language) (cursor : Cursor) (count : Nat) :
    (cursor.after language count).run language = (cursor.run language).drop count := by
  induction count with
  | zero => rfl
  | succ count ih =>
      rw [← List.tail_drop, ← ih]
      cases step : (cursor.after language count).next? language with
      | none => rw [after_succ_of_none step, run_of_none step, List.tail_nil]
      | some found => rw [after_succ_of_some step, run_of_some step, List.tail_cons]

/-- What the cursor keeps is what the tokens in front of it say. -/
structure Recalls (source : Bytes) (tokens : List Token) (cursor : Cursor) : Prop where
  lastSignificant : cursor.lastSignificant = (lastSignificant? tokens).map Token.kind
  afterOperand : cursor.afterOperand = true ↔
    ∃ last, lastSignificant? tokens = some last ∧ (Piece.ofToken source last).EndsOperand

theorem Recalls.start (source : Bytes) : Recalls source [] (.start source) := by
  refine ⟨rfl, ?_⟩
  simp [Cursor.start, lastSignificant?]

/-- A step keeps what is recalled, with its token behind the others. -/
theorem Recalls.step {language : Language} {source : Bytes} {tokens : List Token} {cursor next : Cursor}
    {token : Token} (recalls : Recalls source tokens cursor) (stands : cursor.Stands source)
    (found : cursor.next? language = some (token, next)) : Recalls source (tokens ++ [token]) next := by
  obtain ⟨textEq, _⟩ := stands.token_text found
  obtain ⟨b, bs, lexeme, here, lexemeEq, rfl, rfl⟩ := next?_eq_some found
  rw [Token.length, Nat.add_sub_cancel_left] at textEq
  cases trivia : lexeme.kind.isTrivia with
  | true =>
      refine ⟨?_, ?_⟩
      · rw [lastSignificant?_concat_trivia trivia, ← recalls.lastSignificant, advance]
        exact if_pos trivia
      · rw [lastSignificant?_concat_trivia trivia, ← recalls.afterOperand, advance]
        exact Bool.eq_iff_iff.mp (if_pos trivia)
  | false =>
      have leads := Lexeme.first_leads language cursor.context b bs
      rw [← lexemeEq] at leads
      have single : lexeme.kind = .punctuation → ∃ b, cursor.rest.take lexeme.length = [b] := by
        intro kind
        obtain ⟨b, same, _⟩ := leads.spelledAs.punctuation kind
        exact ⟨b, here ▸ same⟩
      refine ⟨?_, ?_⟩
      · rw [lastSignificant?_concat trivia, advance]
        exact if_neg (Bool.eq_false_iff.mp trivia)
      · rw [lastSignificant?_concat trivia]
        simp only [Option.some.injEq, exists_eq_left', Piece.ofToken, textEq]
        rw [← endsOperand_iff single, advance]
        exact Bool.eq_iff_iff.mp (if_neg (Bool.eq_false_iff.mp trivia))

end Cursor

/-! ## Runs -/

/-- The token behind so many others is that of the next step. -/
theorem getElem?_scan (language : Language) (source : Bytes) (count : Nat) :
    (scan language source)[count]? =
      (((Cursor.start source).after language count).next? language).map Prod.fst := by
  have rest := (Cursor.start source).run_after language count
  unfold scan
  rw [List.getElem?_map, ← List.head?_drop, ← rest]
  cases step : ((Cursor.start source).after language count).next? language with
  | none => rw [Cursor.run_of_none step]; rfl
  | some found => rw [Cursor.run_of_some step]; rfl

/-- After any number of steps the cursor recalls the tokens read. -/
theorem recalls_after (language : Language) (source : Bytes) (count : Nat) :
    ((Cursor.start source).after language count).Stands source ∧
      ((Cursor.start source).after language count).Recalls source ((scan language source).take count) := by
  induction count with
  | zero => exact ⟨.start source, .start source⟩
  | succ count ih =>
      obtain ⟨stands, recalls⟩ := ih
      rw [List.take_add_one, getElem?_scan]
      cases step : ((Cursor.start source).after language count).next? language with
      | none =>
          rw [Cursor.after_succ_of_none step, Option.map_none, Option.toList_none, List.append_nil]
          exact ⟨stands, recalls⟩
      | some found =>
          rw [Cursor.after_succ_of_some step, Option.map_some, Option.toList_some]
          exact ⟨(stands.next? step).2.2.2, recalls.step stands step⟩

/-- A number where no digit can be starts with a dot, and not behind an operand. -/
theorem Number.dot_of_starts {afterOperand : Bool} {b : UInt8} {bs : Bytes}
    (starts : starts afterOperand (b :: bs) = true) (other : Byte.isDigit b = false) :
    b = Byte.dot ∧ afterOperand = false := by
  simp only [Number.starts, other, Bool.false_or, Bool.and_eq_true, beq_iff_eq, Bool.not_eq_true'] at starts
  exact starts.1

/-- A number that starts with a dot does not stand behind an operand. -/
theorem Lexeme.Leads.not_afterOperand {language : Language} {context : Context} {bs : Bytes} {lexeme : Lexeme}
    (leads : Leads language context Byte.dot bs lexeme) (kind : lexeme.kind = .number) :
    context.afterOperand = false := by
  obtain ⟨_, free⟩ := Number.dot_of_starts (leads.begins.number kind) (by decide)
  exact free

theorem Cursor.Stands.not_afterOperand {language : Language} {source : Bytes} {cursor next : Cursor}
    {token : Token} (stands : cursor.Stands source) (found : cursor.next? language = some (token, next))
    (dot : (token.text source).head? = some Byte.dot) (kind : token.kind = .number) :
    cursor.afterOperand = false := by
  obtain ⟨textEq, _⟩ := stands.token_text found
  obtain ⟨b, bs, lexeme, here, lexemeEq, rfl, rfl⟩ := next?_eq_some found
  have leads := Lexeme.first_leads language cursor.context b bs
  rw [← lexemeEq] at leads
  obtain rfl : b = Byte.dot := by
    rw [textEq, here, List.head?_take] at dot
    split at dot
    · cases dot
    · exact Option.some.inj dot
  exact leads.not_afterOperand kind

/-- After any number of steps the cursor keeps the kind of the last token that is not trivia, and
knows whether that token can end an operand. So a number starts with a dot only where there is no
such token or it cannot, and behind one that can a dot never starts a number. -/
theorem scan_recalls_operand (language : Language) (source : Bytes) (count : Nat) :
    ((Cursor.start source).after language count).lastSignificant =
        (lastSignificant? ((scan language source).take count)).map Token.kind ∧
      (((Cursor.start source).after language count).afterOperand = true ↔
        ∃ last, lastSignificant? ((scan language source).take count) = some last ∧
          (Piece.ofToken source last).EndsOperand) ∧
      ∀ token, (scan language source)[count]? = some token → (token.text source).head? = some Byte.dot →
        (token.kind = .number →
          lastSignificant? ((scan language source).take count) = none ∨
          ∃ last, lastSignificant? ((scan language source).take count) = some last ∧
            ¬(Piece.ofToken source last).EndsOperand) ∧
        ∀ last, lastSignificant? ((scan language source).take count) = some last →
          (Piece.ofToken source last).EndsOperand → token.kind ≠ .number := by
  obtain ⟨stands, recalls⟩ := recalls_after language source count
  refine ⟨recalls.lastSignificant, recalls.afterOperand, ?_⟩
  intro token here dot
  rw [getElem?_scan] at here
  obtain ⟨⟨token, next⟩, found, rfl⟩ := Option.map_eq_some_iff.mp here
  have apart (kind : token.kind = .number) : ∀ last,
      lastSignificant? ((scan language source).take count) = some last →
        ¬(Piece.ofToken source last).EndsOperand := by
    intro last significant ends
    have operand := recalls.afterOperand.mpr ⟨last, significant, ends⟩
    rw [stands.not_afterOperand found dot kind] at operand
    cases operand
  refine ⟨?_, fun last significant ends kind => apart kind last significant ends⟩
  intro kind
  cases significant : lastSignificant? ((scan language source).take count) with
  | none => exact .inl rfl
  | some last => exact .inr ⟨last, rfl, apart kind last significant⟩

example : (scan (.ofSpec { name := "", keywords := ["return"], blockComments := [⟨"/*", "*/", false⟩] })
    (Text.bytes "x/**/ .5 return .5")).map Token.kind =
      [.ident, .comment, .whitespace, .punctuation, .number, .whitespace, .keyword, .whitespace,
        .number] := by
  decide +kernel

end CodeTint
