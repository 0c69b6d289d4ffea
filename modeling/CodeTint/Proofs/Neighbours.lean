import CodeTint.Proofs.ScanState

/-!
# Neighbours

White space, words and numbers take as much of the text as fits them: `Stops` says what
the text behind a token does not start with. A token directly behind another begins
where the other stops, so many pairs of kinds never stand side by side. A dot is no
part of a word or of a suffix: only what the scan recalls of the token before it keeps
a number from starting with it.
-/

namespace CodeTint

open Unicode (isWhiteSpace)

/-- The text behind a token of the kind does not go on with it. -/
structure Stops (rest : Bytes) (kind : Kind) : Prop where
  whitespace : kind = .whitespace → Utf8.startsWith isWhiteSpace rest = false := by nofun
  ident : kind = .ident → Utf8.startsWith Lexeme.isIdentContinue rest = false := by nofun
  keyword : kind = .keyword → Utf8.startsWith Lexeme.isIdentContinue rest = false := by nofun
  number : kind = .number → rest.head?.any Byte.isSuffix = false := by nofun

/-- The second piece may stand directly behind the first. -/
structure Piece.Neighbours (before after : Piece) : Prop where
  blanks : before.kind = .whitespace → after.kind ≠ .whitespace
  words : before.kind = .ident ∨ before.kind = .keyword → after.kind ≠ .ident ∧ after.kind ≠ .keyword
  identNumber : before.kind = .ident → after.kind ≠ .number
  numbers : before.kind = .number → after.kind ≠ .number
  keywordNumber : before.kind = .keyword → after.kind = .number →
    (∃ word ∈ expressionKeywords, before.text.map Byte.lower = word.map Byte.lower) ∧
      after.text.head? = some Byte.dot

/-! ## Where runs stop -/

/-- A run of characters of a class is not followed by one more of them. -/
theorem Utf8.runLength_stops (isMember : Char → Bool) (bytes : Bytes) :
    startsWith isMember (bytes.drop (runLength isMember bytes)) = false := by
  fun_induction runLength isMember bytes with
  | case1 bytes c width found member ih =>
      rw [← List.drop_drop]
      exact ih
  | case2 bytes c width found other =>
      rw [List.drop_zero, startsWith, found]
      exact Bool.eq_false_iff.mpr other
  | case3 bytes absent => rw [List.drop_zero, startsWith, absent]

theorem Number.suffixLength_stops (rest : Bytes) :
    (rest.drop (suffixLength rest)).head?.any Byte.isSuffix = false := by
  unfold suffixLength
  induction rest with
  | nil => rfl
  | cons b rest ih =>
      cases suffix : Byte.isSuffix b with
      | true =>
          rw [List.takeWhile_cons_of_pos suffix]
          exact ih
      | false =>
          rw [List.takeWhile_cons_of_neg (Bool.eq_false_iff.mp suffix)]
          exact suffix

/-- Whatever a number is made of, its suffix comes last. -/
theorem Number.length_stops (rest : Bytes) :
    (rest.drop (length rest)).head?.any Byte.isSuffix = false := by
  unfold length
  dsimp only
  rw [← List.drop_drop]
  apply suffixLength_stops

/-- A digit continues words. -/
theorem Utf8.startsWith_of_isDigit {b : UInt8} (digit : Byte.isDigit b = true) (bs : Bytes) :
    startsWith Lexeme.isIdentContinue (b :: bs) = true := by
  rw [← Indexed.CharClass.starts_eq Indexed.CharClass.identContinue_agrees]
  simp [Indexed.CharClass.starts, Indexed.CharClass.identContinue, Byte.isIdentContinue, digit]

theorem Byte.isSuffix_of_isDigit {b : UInt8} (digit : isDigit b = true) : isSuffix b = true := by
  simp [isSuffix, digit]

/-! ## Steps -/

namespace Lexeme

theorem Leads.stops {language : Language} {context : Context} {b : UInt8} {bs : Bytes} {lexeme : Lexeme}
    (leads : Leads language context b bs lexeme) : Stops ((b :: bs).drop lexeme.length) lexeme.kind := by
  cases leads with
  | blank => exact { whitespace := fun _ => Utf8.runLength_stops isWhiteSpace (b :: bs) }
  | literal => exact {}
  | comment visible quote found =>
      rw [comment?_kind found]
      exact {}
  | number => exact { number := fun _ => Number.length_stops (b :: bs) }
  | word =>
      have stopped := Utf8.runLength_stops isIdentContinue (b :: bs)
      rcases identifier_kind language (b :: bs) with kind | kind
      · rw [kind]
        exact { keyword := fun _ => stopped }
      · rw [kind]
        exact { ident := fun _ => stopped }
  | mark =>
      rcases mark_kind language (b :: bs) with kind | kind
      · rw [kind]
        exact {}
      · rw [kind]
        exact {}
  | plain => exact {}

end Lexeme

/-- Behind a word, a number can only start with a dot. -/
theorem Number.dot_of_word {afterOperand : Bool} {b : UInt8} {bs : Bytes}
    (starts : starts afterOperand (b :: bs) = true)
    (stopped : Utf8.startsWith Lexeme.isIdentContinue (b :: bs) = false) :
    b = Byte.dot ∧ afterOperand = false := by
  apply dot_of_starts starts
  apply Bool.eq_false_iff.mpr
  intro digit
  rw [Utf8.startsWith_of_isDigit digit] at stopped
  cases stopped

/-- Where one lexeme stops and the next begins, the two may stand side by side. -/
theorem Lexeme.neighbours {language : Language} {context : Context} {before : Piece} {b : UInt8} {bs : Bytes}
    {kind : Kind} {length : Nat} (positive : 0 < length) (stops : Stops (b :: bs) before.kind)
    (begins : Begins language (context.after before) b bs kind) :
    before.Neighbours ⟨kind, (b :: bs).take length⟩ := by
  have operand (significant : before.kind.isTrivia = false) :
      (context.after before).afterOperand = endsOperand before.kind before.text :=
    if_neg (Bool.eq_false_iff.mp significant)
  have word (stopped : Utf8.startsWith isIdentContinue (b :: bs) = false) :
      kind ≠ .ident ∧ kind ≠ .keyword := by
    constructor
    · intro next
      rw [startsWith_isIdentContinue (begins.ident next)] at stopped
      cases stopped
    · intro next
      rw [startsWith_isIdentContinue (begins.keyword next)] at stopped
      cases stopped
  constructor
  case blanks =>
    intro blank next
    have starts := begins.whitespace next
    rw [stops.whitespace blank] at starts
    cases starts
  case words =>
    rintro (ident | keyword)
    · exact word (stops.ident ident)
    · exact word (stops.keyword keyword)
  case identNumber =>
    intro ident next
    obtain ⟨_, free⟩ := Number.dot_of_word (begins.number next) (stops.ident ident)
    rw [operand (by rw [ident]; rfl), ident] at free
    cases free
  case numbers =>
    intro number next
    have other : Byte.isDigit b = false := by
      apply Bool.eq_false_iff.mpr
      intro digit
      have stopped := stops.number number
      rw [List.head?_cons, Option.any_some, Byte.isSuffix_of_isDigit digit] at stopped
      cases stopped
    obtain ⟨_, free⟩ := Number.dot_of_starts (begins.number next) other
    rw [operand (by rw [number]; rfl), number] at free
    cases free
  case keywordNumber =>
    intro keyword next
    obtain ⟨rfl, free⟩ := Number.dot_of_word (begins.number next) (stops.keyword keyword)
    constructor
    · apply (isExpressionKeyword_iff before.text).mp
      rw [operand (by rw [keyword]; rfl), keyword] at free
      simpa only [endsOperand, Bool.not_eq_false'] using free
    · obtain ⟨count, rfl⟩ := Nat.exists_eq_succ_of_ne_zero (Nat.ne_of_gt positive)
      rfl

/-! ## Runs -/

/-- What holds of each lexeme and the next one holds of all neighbours. -/
theorem pieces_neighbours (language : Language) (context : Context) (text : Bytes) :
    (pieces language context text).IsChain Piece.Neighbours := by
  fun_induction pieces language context text with
  | case1 context => exact .nil
  | case2 context b bs lexeme piece ih =>
      have stops : Stops ((b :: bs).drop lexeme.length) piece.kind :=
        (Lexeme.first_leads language context b bs).stops
      cases rest : (b :: bs).drop lexeme.length with
      | nil =>
          rw [pieces_nil]
          exact .singleton piece
      | cons c cs =>
          rw [rest] at stops ih
          have begins := (Lexeme.first_leads language (context.after piece) c cs).begins
          have positive := Lexeme.first_length_pos language (context.after piece) c cs
          rw [pieces_cons rfl] at ih ⊢
          exact .cons_cons (Lexeme.neighbours positive stops begins) ih

/-- No token of white space, no word and no number could have been longer, and of two tokens
side by side not both are white space, words or numbers; behind a word there is no number but
one that starts with a dot, behind a keyword that an expression follows. -/
theorem scan_neighbours (language : Language) (source : Bytes) :
    (∀ token ∈ scan language source, Stops (source.drop token.stop) token.kind) ∧
      ((scan language source).map (Piece.ofToken source)).IsChain Piece.Neighbours := by
  constructor
  · intro token member
    obtain ⟨before, after, stands, _, found⟩ :=
      scan_forall (fun _ => True) trivial (fun _ _ _ => trivial) member
    obtain ⟨_, stops, _, next⟩ := stands.next? found
    rw [stops, ← next.rest]
    obtain ⟨b, bs, lexeme, here, rfl, rfl, rfl⟩ := Cursor.next?_eq_some found
    rw [Cursor.advance, here]
    exact (Lexeme.first_leads language before.context b bs).stops
  · rw [scan_pieces]
    exact pieces_neighbours language ⟨false, true⟩ source

example : (scan (.ofSpec { name := "", keywords := ["in", "is"] }) (Text.bytes "in.5 is.5 x.5 1.5.5 1a.5")).map
    Token.kind =
      [.keyword, .number, .whitespace, .keyword, .punctuation, .number, .whitespace, .ident, .punctuation,
        .number, .whitespace, .number, .punctuation, .number, .whitespace, .number, .punctuation,
        .number] := by
  decide +kernel

end CodeTint
