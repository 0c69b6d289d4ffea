import CodeTint.Proofs.Characters
import CodeTint.Proofs.Indexed
import CodeTint.Proofs.Pieces

/-!
# What the kinds of tokens spell

The classes of characters overlap, and the first that fits decides the kind of a
token, so what is left for a later kind is not told by its own class alone.
`SpelledAs` says of each kind that a class of characters decides what its texts
are. Plain text is what no class takes; of the printable ASCII characters only
quotes that the language does not use are left to it.
-/

namespace CodeTint

open Unicode (isWhiteSpace isXidStart)

/-- White space, at least one character of it. -/
def IsBlankText (text : Bytes) : Prop :=
  ∃ c run, isWhiteSpace c = true ∧ (∀ d ∈ run, isWhiteSpace d = true) ∧ text = Utf8.encode (c :: run)

/-- A character that starts identifiers, then characters that continue them. -/
def IsWord (text : Bytes) : Prop :=
  ∃ c run, Lexeme.isIdentStart c = true ∧ (∀ d ∈ run, Lexeme.isIdentContinue d = true) ∧
    text = Utf8.encode (c :: run)

/-- The ASCII control bytes. -/
def Byte.isControl (b : UInt8) : Bool :=
  b < 0x20 || b == 0x7F

/-- What no class takes of the text `rest`. -/
inductive IsPlainText (language : Language) (rest : Bytes) : Bytes → Prop
  | control (b : UInt8) (control : Byte.isControl b = true) (visible : Byte.isBlank b = false) :
      IsPlainText language rest [b]
  | quote (b : UInt8) (quote : Byte.isAmong "'\"`" b = true) (unused : language.isQuote b = false) :
      IsPlainText language rest [b]
  | broken (b : UInt8) (absent : Utf8.decode? rest = none) : IsPlainText language rest [b]
  | character (c : Char) (large : 0x80 ≤ c.toNat) (visible : isWhiteSpace c = false)
      (other : isXidStart c = false) : IsPlainText language rest (Utf8.encode [c])

/-- The text at the front of `rest` is one that tokens of the kind have. -/
structure SpelledAs (language : Language) (rest text : Bytes) (kind : Kind) : Prop where
  whitespace : kind = .whitespace → IsBlankText text := by nofun
  ident : kind = .ident → IsWord text ∧ language.isKeyword text = false := by nofun
  keyword : kind = .keyword → IsWord text ∧ language.isKeyword text = true := by nofun
  operator : kind = .operator → ∃ operator ∈ language.operators, text = operator.bytes := by nofun
  punctuation : kind = .punctuation → ∃ b, text = [b] ∧ Byte.isMark b = true ∧
    ∀ operator ∈ language.operators, ¬operator.bytes <+: rest := by nofun
  plaintext : kind = .plaintext → IsPlainText language rest text := by nofun

/-! ## Runs of characters -/

namespace Utf8

theorem exists_of_startsWith {isMember : Char → Bool} {bytes : Bytes}
    (starts : startsWith isMember bytes = true) :
    ∃ c width, decode? bytes = some (c, width) ∧ isMember c = true := by
  unfold startsWith at starts
  split at starts
  · rename_i c width found
    exact ⟨c, width, found, starts⟩
  · cases starts

theorem not_isMember_of_startsWith {isMember : Char → Bool} {bytes : Bytes} {c : Char} {width : Nat}
    (other : startsWith isMember bytes = false) (found : decode? bytes = some (c, width)) :
    isMember c = false := by
  unfold startsWith at other
  rw [found] at other
  exact other

/-- A run that starts with a character of a narrower class. -/
theorem exists_take_runLength_cons {isFirst isMember : Char → Bool} {bytes : Bytes}
    (starts : startsWith isFirst bytes = true)
    (within : ∀ {c : Char}, isFirst c = true → isMember c = true) :
    ∃ c run, isFirst c = true ∧ (∀ d ∈ run, isMember d = true) ∧
      bytes.take (runLength isMember bytes) = encode (c :: run) := by
  obtain ⟨c, width, found, first⟩ := exists_of_startsWith starts
  obtain ⟨run, spelled, members⟩ := exists_take_runLength isMember (bytes.drop width)
  refine ⟨c, run, first, members, ?_⟩
  rw [runLength_of_decode? found, if_pos (within first), List.take_add, take_of_decode? found, spelled,
    encode_cons]

end Utf8

/-! ## Plain text -/

/-- An ASCII byte that is neither blank nor a digit, a letter or a mark is a control byte or a quote. -/
theorem Byte.isControl_or_quote {b : UInt8} (ascii : b.toNat < 0x80) (visible : isBlank b = false)
    (digit : isDigit b = false) (letter : isIdentStart b = false) (mark : isMark b = false) :
    isControl b = true ∨ isAmong "'\"`" b = true := by
  have table : ∀ n < 0x80, (isBlank (UInt8.ofNat n) || isDigit (UInt8.ofNat n) ||
      isIdentStart (UInt8.ofNat n) || isMark (UInt8.ofNat n) || isControl (UInt8.ofNat n) ||
      isAmong "'\"`" (UInt8.ofNat n)) = true := by
    decide +kernel
  have here := table b.toNat ascii
  rw [UInt8.ofNat_toNat, visible, digit, letter, mark] at here
  exact Bool.or_eq_true_iff.mp here

theorem Indexed.CharClass.not_isByte_of_startsWith {cls : CharClass} {isMember : Char → Bool}
    (agrees : cls.Agrees isMember) {b : UInt8} {bs : Bytes}
    (other : Utf8.startsWith isMember (b :: bs) = false) : cls.isByte b = false := by
  rw [← starts_eq agrees] at other
  exact (Bool.or_eq_false_iff.mp other).1

theorem isPlainText_width {language : Language} {afterOperand : Bool} {b : UInt8} {bs : Bytes}
    (visible : Utf8.startsWith isWhiteSpace (b :: bs) = false) (quote : language.isQuote b = false)
    (number : Number.starts afterOperand (b :: bs) = false)
    (letter : Utf8.startsWith Lexeme.isIdentStart (b :: bs) = false) (mark : Byte.isMark b = false) :
    IsPlainText language (b :: bs) ((b :: bs).take (Utf8.width (b :: bs))) := by
  by_cases ascii : b.toNat < 0x80
  · rw [Utf8.width_ascii ascii]
    have blank := Indexed.CharClass.not_isByte_of_startsWith Indexed.CharClass.blank_agrees visible
    have other := Indexed.CharClass.not_isByte_of_startsWith Indexed.CharClass.identStart_agrees letter
    have digit := (Bool.or_eq_false_iff.mp number).1
    rcases Byte.isControl_or_quote ascii blank digit other mark with control | quoted
    · exact .control b control blank
    · exact .quote b quoted quote
  · cases found : Utf8.decode? (b :: bs) with
    | none =>
        rw [Utf8.width, found]
        exact .broken b found
    | some entry =>
        obtain ⟨c, width⟩ := entry
        have large := Utf8.toNat_of_decode? (Nat.le_of_not_lt ascii) found
        have white := Utf8.not_isMember_of_startsWith visible found
        have starts := Utf8.not_isMember_of_startsWith letter found
        simp only [Lexeme.isIdentStart, Bool.or_eq_false_iff] at starts
        rw [Utf8.width, found]
        dsimp only
        rw [Utf8.take_of_decode? found, ← Utf8.encode_singleton]
        exact .character c large white starts.1.1

/-! ## Lexemes -/

namespace Lexeme

theorem spelledAs_identifier {language : Language} {rest : Bytes}
    (letter : Utf8.startsWith isIdentStart rest = true) :
    SpelledAs language rest (rest.take (identifier language rest).length)
      (identifier language rest).kind := by
  have word : IsWord (rest.take (Utf8.runLength isIdentContinue rest)) :=
    Utf8.exists_take_runLength_cons letter isIdentContinue_of_isIdentStart
  unfold identifier
  dsimp only
  split
  · rename_i listed
    exact { keyword := fun _ => ⟨word, listed⟩ }
  · rename_i unlisted
    exact { ident := fun _ => ⟨word, Bool.eq_false_iff.mpr unlisted⟩ }

theorem spelledAs_mark {language : Language} {b : UInt8} {bs : Bytes} (isMark : Byte.isMark b = true) :
    SpelledAs language (b :: bs) ((b :: bs).take (mark language (b :: bs)).length)
      (mark language (b :: bs)).kind := by
  unfold mark
  split
  · rename_i operator found
    have opens : operator.opens (b :: bs) = true := List.find?_some found
    obtain ⟨after, same⟩ := List.isPrefixOf_iff_prefix.mp opens
    refine { operator := fun _ => ⟨operator, List.mem_of_find?_eq_some found, ?_⟩ }
    rw [← same]
    exact List.take_left
  · rename_i absent
    refine { punctuation := fun _ => ⟨b, rfl, isMark, ?_⟩ }
    intro operator listed fits
    exact List.find?_eq_none.mp absent operator listed (List.isPrefixOf_iff_prefix.mpr fits)

/-- The first lexeme of a text is spelled as its kind asks. -/
theorem Leads.spelledAs {language : Language} {context : Context} {b : UInt8} {bs : Bytes} {lexeme : Lexeme}
    (leads : Leads language context b bs lexeme) :
    SpelledAs language (b :: bs) ((b :: bs).take lexeme.length) lexeme.kind := by
  cases leads with
  | blank blank => exact { whitespace := fun _ => Utf8.exists_take_runLength_cons blank id }
  | literal => exact {}
  | comment visible quote found =>
      rw [comment?_kind found]
      exact {}
  | number => exact {}
  | word visible quote code number letter => exact spelledAs_identifier letter
  | mark visible quote code number letter mark => exact spelledAs_mark mark
  | plain visible quote code number letter mark =>
      exact { plaintext := fun _ => isPlainText_width visible quote number letter mark }

end Lexeme

/-- A token of a source is the first lexeme of the source from its start on, and stands at a line
start exactly if the scanner takes it to stand there. -/
theorem scan_reads {language : Language} {source : Bytes} {token : Token}
    (member : token ∈ scan language source) :
    ∃ context b bs lexeme, source.drop token.start = b :: bs ∧
      context.lineStart = Language.isLineStart source token.start ∧
      Lexeme.Leads language context b bs lexeme ∧ token.kind = lexeme.kind ∧
      token.stop = token.start + lexeme.length ∧ token.text source = (b :: bs).take lexeme.length := by
  obtain ⟨before, after, stands, _, found⟩ :=
    scan_forall (fun _ => True) trivial (fun _ _ _ => trivial) member
  obtain ⟨b, bs, lexeme, here, lexemeEq, tokenEq, _⟩ := Cursor.next?_eq_some found
  obtain ⟨textEq, _⟩ := stands.token_text found
  have length : token.length = lexeme.length := by
    rw [tokenEq, Token.length, Nat.add_sub_cancel_left]
  refine ⟨before.context, b, bs, lexeme, ?_, ?_, ?_, ?_, ?_, ?_⟩
  · rw [tokenEq, ← here, stands.rest]
  · rw [tokenEq]
    exact stands.lineStart
  · rw [lexemeEq]
    exact Lexeme.first_leads language before.context b bs
  · rw [tokenEq]
  · rw [tokenEq]
  · rw [textEq, here, length]

theorem scan_leads {language : Language} {source : Bytes} {token : Token}
    (member : token ∈ scan language source) :
    ∃ context b bs lexeme, source.drop token.start = b :: bs ∧
      Lexeme.Leads language context b bs lexeme ∧ token.kind = lexeme.kind ∧
      token.text source = (b :: bs).take lexeme.length := by
  obtain ⟨context, b, bs, lexeme, rest, _, leads, kind, _, text⟩ := scan_reads member
  exact ⟨context, b, bs, lexeme, rest, leads, kind, text⟩

/-- Every token of a source is spelled as its kind asks. -/
theorem scan_spells_kind {language : Language} {source : Bytes} {token : Token}
    (member : token ∈ scan language source) :
    SpelledAs language (source.drop token.start) (token.text source) token.kind := by
  obtain ⟨context, b, bs, lexeme, rest, leads, kind, text⟩ := scan_leads member
  rw [rest, kind, text]
  exact leads.spelledAs

/-- A quote that the language does not use, behind a keyword in capitals and a no-break space. -/
theorem scan_spells_kind_unused_quote :
    ⟨.plaintext, 4, 5⟩ ∈ scan (.ofSpec { name := "", keywords := ["if"], ignoreCase := true, quotes := "'" })
        [0x49, 0x46, 0xC2, 0xA0, 0x22] ∧
      SpelledAs (.ofSpec { name := "", keywords := ["if"], ignoreCase := true, quotes := "'" }) [0x22] [0x22]
        .plaintext := by
  have member : ⟨.plaintext, 4, 5⟩ ∈ scan
      (.ofSpec { name := "", keywords := ["if"], ignoreCase := true, quotes := "'" })
      [0x49, 0x46, 0xC2, 0xA0, 0x22] := by
    decide +kernel
  exact ⟨member, scan_spells_kind member⟩

end CodeTint
