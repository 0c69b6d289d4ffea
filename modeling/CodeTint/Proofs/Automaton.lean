import CodeTint.Proofs.Kinds
import CodeTint.Proofs.Literal

/-!
# The automaton of string literals

A literal can be read one byte at a time. Behind the opening quotes the automaton keeps
three things: whether the next byte is escaped, how many quotes it has just passed, and
whether the last byte was a carriage return. It never looks ahead. The scanner does: it
searches for the next byte that matters, skips an escape as a whole, and looks at three
bytes at once for closing quotes. Both end a literal at the same place.
-/

namespace CodeTint

namespace Quoted

/-- What is kept of the bytes read behind the opening quotes. -/
structure State where
  /-- The next byte is escaped. -/
  escaped : Bool := false
  /-- The number of quotes read last, none of them escaped. -/
  quotes : Nat := 0
  /-- The byte read last is a carriage return. -/
  afterReturn : Bool := false

inductive Move
  | onward (state : State)
  /-- The byte closes the literal and belongs to it. -/
  | close
  /-- The byte ends the line and with it the literal. -/
  | cut

/-- One byte. As many quotes close a literal as have opened it, three or one. A line feed ends it,
unless three quotes have opened it or a backtick. -/
def State.read (literal : Quoted) (state : State) (b : UInt8) : Move :=
  if state.escaped then .onward { afterReturn := b == Byte.carriageReturn }
  else if b == Byte.backslash then .onward { escaped := true }
  else if b == literal.quote then
    if state.quotes + 1 = (if literal.triple then 3 else 1) then .close
    else .onward { quotes := state.quotes + 1 }
  else if b == Byte.lineFeed && !(literal.triple || literal.quote == Byte.backtick) then .cut
  else .onward { afterReturn := b == Byte.carriageReturn }

/-- Where the automaton stops that has the bytes from an offset on before it. -/
def stopFrom (literal : Quoted) (state : State) (offset : Nat) : Bytes → Nat
  | [] => offset
  | b :: rest =>
      match state.read literal b with
      | .onward next => stopFrom literal next (offset + 1) rest
      | .close => offset + 1
      | .cut => if state.afterReturn then offset - 1 else offset

/-- The literal that a quote at an offset opens: with two more of them behind it by all three,
where the language has such literals and the quote is not a backtick. -/
def openedAt (language : Language) (source : Bytes) (offset : Nat) (quote : UInt8) : Quoted :=
  ⟨quote, language.tripleQuotes && quote != Byte.backtick &&
    (source[offset + 1]? == some quote && source[offset + 2]? == some quote)⟩

/-- The end of a literal, read byte by byte. -/
def stopAt (language : Language) (source : Bytes) (offset : Nat) (quote : UInt8) : Nat :=
  let literal := openedAt language source offset quote
  let body := offset + if literal.triple then 3 else 1
  literal.stopFrom {} body (source.drop body)

variable {literal : Quoted} {rest : Bytes} {b : UInt8} {count offset : Nat}

/-! ## Moves -/

/-- The same in the words of the scanner. -/
theorem State.read_eq (literal : Quoted) (state : State) (b : UInt8) :
    state.read literal b =
      if state.escaped then .onward { afterReturn := b == Byte.carriageReturn }
      else if b == Byte.backslash then .onward { escaped := true }
      else if b == literal.quote then
        if state.quotes + 1 = literal.openLength then .close
        else .onward { quotes := state.quotes + 1 }
      else if b == Byte.lineFeed && !literal.multiline then .cut
      else .onward { afterReturn := b == Byte.carriageReturn } := rfl

section Moves

variable {state : State} (free : state.escaped = false)

include free

theorem stopFrom_escape (c : UInt8) (rest : Bytes) :
    literal.stopFrom state offset (Byte.backslash :: c :: rest) =
      literal.stopFrom { afterReturn := c == Byte.carriageReturn } (offset + 2) rest := by
  have first : state.read literal Byte.backslash = .onward { escaped := true } := by
    simp [State.read_eq, free]
  rw [stopFrom, first]
  rfl

theorem stopFrom_open_escape : literal.stopFrom state offset [Byte.backslash] = offset + 1 := by
  have first : state.read literal Byte.backslash = .onward { escaped := true } := by
    simp [State.read_eq, free]
  rw [stopFrom, first]
  rfl

theorem stopFrom_quote (visible : literal.quote ≠ Byte.backslash)
    (unclosed : state.quotes + 1 ≠ literal.openLength) (rest : Bytes) :
    literal.stopFrom state offset (literal.quote :: rest) =
      literal.stopFrom { quotes := state.quotes + 1 } (offset + 1) rest := by
  have first : state.read literal literal.quote = .onward { quotes := state.quotes + 1 } := by
    simp [State.read_eq, free, visible, unclosed]
  rw [stopFrom, first]

theorem stopFrom_closing (visible : literal.quote ≠ Byte.backslash)
    (all : state.quotes + 1 = literal.openLength) (rest : Bytes) :
    literal.stopFrom state offset (literal.quote :: rest) = offset + 1 := by
  have first : state.read literal literal.quote = .close := by
    simp [State.read_eq, free, visible, all]
  rw [stopFrom, first]

theorem stopFrom_lineFeed (other : literal.quote ≠ Byte.lineFeed) (single : literal.multiline = false)
    (rest : Bytes) :
    literal.stopFrom state offset (Byte.lineFeed :: rest) =
      if state.afterReturn then offset - 1 else offset := by
  have visible : Byte.lineFeed ≠ Byte.backslash := by decide
  have first : state.read literal Byte.lineFeed = .cut := by
    simp [State.read_eq, free, visible, other.symm, single]
  rw [stopFrom, first]

theorem stopFrom_plain (plain : literal.stops b = false) (rest : Bytes) :
    literal.stopFrom state offset (b :: rest) =
      literal.stopFrom { afterReturn := b == Byte.carriageReturn } (offset + 1) rest := by
  simp only [stops, Bool.or_eq_false_iff] at plain
  have first : state.read literal b = .onward { afterReturn := b == Byte.carriageReturn } := by
    rw [State.read_eq, free, plain.1.1, plain.1.2, Bool.and_comm, plain.2]
    rfl
  rw [stopFrom, first]

end Moves

/-! ## Quotes that do not close -/

/-- Fewer quotes than have opened the literal are passed where no more of them follow. -/
theorem extent_quotes (few : count < literal.openLength)
    (visible : count = 0 ∨ literal.quote ≠ Byte.backslash) (other : literal.quote ≠ Byte.lineFeed)
    (stopped : literal.quote ≠ Byte.backslash → rest.head? ≠ some literal.quote) :
    literal.extent (List.replicate count literal.quote ++ rest) = (literal.extent rest).after count := by
  induction count with
  | zero => simp [Extent.after]
  | succ count ih =>
      replace visible := visible.resolve_left (Nat.succ_ne_zero count)
      have triple : literal.triple = true := by
        by_contra single
        rw [openLength, if_neg single] at few
        omega
      have length : literal.openLength = 3 := if_pos triple
      have unclosed : [literal.quote, literal.quote, literal.quote].isPrefixOf
          (literal.quote :: (List.replicate count literal.quote ++ rest)) = false := by
        apply Bool.eq_false_iff.mpr
        intro closes
        obtain ⟨after, same⟩ := List.isPrefixOf_iff_prefix.mp closes
        have next := congrArg (·[count + 1]?) same
        obtain rfl | rfl : count = 0 ∨ count = 1 := by omega
        · exact stopped visible (by simpa [List.head?_eq_getElem?] using next.symm)
        · exact stopped visible (by simpa [List.head?_eq_getElem?] using next.symm)
      have stop : literal.stops literal.quote = true := by simp [stops]
      rw [List.replicate_succ, List.cons_append, extent_stop stop, if_neg (by simpa using visible),
        if_neg (by simpa using other), if_pos triple, if_neg (Bool.eq_false_iff.mp unclosed),
        ih (by omega) (.inr visible)]
      simp only [Extent.after, Extent.mk.injEq, and_true]
      omega

theorem extent_closing (visible : literal.quote ≠ Byte.backslash) (other : literal.quote ≠ Byte.lineFeed)
    (all : count + 1 = literal.openLength) (rest : Bytes) :
    literal.extent (List.replicate count literal.quote ++ literal.quote :: rest) =
      ⟨literal.openLength, false⟩ := by
  have stop : literal.stops literal.quote = true := by simp [stops]
  cases triple : literal.triple with
  | true =>
      rw [openLength, if_pos triple] at all ⊢
      obtain rfl : count = 2 := by omega
      change literal.extent (literal.quote :: literal.quote :: literal.quote :: rest) = _
      have closes : [literal.quote, literal.quote, literal.quote].isPrefixOf
          (literal.quote :: literal.quote :: literal.quote :: rest) = true := by simp
      rw [extent_stop stop, if_neg (by simpa using visible), if_neg (by simpa using other), if_pos triple,
        if_pos closes]
  | false =>
      have single := Bool.eq_false_iff.mp triple
      rw [openLength, if_neg single] at all ⊢
      obtain rfl : count = 0 := by omega
      change literal.extent (literal.quote :: rest) = _
      rw [extent_stop stop, if_neg (by simpa using visible), if_neg (by simpa using other), if_neg single]

/-! ## Bodies -/

/-- How much of the body belongs to the literal: a carriage return before the line feed does not. -/
def Extent.kept (extent : Extent) (body : Bytes) : Nat :=
  if extent.beforeLineFeed && (body.take extent.length).getLast? == some Byte.carriageReturn then
    extent.length - 1
  else extent.length

theorem length_eq_kept (literal : Quoted) (rest : Bytes) :
    literal.length rest =
      literal.openLength +
        (literal.extent (rest.drop literal.openLength)).kept (rest.drop literal.openLength) := by
  unfold length Extent.kept
  dsimp only
  split <;> rfl

theorem Extent.kept_closed (extent : Extent) (closed : extent.beforeLineFeed = false) (body : Bytes) :
    extent.kept body = extent.length := by
  simp [kept, closed]

theorem Extent.after_after (extent : Extent) (first second : Nat) :
    (extent.after second).after first = extent.after (first + second) := by
  simp [Extent.after, Nat.add_assoc]

theorem Extent.add_kept_before (offset : Nat) (front rest : Bytes) :
    offset + (⟨front.length, true⟩ : Extent).kept (front ++ rest) =
      if front.getLast? == some Byte.carriageReturn then offset + front.length - 1
      else offset + front.length := by
  rw [kept, List.take_left, Bool.true_and]
  split
  · rename_i last
    have nonempty : 0 < front.length := List.length_pos_of_mem (List.mem_of_getLast? (eq_of_beq last))
    exact (Nat.add_sub_assoc nonempty offset).symm
  · rfl

/-- The automaton stands behind `front` and some quotes. The search of the scanner has not passed
those quotes yet, since it looks at all that could close the literal at once. -/
theorem stopFrom_eq (offset : Nat) (visible : count = 0 ∨ literal.quote ≠ Byte.backslash)
    (unbroken : Byte.isLineBreak literal.quote = false) (few : count < literal.openLength)
    (front rest : Bytes) :
    literal.stopFrom ⟨false, count,
        (front ++ List.replicate count literal.quote).getLast? == some Byte.carriageReturn⟩
        (offset + (front.length + count)) rest =
      offset + ((literal.extent (List.replicate count literal.quote ++ rest)).after front.length).kept
        (front ++ List.replicate count literal.quote ++ rest) := by
  have other := Byte.isLineBreak_eq_false_iff.mp unbroken
  induction rest using body_induction generalizing front count with
  | nil =>
      rw [extent_quotes few visible other.1 (by simp), Extent.after_after, extent_empty,
        Extent.kept_closed _ rfl]
      rfl
  | open_escape =>
      rw [stopFrom_open_escape rfl, extent_quotes few visible other.1 (by simpa using fun h => Ne.symm h),
        Extent.after_after, extent_open_escape, Extent.kept_closed _ rfl]
      rfl
  | escape c rest ih =>
      have later := @ih 0 (.inl rfl) literal.openLength_pos
        (front ++ List.replicate count literal.quote ++ [Byte.backslash, c])
      rw [stopFrom_escape rfl, extent_quotes few visible other.1 (by simpa using fun h => Ne.symm h),
        Extent.after_after, extent_escape_cons, Extent.after_after]
      simpa [Nat.add_assoc] using later
  | other b rest plain ih =>
      by_cases quote : b = literal.quote
      · subst quote
        by_cases all : count + 1 = literal.openLength
        · rw [stopFrom_closing rfl plain all, extent_closing plain other.1 all, Extent.kept_closed _ rfl,
            Extent.after, ← all]
          rfl
        · have later := @ih (count + 1) (.inr plain) (by omega) front
          rw [stopFrom_quote rfl plain all]
          simpa [List.replicate_succ', beq_eq_false_iff_ne.mpr other.2, Nat.add_assoc] using later
      by_cases stop : literal.stops b = true
      · obtain ⟨single, rfl⟩ : literal.multiline = false ∧ b = Byte.lineFeed := by
          simpa [stops, quote, plain] using stop
        rw [stopFrom_lineFeed rfl other.1 single,
          extent_quotes few visible other.1 (by simpa using fun _ => quote), Extent.after_after,
          extent_lineFeed unbroken single]
        have kept := Extent.add_kept_before offset (front ++ List.replicate count literal.quote)
          (Byte.lineFeed :: rest)
        rw [List.length_append, List.length_replicate] at kept
        exact kept.symm
      · have later := @ih 0 (.inl rfl) literal.openLength_pos
          (front ++ List.replicate count literal.quote ++ [b])
        replace stop := Bool.eq_false_iff.mpr stop
        rw [stopFrom_plain rfl stop, extent_quotes few visible other.1 (by simpa using fun _ => quote),
          Extent.after_after, extent_plain stop, Extent.after_after]
        simpa [Nat.add_assoc] using later

/-- From the opening quotes on, the automaton stops where the scanner ends the literal. -/
theorem stopFrom_start (unbroken : Byte.isLineBreak literal.quote = false) (rest : Bytes) :
    literal.stopFrom {} (offset + literal.openLength) (rest.drop literal.openLength) =
      offset + literal.length rest := by
  have stopped := stopFrom_eq (offset + literal.openLength) (.inl rfl) unbroken literal.openLength_pos []
    (rest.drop literal.openLength)
  rw [length_eq_kept, ← Nat.add_assoc]
  simpa [Extent.after] using stopped

theorem stopAt_eq (language : Language) (source : Bytes) (offset : Nat) {quote : UInt8}
    (unbroken : Byte.isLineBreak quote = false) :
    stopAt language source offset quote =
      offset + (openedAt language source offset quote).length (source.drop offset) := by
  have opened : Byte.isLineBreak (openedAt language source offset quote).quote = false := unbroken
  rw [← stopFrom_start opened, List.drop_drop]
  rfl

/-! ## Tokens that start with a quote -/

theorem ofFront_eq_openedAt (language : Language) {source : Bytes} {quote : UInt8}
    (here : source[offset]? = some quote) :
    ofFront language.tripleQuotes quote (source.drop offset) = openedAt language source offset quote := by
  have front := Indexed.drop_of_getElem? here
  have second : source[offset + 1]? = (source.drop (offset + 1))[0]? := by simp
  have third : source[offset + 2]? = (source.drop (offset + 1))[1]? := by simp [Nat.add_assoc]
  rw [ofFront, openedAt, second, third, front]
  cases source.drop (offset + 1) with
  | nil => simp
  | cons b tail =>
      cases tail with
      | nil => simp [List.isPrefixOf]
      | cons c tail => simp [List.isPrefixOf, Bool.beq_comm]

end Quoted

theorem Byte.not_isBlank_of_isPunctuation {b : UInt8} (member : isPunctuation b = true) :
    isBlank b = false := by
  apply Bool.eq_false_iff.mpr
  intro blank
  simp only [isBlank, Bool.or_eq_true, Bool.and_eq_true, beq_iff_eq, decide_eq_true_eq,
    UInt8.le_iff_toNat_le] at blank
  rcases blank with rfl | ⟨_, below⟩
  · exact absurd member (by decide)
  · simp only [isPunctuation, Bool.and_eq_true, decide_eq_true_eq, UInt8.le_iff_toNat_le] at member
    have apart : ¬(0x21 : UInt8).toNat ≤ (0x0D : UInt8).toNat := by decide
    exact apart (Nat.le_trans member.1.1.1 below)

/-- White space comes before quotes in the order of the kinds, but no quote is white space. -/
theorem Language.visible_of_isQuote {language : Language} {b : UInt8} (quote : language.isQuote b = true)
    (bs : Bytes) : Utf8.startsWith Unicode.isWhiteSpace (b :: bs) = false := by
  have punctuation := language.quotes_punctuation b (List.contains_iff_mem.mp quote)
  have ascii := Byte.ascii_of_isPunctuation punctuation
  have low : ¬0x80 ≤ b := fun high => Nat.not_lt_of_le (UInt8.le_iff_toNat_le.mp high) ascii
  rw [← Indexed.CharClass.starts_eq Indexed.CharClass.blank_agrees, Indexed.CharClass.starts,
    decide_eq_false low, Bool.false_and, Bool.or_false]
  exact Byte.not_isBlank_of_isPunctuation punctuation

theorem Lexeme.Leads.string_iff {language : Language} {context : Context} {b : UInt8} {bs : Bytes}
    {lexeme : Lexeme} (leads : Leads language context b bs lexeme) :
    lexeme.kind = .string ↔ language.isQuote b = true := by
  constructor
  · exact leads.begins.string
  · intro quote
    rw [← leads.first_eq, (Leads.literal (language.visible_of_isQuote quote bs) quote).first_eq]

/-- A token is a string literal exactly if it starts with a quote of the language, and it ends
where the automaton stops that reads the source one byte at a time behind the opening quotes. -/
theorem scan_literal_automaton {language : Language} {source : Bytes} {token : Token}
    (member : token ∈ scan language source) {quote : UInt8} (here : source[token.start]? = some quote) :
    (token.kind = .string ↔ language.isQuote quote = true) ∧
      (language.isQuote quote = true → token.stop = Quoted.stopAt language source token.start quote) := by
  obtain ⟨before, after, stands, _, found⟩ :=
    scan_forall (fun _ => True) trivial (fun _ _ _ => trivial) member
  obtain ⟨b, bs, lexeme, rest, lexemeEq, rfl, _⟩ := Cursor.next?_eq_some found
  dsimp only at here ⊢
  have front := stands.rest.symm.trans rest
  obtain ⟨rfl, rfl⟩ := List.cons.inj ((Indexed.drop_of_getElem? here).symm.trans front)
  have leads := Lexeme.first_leads language before.context quote (source.drop (before.offset + 1))
  rw [← lexemeEq] at leads
  refine ⟨leads.string_iff, ?_⟩
  intro isQuote
  have punctuation := language.quotes_punctuation quote (List.contains_iff_mem.mp isQuote)
  rw [← leads.first_eq, (Lexeme.Leads.literal (language.visible_of_isQuote isQuote _) isQuote).first_eq,
    ← front, Quoted.ofFront_eq_openedAt language here]
  exact (Quoted.stopAt_eq language source before.offset (Byte.not_isLineBreak_of_isPunctuation punctuation)).symm

/-- Three quotes open the literal; one escaped quote, two bare ones and a letter are inside it. -/
theorem scan_literal_automaton_triple :
    ⟨.string, 0, 11⟩ ∈ scan (.ofSpec { name := "", tripleQuotes := true }) (Text.bytes "\"\"\"\\\"\"\"a\"\"\"\"") ∧
      (Text.bytes "\"\"\"\\\"\"\"a\"\"\"\"")[0]? = some 0x22 ∧
      11 = Quoted.stopAt (.ofSpec { name := "", tripleQuotes := true })
        (Text.bytes "\"\"\"\\\"\"\"a\"\"\"\"") 0 0x22 := by
  have member : ⟨.string, 0, 11⟩ ∈ scan (.ofSpec { name := "", tripleQuotes := true })
      (Text.bytes "\"\"\"\\\"\"\"a\"\"\"\"") := by
    decide +kernel
  have here : (Text.bytes "\"\"\"\\\"\"\"a\"\"\"\"")[0]? = some 0x22 := by decide +kernel
  exact ⟨member, here, (scan_literal_automaton member here).2 (by decide +kernel)⟩

-- A line feed is part of a literal in backticks and ends one in other quotes.
example : scan (.ofSpec { name := "" }) (Text.bytes "`a\nb`'c\n") =
      [⟨.string, 0, 5⟩, ⟨.string, 5, 7⟩, ⟨.whitespace, 7, 8⟩] ∧
    Quoted.stopAt (.ofSpec { name := "" }) (Text.bytes "`a\nb`'c\n") 0 Byte.backtick = 5 ∧
    Quoted.stopAt (.ofSpec { name := "" }) (Text.bytes "`a\nb`'c\n") 5 0x27 = 7 := by
  decide +kernel

end CodeTint
