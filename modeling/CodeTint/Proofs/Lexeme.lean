import CodeTint.Lexeme.Basic
import CodeTint.Proofs.Utf8

/-!
# Where lexemes end

Every lexeme ends inside the text it is read from, and no character of the text
is cut in two by its end. One lemma for each kind of lexeme says both; they are
put together in the order in which `Lexeme.first` asks.
-/

namespace CodeTint

open Utf8 (AsciiEdge CleanCut)

namespace Byte

theorem ascii_of_isDigit {b : UInt8} (member : isDigit b = true) : b.toNat < 0x80 := by
  simp only [isDigit, Bool.and_eq_true, decide_eq_true_eq, UInt8.le_iff_toNat_le] at member
  exact Nat.lt_of_le_of_lt member.2 (by decide)

theorem ascii_of_isAmong {text : String} {b : UInt8}
    (plain : text.toList.all (fun c => c.toNat < 0x80) = true) (member : isAmong text b = true) :
    b.toNat < 0x80 := by
  obtain ⟨c, listed, same⟩ := List.any_eq_true.mp member
  have ascii : c.toNat < 0x80 := of_decide_eq_true (List.all_eq_true.mp plain c listed)
  rw [← eq_of_beq same, ofChar, Utf8.toNat_byte (Nat.lt_trans ascii (by decide))]
  exact ascii

theorem ascii_of_isLetter {b : UInt8} (member : isLetter b = true) : b.toNat < 0x80 := by
  simp only [isLetter, Bool.or_eq_true, Bool.and_eq_true, decide_eq_true_eq,
    UInt8.le_iff_toNat_le] at member
  rcases member with ⟨_, below⟩ | ⟨_, below⟩
  · exact Nat.lt_of_le_of_lt below (by decide)
  · exact Nat.lt_of_le_of_lt below (by decide)

theorem ascii_of_isSuffix {b : UInt8} (member : isSuffix b = true) : b.toNat < 0x80 := by
  simp only [isSuffix, Bool.or_eq_true, beq_iff_eq] at member
  rcases member with (letter | digit) | rfl
  · exact ascii_of_isLetter letter
  · exact ascii_of_isDigit digit
  · decide

theorem ascii_of_isPunctuation {b : UInt8} (member : isPunctuation b = true) : b.toNat < 0x80 := by
  simp only [isPunctuation, Bool.and_eq_true, decide_eq_true_eq, UInt8.le_iff_toNat_le] at member
  exact Nat.lt_of_le_of_lt member.1.1.2 (by decide)

theorem ascii_of_isLineBreak {b : UInt8} (member : isLineBreak b = true) : b.toNat < 0x80 := by
  rcases isLineBreak_iff.mp member with rfl | rfl
  · decide
  · decide

theorem not_isLineBreak_of_isPunctuation {b : UInt8} (member : isPunctuation b = true) :
    isLineBreak b = false := by
  rw [Bool.eq_false_iff]
  intro broken
  rcases isLineBreak_iff.mp broken with rfl | rfl
  · exact absurd member (by decide)
  · exact absurd member (by decide)

theorem ascii_of_isMark {b : UInt8} (member : isMark b = true) : b.toNat < 0x80 := by
  rcases Bool.or_eq_true_iff.mp member with operator | separator
  · exact ascii_of_isAmong (by decide) operator
  · exact ascii_of_isAmong (by decide) separator

end Byte

theorem Radix.ascii_of_isDigit {radix : Radix} {b : UInt8} (member : radix.isDigit b = true) :
    b.toNat < 0x80 := by
  cases radix with
  | binary =>
      simp only [isDigit, Bool.or_eq_true, beq_iff_eq] at member
      rcases member with rfl | rfl
      · decide
      · decide
  | octal =>
      simp only [isDigit, Bool.and_eq_true, decide_eq_true_eq, UInt8.le_iff_toNat_le] at member
      exact Nat.lt_of_le_of_lt member.2 (by decide)
  | decimal => exact Byte.ascii_of_isDigit member
  | hexadecimal =>
      simp only [isDigit, Byte.isHexDigit, Bool.or_eq_true, Bool.and_eq_true, decide_eq_true_eq,
        UInt8.le_iff_toNat_le] at member
      rcases member with (digit | ⟨_, below⟩) | ⟨_, below⟩
      · exact Byte.ascii_of_isDigit digit
      · exact Nat.lt_of_le_of_lt below (by decide)
      · exact Nat.lt_of_le_of_lt below (by decide)

/-! ## Numbers -/

namespace Number

theorem digitsLength_cut (radix : Radix) (rest : Bytes) : CleanCut rest (digitsLength radix rest) := by
  refine CleanCut.takeWhile ?_ rest
  intro b member
  simp only [Bool.or_eq_true, beq_iff_eq] at member
  rcases member with digit | rfl
  · exact Radix.ascii_of_isDigit digit
  · decide

theorem markLength_cut (rest : Bytes) : CleanCut rest (Radix.ofFront rest).markLength := by
  have marked {zero letter : UInt8} {more : Bytes} {letters : String}
      (plain : letters.toList.all (fun c => c.toNat < 0x80) = true) (starts : ¬(zero != 0x30) = true)
      (among : Byte.isAmong letters letter = true) : CleanCut (zero :: letter :: more) (1 + 1) := by
    obtain rfl : zero = 0x30 := by simpa using starts
    exact (CleanCut.one_of_ascii (by decide) _).add
      (CleanCut.one_of_ascii (Byte.ascii_of_isAmong plain among) more)
  fun_cases Radix.ofFront rest with
  | case1 | case5 | case6 => exact .zero _
  | case2 zero letter more starts among => exact marked (by decide) starts among
  | case3 zero letter more starts _ among => exact marked (by decide) starts among
  | case4 zero letter more starts _ _ among => exact marked (by decide) starts among

theorem fractionLength_cut (radix : Radix) (rest : Bytes) :
    CleanCut rest (fractionLength radix rest) := by
  fun_cases fractionLength radix rest with
  | case1 dot digit more starts =>
      simp only [Bool.and_eq_true, beq_iff_eq] at starts
      obtain ⟨⟨_, rfl⟩, _⟩ := starts
      exact (CleanCut.one_of_ascii (by decide) _).add (digitsLength_cut radix (digit :: more))
  | case2 | case3 => exact .zero _

theorem signLength_cut (rest : Bytes) : CleanCut rest (signLength rest) := by
  fun_cases signLength rest with
  | case1 b more sign => exact CleanCut.one_of_ascii (Byte.ascii_of_isAmong (by decide) sign) more
  | case2 | case3 => exact .zero _

theorem exponentLength_cut (radix : Radix) (rest : Bytes) :
    CleanCut rest (exponentLength radix rest) := by
  fun_cases exponentLength radix rest with
  | case1 mark more digits starts =>
      have ascii : mark.toNat < 0x80 := by
        have among := (Bool.and_eq_true_iff.mp starts).1
        cases radix with
        | decimal => exact Byte.ascii_of_isAmong (by decide) among
        | hexadecimal => exact Byte.ascii_of_isAmong (by decide) among
        | binary | octal => cases among
      rw [Nat.add_assoc]
      exact (CleanCut.one_of_ascii ascii more).add
        ((signLength_cut more).add (digitsLength_cut .decimal digits))
  | case2 | case3 => exact .zero _

theorem suffixLength_cut (rest : Bytes) : CleanCut rest (suffixLength rest) :=
  CleanCut.takeWhile (fun _ => Byte.ascii_of_isSuffix) rest

theorem length_cut (rest : Bytes) : CleanCut rest (length rest) := by
  unfold length
  dsimp only
  have whole := (markLength_cut rest).add
    (digitsLength_cut (Radix.ofFront rest) (rest.drop (Radix.ofFront rest).markLength))
  have fraction := whole.add (fractionLength_cut (Radix.ofFront rest) _)
  have exponent := fraction.add (exponentLength_cut (Radix.ofFront rest) _)
  exact exponent.add (suffixLength_cut _)

end Number

/-! ## String literals -/

namespace Quoted

theorem ascii_of_stops {literal : Quoted} {b : UInt8} (ascii : literal.quote.toNat < 0x80)
    (stop : literal.stops b = true) : b.toNat < 0x80 := by
  simp only [stops, Bool.or_eq_true, Bool.and_eq_true, beq_iff_eq] at stop
  rcases stop with (rfl | rfl) | ⟨_, rfl⟩
  · exact ascii
  · decide
  · decide

/-- What the search for a byte that stops leaves is the body behind the bytes it passed. -/
theorem drop_plain {literal : Quoted} {body left : Bytes}
    (found : body.dropWhile (!literal.stops ·) = left) :
    body.drop (body.takeWhile (!literal.stops ·)).length = left := by
  have split := List.takeWhile_append_dropWhile (p := (!literal.stops ·)) (l := body)
  have behind : (body.takeWhile (!literal.stops ·) ++ body.dropWhile (!literal.stops ·)).drop
      (body.takeWhile (!literal.stops ·)).length = body.dropWhile (!literal.stops ·) := List.drop_left
  rw [split, found] at behind
  exact behind

theorem stops_of_found {literal : Quoted} {body rest : Bytes} {b : UInt8}
    (found : body.dropWhile (!literal.stops ·) = b :: rest) : literal.stops b = true := by
  have stopped := Utf8.stopped_of_dropWhile (!literal.stops ·) body (by rw [found, List.head?_cons])
  simpa using stopped

theorem extent_nil {literal : Quoted} {body : Bytes} (read : body.dropWhile (!literal.stops ·) = []) :
    literal.extent body = ⟨body.length, false⟩ := by
  rw [extent]
  split
  · rfl
  · rename_i found
    rw [read] at found
    cases found

theorem extent_cons {literal : Quoted} {body rest : Bytes} {b : UInt8}
    (found : body.dropWhile (!literal.stops ·) = b :: rest) :
    literal.extent body =
      if b == Byte.backslash then
        (literal.extent (rest.drop 1)).after
          ((body.takeWhile (!literal.stops ·)).length + 1 + (rest.take 1).length)
      else if b == Byte.lineFeed then ⟨(body.takeWhile (!literal.stops ·)).length, true⟩
      else if literal.triple then
        if [literal.quote, literal.quote, literal.quote].isPrefixOf (b :: rest) then
          ⟨(body.takeWhile (!literal.stops ·)).length + 3, false⟩
        else (literal.extent rest).after ((body.takeWhile (!literal.stops ·)).length + 1)
      else ⟨(body.takeWhile (!literal.stops ·)).length + 1, false⟩ := by
  rw [extent]
  split
  · rename_i read
    rw [found] at read
    cases read
  · rename_i here
    rw [found] at here
    cases here
    rfl

/-- Three quotes in front of a text are a cut behind an ASCII byte. -/
theorem triple_edge {quote : UInt8} {text : Bytes} (ascii : quote.toNat < 0x80)
    (starts : [quote, quote, quote].isPrefixOf text = true) : AsciiEdge text 3 := by
  obtain ⟨rest, rfl⟩ := List.isPrefixOf_iff_prefix.mp starts
  exact .inr (.inr ⟨2, rfl, quote, rfl, ascii⟩)

/-- The part after the opening quotes ends with the text or next to an ASCII byte;
an escape may skip the first byte of a character, but the part never ends there. -/
theorem extent_edge {literal : Quoted} (ascii : literal.quote.toNat < 0x80) (body : Bytes) :
    AsciiEdge body (literal.extent body).length := by
  -- Every way to go on is a cut of `b :: rest`, which stands behind the plain bytes.
  have behind_plain {body rest : Bytes} {b : UInt8} {cut : Nat}
      (found : body.dropWhile (!literal.stops ·) = b :: rest) (edge : AsciiEdge (b :: rest) cut) :
      AsciiEdge body ((body.takeWhile (!literal.stops ·)).length + cut) :=
    .add (List.takeWhile_sublist _).length_le (drop_plain found ▸ edge)
  fun_induction extent literal body with
  | case1 body found => exact .inl rfl
  | case2 body plain b rest found escape ih =>
      have skipped : AsciiEdge (b :: rest)
          (1 + (rest.take 1).length + (literal.extent (rest.drop 1)).length) := by
        cases rest with
        | nil => exact .add (Nat.le_refl 1) ih
        | cons next rest => exact .add (Nat.le_add_left 2 _) ih
      have edge := behind_plain found skipped
      simpa only [Extent.after, Nat.add_assoc] using edge
  | case3 body plain b rest found _ feed =>
      obtain rfl := eq_of_beq feed
      have here : AsciiEdge (Byte.lineFeed :: rest) 0 := .inr (.inl ⟨Byte.lineFeed, rfl, by decide⟩)
      exact behind_plain found here
  | case4 body plain b rest found _ _ triple closed =>
      exact behind_plain found (triple_edge ascii closed)
  | case5 body plain b rest found _ _ triple opened ih =>
      have skipped : AsciiEdge (b :: rest) (1 + (literal.extent rest).length) :=
        .add (Nat.le_add_left 1 _) ih
      have edge := behind_plain found skipped
      simpa only [Extent.after, Nat.add_assoc] using edge
  | case6 body plain b rest found _ _ single =>
      exact behind_plain found
        (.inr (.inr ⟨0, rfl, b, rfl, ascii_of_stops ascii (stops_of_found found)⟩))

theorem openLength_edge (tripleQuotes : Bool) {quote : UInt8} (ascii : quote.toNat < 0x80)
    (rest : Bytes) :
    AsciiEdge (quote :: rest) (ofFront tripleQuotes quote (quote :: rest)).openLength := by
  unfold openLength
  split
  · rename_i triple
    exact triple_edge ascii (Bool.and_eq_true_iff.mp triple).2
  · exact .inr (.inr ⟨0, rfl, quote, rfl, ascii⟩)

theorem length_edge {tripleQuotes : Bool} {quote : UInt8} {rest : Bytes} (ascii : quote.toNat < 0x80) :
    AsciiEdge (quote :: rest) ((ofFront tripleQuotes quote (quote :: rest)).length (quote :: rest)) := by
  have opened := openLength_edge tripleQuotes ascii rest
  generalize literalEq : ofFront tripleQuotes quote (quote :: rest) = literal at opened ⊢
  have same : literal.quote = quote := by rw [← literalEq, ofFront]
  generalize bodyEq : (quote :: rest).drop literal.openLength = body
  have edge := extent_edge (same ▸ ascii) body
  unfold length
  dsimp only
  rw [bodyEq]
  split
  · rename_i broken
    have last := eq_of_beq (Bool.and_eq_true_iff.mp broken).2
    rw [List.getLast?_eq_getElem?, List.length_take, Nat.min_eq_left edge.fits] at last
    rw [List.getElem?_take] at last
    split at last
    · have earlier : AsciiEdge body ((literal.extent body).length - 1) :=
        .inr (.inl ⟨Byte.carriageReturn, last, by decide⟩)
      exact .add opened.fits (by rw [bodyEq]; exact earlier)
    · cases last
  · exact .add opened.fits (by rw [bodyEq]; exact edge)

end Quoted

/-! ## Comments and operators -/

theorem Bytes.split_of_offsetOf? {needle text : Bytes} {offset : Nat}
    (found : offsetOf? needle text = some offset) :
    ∃ before after, text = before ++ (needle ++ after) ∧ before.length = offset := by
  induction text generalizing offset with
  | nil =>
      unfold offsetOf? at found
      split at found
      · rename_i empty
        cases found
        rw [List.isEmpty_iff.mp empty]
        exact ⟨[], [], rfl, rfl⟩
      · cases found
  | cons b rest ih =>
      unfold offsetOf? at found
      split at found
      · rename_i starts
        cases found
        obtain ⟨after, same⟩ := List.isPrefixOf_iff_prefix.mp starts
        exact ⟨[], after, same.symm, rfl⟩
      · obtain ⟨later, inner, rfl⟩ := Option.map_eq_some_iff.mp found
        obtain ⟨before, after, rfl, rfl⟩ := ih inner
        exact ⟨b :: before, after, rfl, rfl⟩

namespace Delimiter

/-- A delimiter at the front of a text is cut off at a clean cut. -/
theorem cut_of_opens {delimiter : Delimiter} {rest : Bytes} (starts : delimiter.opens rest = true) :
    CleanCut rest delimiter.length := by
  obtain ⟨after, rfl⟩ := List.isPrefixOf_iff_prefix.mp starts
  obtain ⟨bytes, text, _, rfl⟩ := delimiter
  exact .encode_append text after

theorem head_not_continuation (delimiter : Delimiter) :
    ∃ b rest, delimiter.bytes = b :: rest ∧ Utf8.isContinuation b = false := by
  obtain ⟨bytes, text, nonempty, rfl⟩ := delimiter
  exact Utf8.encode_head nonempty

end Delimiter

namespace Comment

theorem lineLength_cut {mark : Delimiter} {rest : Bytes} (starts : mark.opens rest = true) :
    CleanCut rest (lineLength mark rest) :=
  (Delimiter.cut_of_opens starts).add
    (CleanCut.takeWhile_not (fun _ => Byte.ascii_of_isLineBreak) (rest.drop mark.length))

/-- The closing delimiter is found by its bytes alone; it starts with a byte that no
character has inside, so it is not found in the middle of one. -/
theorem blockLength_cut {rule : BlockRule} {rest : Bytes} (starts : rule.opening.opens rest = true) :
    CleanCut rest (blockLength rule rest) := by
  have opened := Delimiter.cut_of_opens starts
  unfold blockLength
  dsimp only
  split
  · rename_i offset found
    obtain ⟨before, after, bodyEq, rfl⟩ := Bytes.split_of_offsetOf? found
    obtain ⟨b, more, closes, led⟩ := rule.closing.head_not_continuation
    rw [Nat.add_assoc]
    refine opened.add ?_
    rw [bodyEq]
    refine CleanCut.add ⟨by simp, .of_not_continuation (b := b) ?_ led⟩ ?_
    · simp [closes]
    · rw [List.drop_left]
      exact Delimiter.cut_of_opens (List.isPrefixOf_iff_prefix.mpr ⟨after, rfl⟩)
  · exact opened.add (.of_asciiEdge (.inl rfl))

end Comment

namespace Lexeme

theorem comment?_cut {language : Language} {lineStart : Bool} {rest : Bytes} {lexeme : Lexeme}
    (found : comment? language lineStart rest = some lexeme) : CleanCut rest lexeme.length := by
  unfold comment? at found
  split at found
  · rename_i rule block
    cases found
    have starts := List.find?_some block
    exact Comment.blockLength_cut (Bool.and_eq_true_iff.mp starts).2
  · obtain ⟨mark, line, rfl⟩ := Option.map_eq_some_iff.mp found
    exact Comment.lineLength_cut (List.find?_some line)

theorem mark_cut {language : Language} {b : UInt8} {bs : Bytes} (member : Byte.isMark b = true) :
    CleanCut (b :: bs) (mark language (b :: bs)).length := by
  unfold mark
  split
  · rename_i operator found
    exact Delimiter.cut_of_opens (List.find?_some found)
  · exact CleanCut.one_of_ascii (Byte.ascii_of_isMark member) bs

theorem ascii_of_isQuote {language : Language} {b : UInt8} (quote : language.isQuote b = true) :
    b.toNat < 0x80 :=
  Byte.ascii_of_isPunctuation (language.quotes_punctuation b (List.contains_iff_mem.mp quote))

/-- The first lexeme of a text ends in the text and cuts no character of it. -/
theorem first_cut (language : Language) (context : Context) (b : UInt8) (bs : Bytes) :
    CleanCut (b :: bs) (first language context b bs).length := by
  unfold first
  dsimp only
  split
  · exact CleanCut.runLength _ _
  · split
    · rename_i quote
      exact .of_asciiEdge (Quoted.length_edge (ascii_of_isQuote quote))
    · split
      · rename_i found
        exact comment?_cut found
      · split
        · exact Number.length_cut _
        · split
          · exact CleanCut.runLength _ _
          · split
            · rename_i member
              exact mark_cut member
            · exact CleanCut.width (List.cons_ne_nil b bs)

end Lexeme

end CodeTint
