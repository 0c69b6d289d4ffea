import CodeTint.Proofs.Scan
import Mathlib.Data.List.Find
import Mathlib.Data.List.Fold
import Mathlib.Data.List.MinMax

/-!
# How far the scanner looks ahead

Where a lexeme ends is settled by a bounded number of bytes behind it: four, or
as many as the longest operator, comment mark or opening of a block comment
needs. One lemma for each kind of lexeme says that more text behind these bytes
changes nothing; they are put together in the order in which `Lexeme.first` asks.
So the tokens of a text are those of any longer text, up to a few at its end.
-/

namespace CodeTint

theorem takeWhile_append_of_stopped {α : Type} {isMember : α → Bool} {text : List α}
    (stops : (text.takeWhile isMember).length < text.length) (more : List α) :
    (text ++ more).takeWhile isMember = text.takeWhile isMember := by
  rw [List.takeWhile_append, if_neg (Nat.ne_of_lt stops)]

theorem Bytes.isPrefixOf_append {needle text : Bytes} (fits : needle.length ≤ text.length)
    (more : Bytes) : needle.isPrefixOf (text ++ more) = needle.isPrefixOf text := by
  rw [Bool.eq_iff_iff, List.isPrefixOf_iff_prefix, List.isPrefixOf_iff_prefix]
  constructor
  · intro whole
    exact List.prefix_of_prefix_length_le whole (List.prefix_append text more) fits
  · intro here
    exact here.trans (List.prefix_append text more)

/-! ## Characters -/

namespace Utf8

theorem Sequence.length_le {c : Char} {sequence : Bytes} (shape : Sequence c sequence) :
    sequence.length ≤ 4 := by
  cases shape <;> simp

/-- Four bytes settle which character they start with, if any. -/
theorem decode?_append_of_long {bytes : Bytes} (long : 4 ≤ bytes.length) (more : Bytes) :
    decode? (bytes ++ more) = decode? bytes := by
  cases found : decode? bytes with
  | some entry => exact decode?_append found more
  | none =>
      cases whole : decode? (bytes ++ more) with
      | none => rfl
      | some entry =>
          obtain ⟨sequence, rest, same, shape, _⟩ := sequence_of_decode? whole
          have inside : sequence <+: bytes :=
            List.prefix_of_prefix_length_le ⟨rest, same.symm⟩ (List.prefix_append bytes more)
              (Nat.le_trans shape.length_le long)
          obtain ⟨tail, rfl⟩ := inside
          rw [decode?_sequence_append shape] at found
          cases found

variable {isMember : Char → Bool} {bytes : Bytes}

theorem startsWith_append (long : 4 ≤ bytes.length) (more : Bytes) :
    startsWith isMember (bytes ++ more) = startsWith isMember bytes := by
  unfold startsWith
  rw [decode?_append_of_long long]

theorem width_append (long : 4 ≤ bytes.length) (more : Bytes) : width (bytes ++ more) = width bytes := by
  unfold width
  rw [decode?_append_of_long long]

theorem runLength_append (far : runLength isMember bytes + 4 ≤ bytes.length) (more : Bytes) :
    runLength isMember (bytes ++ more) = runLength isMember bytes := by
  fun_induction runLength isMember bytes with
  | case1 bytes c width found member ih =>
      have bound := (decode?_width found).2
      rw [runLength_of_decode? (decode?_append found more), if_pos member,
        List.drop_append_of_le_length bound, ih (by rw [List.length_drop]; omega)]
  | case2 bytes c width found other =>
      rw [runLength_of_decode? (decode?_append found more), if_neg other]
  | case3 bytes absent =>
      rw [← decode?_append_of_long (by omega) more] at absent
      exact runLength_of_undecodable absent

end Utf8

/-! ## Numbers -/

namespace Number

variable {radix : Radix} {rest : Bytes}

theorem ofFront_append (long : 2 ≤ rest.length) (more : Bytes) :
    Radix.ofFront (rest ++ more) = Radix.ofFront rest := by
  match rest, long with
  | zero :: letter :: rest, _ => rfl

theorem starts_append {afterOperand : Bool} (long : 2 ≤ rest.length) (more : Bytes) :
    starts afterOperand (rest ++ more) = starts afterOperand rest := by
  match rest, long with
  | first :: second :: rest, _ => rfl

theorem digitsLength_append (stops : digitsLength radix rest < rest.length) (more : Bytes) :
    digitsLength radix (rest ++ more) = digitsLength radix rest := by
  unfold digitsLength at stops ⊢
  rw [takeWhile_append_of_stopped stops]

theorem suffixLength_append (stops : suffixLength rest < rest.length) (more : Bytes) :
    suffixLength (rest ++ more) = suffixLength rest := by
  unfold suffixLength at stops ⊢
  rw [takeWhile_append_of_stopped stops]

/-- A dot and the byte behind it settle whether there is a fraction. -/
theorem fractionLength_append (far : fractionLength radix rest + 2 ≤ rest.length) (more : Bytes) :
    fractionLength radix (rest ++ more) = fractionLength radix rest := by
  match rest, far with
  | dot :: digit :: rest, far =>
      rw [fractionLength] at far
      rw [List.cons_append, List.cons_append, fractionLength, fractionLength]
      split
      · rename_i starts
        rw [if_pos starts, List.length_cons] at far
        rw [← List.cons_append, digitsLength_append (by omega)]
      · rfl

theorem signLength_append (nonempty : 0 < rest.length) (more : Bytes) :
    signLength (rest ++ more) = signLength rest := by
  match rest, nonempty with
  | b :: rest, _ => rfl

theorem signLength_le_one (rest : Bytes) : signLength rest ≤ 1 := by
  fun_cases signLength rest with
  | case1 | case2 | case3 => omega

/-- A mark, a sign and the byte behind them settle whether there is an exponent. -/
theorem exponentLength_append (far : exponentLength radix rest + 3 ≤ rest.length) (more : Bytes) :
    exponentLength radix (rest ++ more) = exponentLength radix rest := by
  match rest, far with
  | mark :: rest, far =>
      have sign := signLength_le_one rest
      rw [List.length_cons] at far
      have digits : rest.drop (signLength rest) ≠ [] := by
        rw [ne_eq, List.drop_eq_nil_iff]
        omega
      rw [List.cons_append]
      unfold exponentLength at far ⊢
      dsimp only at far ⊢
      rw [signLength_append (by omega), List.drop_append_of_le_length (by omega),
        List.head?_append_of_ne_nil _ digits]
      split
      · rename_i starts
        rw [if_pos starts] at far
        rw [digitsLength_append (by rw [List.length_drop]; omega)]
      · rfl

theorem length_append (far : length rest + 3 ≤ rest.length) (more : Bytes) :
    length (rest ++ more) = length rest := by
  unfold length at far ⊢
  dsimp only at far ⊢
  rw [ofFront_append (by omega)]
  generalize Radix.ofFront rest = radix at far ⊢
  rw [List.drop_append_of_le_length (by omega), digitsLength_append (by rw [List.length_drop]; omega)]
  generalize radix.markLength + digitsLength radix (rest.drop radix.markLength) = whole at far ⊢
  rw [List.drop_append_of_le_length (by omega), fractionLength_append (by rw [List.length_drop]; omega)]
  generalize whole + fractionLength radix (rest.drop whole) = fraction at far ⊢
  rw [List.drop_append_of_le_length (by omega), exponentLength_append (by rw [List.length_drop]; omega)]
  generalize fraction + exponentLength radix (rest.drop fraction) = exponent at far ⊢
  rw [List.drop_append_of_le_length (by omega), suffixLength_append (by rw [List.length_drop]; omega)]

end Number

/-! ## String literals -/

namespace Quoted

variable {literal : Quoted} {body rest : Bytes} {b : UInt8}

theorem triple_append {quote : UInt8} (long : 3 ≤ rest.length) (more : Bytes) :
    [quote, quote, quote].isPrefixOf (rest ++ more) = [quote, quote, quote].isPrefixOf rest := by
  have three : [quote, quote, quote].length ≤ rest.length := long
  exact Bytes.isPrefixOf_append three more

theorem ofFront_append {tripleQuotes : Bool} {quote : UInt8} (long : 3 ≤ rest.length) (more : Bytes) :
    ofFront tripleQuotes quote (rest ++ more) = ofFront tripleQuotes quote rest := by
  unfold ofFront
  rw [triple_append long]

/-- The bytes passed, the byte that stops and those behind it are all of the body. -/
theorem length_of_found (found : body.dropWhile (!literal.stops ·) = b :: rest) :
    (body.takeWhile (!literal.stops ·)).length + (rest.length + 1) = body.length := by
  have behind := congrArg List.length (drop_plain found)
  rw [List.length_drop, List.length_cons] at behind
  omega

theorem found_append (found : body.dropWhile (!literal.stops ·) = b :: rest) (more : Bytes) :
    (body ++ more).dropWhile (!literal.stops ·) = b :: (rest ++ more) := by
  rw [List.dropWhile_append, found]
  rfl

theorem plain_append (found : body.dropWhile (!literal.stops ·) = b :: rest) (more : Bytes) :
    (body ++ more).takeWhile (!literal.stops ·) = body.takeWhile (!literal.stops ·) := by
  have inside := length_of_found found
  exact takeWhile_append_of_stopped (by omega) more

/-- The search for three quotes meets the first of them in front of the text, so two
bytes behind the end settle where it is. -/
theorem extent_append (far : (literal.extent body).length + 2 ≤ body.length) (more : Bytes) :
    literal.extent (body ++ more) = literal.extent body := by
  fun_induction extent literal body with
  | case1 body found =>
      dsimp only at far
      omega
  | case2 body plain b rest found escape ih =>
      have whole := length_of_found found
      rw [extent_cons (found_append found more), plain_append found, if_pos escape]
      cases rest with
      | nil =>
          simp only [Extent.after, List.length_nil] at far whole
          omega
      | cons next rest =>
          simp only [Extent.after, List.cons_append, List.drop_succ_cons, List.drop_zero,
            List.take_succ_cons, List.take_zero, List.length_cons, List.length_nil] at far ih whole ⊢
          rw [ih (by omega)]
  | case3 body plain b rest found other feed =>
      rw [extent_cons (found_append found more), plain_append found, if_neg other, if_pos feed]
  | case4 body plain b rest found other inside triple closed =>
      have whole := length_of_found found
      dsimp only at far
      rw [extent_cons (found_append found more), plain_append found, if_neg other, if_neg inside,
        if_pos triple, if_pos]
      rw [← List.cons_append, triple_append (by rw [List.length_cons]; omega), closed]
  | case5 body plain b rest found other inside triple opened ih =>
      have whole := length_of_found found
      simp only [Extent.after] at far
      rw [extent_cons (found_append found more), plain_append found, if_neg other, if_neg inside,
        if_pos triple, if_neg, ih (by omega)]
      rw [← List.cons_append, triple_append (by rw [List.length_cons]; omega)]
      exact opened
  | case6 body plain b rest found other inside single =>
      rw [extent_cons (found_append found more), plain_append found, if_neg other, if_neg inside,
        if_neg single]

theorem length_append (far : literal.length rest + 3 ≤ rest.length) (more : Bytes) :
    literal.length (rest ++ more) = literal.length rest := by
  have ends : literal.openLength + (literal.extent (rest.drop literal.openLength)).length + 2 ≤
      rest.length := by
    unfold length at far
    dsimp only at far
    split at far <;> omega
  have same : literal.extent (rest.drop literal.openLength ++ more) =
      literal.extent (rest.drop literal.openLength) :=
    extent_append (by rw [List.length_drop]; omega) more
  unfold length
  dsimp only
  rw [List.drop_append_of_le_length (by omega), same, List.take_append_of_le_length]
  rw [List.length_drop]
  omega

end Quoted

/-! ## Comments and operators -/

theorem Bytes.offsetOf?_append {needle text : Bytes} {offset : Nat}
    (found : offsetOf? needle text = some offset) (more : Bytes) :
    offsetOf? needle (text ++ more) = some offset := by
  induction text generalizing offset with
  | nil =>
      obtain ⟨before, after, same, rfl⟩ := split_of_offsetOf? found
      obtain ⟨rfl, rest⟩ := List.append_eq_nil_iff.mp same.symm
      obtain ⟨rfl, rfl⟩ := List.append_eq_nil_iff.mp rest
      cases more with
      | nil => rfl
      | cons b more => rfl
  | cons b rest ih =>
      rw [List.cons_append]
      unfold offsetOf? at found ⊢
      split at found
      · rename_i starts
        cases found
        rw [if_pos]
        exact List.isPrefixOf_iff_prefix.mpr
          ((List.isPrefixOf_iff_prefix.mp starts).trans (List.prefix_append (b :: rest) more))
      · rename_i other
        obtain ⟨later, inner, rfl⟩ := Option.map_eq_some_iff.mp found
        -- The needle stands in the rest, so the text is long enough to see that it is not in front.
        obtain ⟨before, after, same, _⟩ := split_of_offsetOf? inner
        have fits : needle.length ≤ (b :: rest).length := by
          rw [same]
          simp only [List.length_cons, List.length_append]
          omega
        rw [← List.cons_append, isPrefixOf_append fits, if_neg other, ih inner]
        rfl

theorem Delimiter.opens_append {delimiter : Delimiter} {rest : Bytes}
    (fits : delimiter.length ≤ rest.length) (more : Bytes) :
    delimiter.opens (rest ++ more) = delimiter.opens rest :=
  Bytes.isPrefixOf_append fits more

namespace Comment

theorem lineLength_append {mark : Delimiter} {rest : Bytes} (stops : lineLength mark rest < rest.length)
    (more : Bytes) : lineLength mark (rest ++ more) = lineLength mark rest := by
  unfold lineLength at stops ⊢
  rw [List.drop_append_of_le_length (by omega),
    takeWhile_append_of_stopped (by rw [List.length_drop]; omega)]

theorem blockLength_append {rule : BlockRule} {rest : Bytes} (stops : blockLength rule rest < rest.length)
    (more : Bytes) : blockLength rule (rest ++ more) = blockLength rule rest := by
  unfold blockLength at stops ⊢
  dsimp only at stops ⊢
  cases found : Bytes.offsetOf? rule.closing.bytes (rest.drop rule.opening.length) with
  | some offset =>
      rw [found] at stops
      dsimp only at stops
      rw [List.drop_append_of_le_length (by omega), Bytes.offsetOf?_append found]
  | none =>
      rw [found] at stops
      dsimp only at stops
      rw [List.length_drop] at stops
      omega

end Comment

namespace Language

/-- The length of the longest of several delimiters. -/
def longest (delimiters : List Delimiter) : Nat :=
  (delimiters.map Delimiter.length).foldl max 0

/-- The number of bytes behind a token that settle where it ends. -/
def lookahead (language : Language) : Nat :=
  max (max 4 language.maxOperatorLength)
    (max (longest language.lineComments) (longest (language.blockComments.map BlockRule.opening)))

theorem length_le_longest {delimiters : List Delimiter} {delimiter : Delimiter}
    (member : delimiter ∈ delimiters) : delimiter.length ≤ longest delimiters := by
  unfold longest
  rw [List.foldl_eq_foldr]
  exact List.le_max_of_le' 0 (List.mem_map_of_mem member) (Nat.le_refl _)

variable {language : Language} {rest : Bytes}

theorem four_le_lookahead (language : Language) : 4 ≤ language.lookahead := by
  unfold lookahead
  omega

theorem operator?_append (long : language.lookahead ≤ rest.length) (more : Bytes) :
    language.operator? (rest ++ more) = language.operator? rest := by
  refine List.find?_congr fun operator member => Delimiter.opens_append ?_ more
  have bound : operator.length ≤ language.maxOperatorLength := length_le_longest member
  unfold lookahead at long
  omega

theorem lineComment?_append (long : language.lookahead ≤ rest.length) (more : Bytes) :
    language.lineComment? (rest ++ more) = language.lineComment? rest := by
  refine List.find?_congr fun mark member => Delimiter.opens_append ?_ more
  have bound := length_le_longest member
  unfold lookahead at long
  omega

theorem blockComment?_append {lineStart : Bool} (long : language.lookahead ≤ rest.length)
    (more : Bytes) :
    language.blockComment? lineStart (rest ++ more) = language.blockComment? lineStart rest := by
  refine List.find?_congr fun rule member => ?_
  have bound := length_le_longest (List.mem_map_of_mem (f := BlockRule.opening) member)
  unfold lookahead at long
  rw [Delimiter.opens_append (by omega)]

end Language

/-! ## The first lexeme -/

namespace Lexeme

open Unicode (isWhiteSpace)

variable {language : Language} {rest : Bytes}

theorem identifier_append (far : (identifier language rest).length + 4 ≤ rest.length) (more : Bytes) :
    identifier language (rest ++ more) = identifier language rest := by
  unfold identifier at far ⊢
  dsimp only at far ⊢
  rw [Utf8.runLength_append far, List.take_append_of_le_length (by omega)]

theorem mark_append (long : language.lookahead ≤ rest.length) (more : Bytes) :
    mark language (rest ++ more) = mark language rest := by
  unfold mark
  rw [Language.operator?_append long]

theorem comment?_append_of_none {lineStart : Bool} (absent : comment? language lineStart rest = none)
    (long : language.lookahead ≤ rest.length) (more : Bytes) :
    comment? language lineStart (rest ++ more) = none := by
  unfold comment? at absent ⊢
  rw [Language.blockComment?_append long, Language.lineComment?_append long]
  split at absent
  · cases absent
  · exact Option.map_eq_none_iff.mpr (Option.map_eq_none_iff.mp absent)

theorem comment?_append_of_some {lineStart : Bool} {lexeme : Lexeme}
    (found : comment? language lineStart rest = some lexeme)
    (far : lexeme.length + language.lookahead ≤ rest.length) (more : Bytes) :
    comment? language lineStart (rest ++ more) = some lexeme := by
  have four := language.four_le_lookahead
  unfold comment? at found ⊢
  rw [Language.blockComment?_append (by omega), Language.lineComment?_append (by omega)]
  split at found
  · cases found
    dsimp only at far
    rw [Comment.blockLength_append (by omega)]
  · obtain ⟨mark, marked, rfl⟩ := Option.map_eq_some_iff.mp found
    dsimp only at far
    rw [marked, Option.map_some, Comment.lineLength_append (by omega)]

/-- The lexeme in front of a text is the same with more text behind it, if the text
goes on far enough behind the lexeme. -/
theorem first_append {context : Context} {b : UInt8} {bs : Bytes}
    (far : (first language context b bs).length + language.lookahead ≤ (b :: bs).length)
    (more : Bytes) : first language context b (bs ++ more) = first language context b bs := by
  have four := language.four_le_lookahead
  unfold first at far ⊢
  dsimp only at far ⊢
  rw [← List.cons_append]
  generalize b :: bs = rest at far ⊢
  -- The tests are those of `first`, in its order.
  rw [Utf8.startsWith_append (by omega), Utf8.startsWith_append (by omega),
    Number.starts_append (by omega)]
  by_cases blank : Utf8.startsWith isWhiteSpace rest
  · rw [if_pos blank] at far
    rw [if_pos blank, if_pos blank, Utf8.runLength_append (by dsimp only at far; omega)]
  rw [if_neg blank] at far
  rw [if_neg blank, if_neg blank]
  by_cases quoted : language.isQuote b
  · rw [if_pos quoted] at far
    dsimp only at far
    rw [if_pos quoted, if_pos quoted, Quoted.ofFront_append (by omega),
      Quoted.length_append (by omega)]
  rw [if_neg quoted] at far
  rw [if_neg quoted, if_neg quoted]
  cases found : comment? language context.lineStart rest with
  | some comment =>
      rw [found] at far
      rw [comment?_append_of_some found far]
  | none =>
      rw [found] at far
      rw [comment?_append_of_none found (by omega)]
      dsimp only at far ⊢
      by_cases number : Number.starts context.afterOperand rest
      · rw [if_pos number] at far
        dsimp only at far
        rw [if_pos number, if_pos number, Number.length_append (by omega)]
      rw [if_neg number] at far
      rw [if_neg number, if_neg number]
      by_cases letter : Utf8.startsWith isIdentStart rest
      · rw [if_pos letter] at far
        rw [if_pos letter, if_pos letter, identifier_append (by omega)]
      rw [if_neg letter, if_neg letter, mark_append (by omega), Utf8.width_append (by omega)]

end Lexeme

/-! ## Runs -/

namespace Cursor

variable {language : Language} {cursor after : Cursor} {token : Token}

/-- The cursor with more text behind what is not yet read. -/
def extended (more : Bytes) (cursor : Cursor) : Cursor :=
  { cursor with rest := cursor.rest ++ more }

theorem advance_extended {lexeme : Lexeme} (fits : lexeme.length ≤ cursor.rest.length) (more : Bytes) :
    (cursor.extended more).advance lexeme = (cursor.advance lexeme).extended more := by
  unfold advance extended
  dsimp only
  rw [List.take_append_of_le_length fits, List.drop_append_of_le_length fits]

theorem next?_extended (found : cursor.next? language = some (token, after))
    (far : language.lookahead ≤ after.rest.length) (more : Bytes) :
    (cursor.extended more).next? language = some (token, after.extended more) := by
  have four := language.four_le_lookahead
  obtain ⟨b, bs, lexeme, here, lexemeEq, rfl, rfl⟩ := next?_eq_some found
  have ends : lexeme.length + language.lookahead ≤ cursor.rest.length := by
    change language.lookahead ≤ (cursor.rest.drop lexeme.length).length at far
    rw [List.length_drop] at far
    omega
  have longer : (cursor.extended more).rest = b :: (bs ++ more) := by
    change cursor.rest ++ more = _
    rw [here, List.cons_append]
  have same : Lexeme.first language (cursor.extended more).context b (bs ++ more) = lexeme := by
    rw [lexemeEq]
    refine Lexeme.first_append ?_ more
    rw [← here]
    exact lexemeEq ▸ ends
  rw [next?_cons language longer, same, advance_extended (by omega)]
  rfl

/-- What is left after a token of a run was left before it. -/
theorem rest_length_le_of_mem_run (member : (token, after) ∈ cursor.run language) :
    after.rest.length ≤ cursor.rest.length := by
  obtain ⟨before, left, found⟩ := run_forall (fun other => other.rest.length ≤ cursor.rest.length)
    (fun left found => Nat.le_trans (Nat.le_of_lt (next?_shorter found)) left) (Nat.le_refl _) member
  exact Nat.le_trans (Nat.le_of_lt (next?_shorter found)) left

theorem run_extended {count : Nat} (found : (cursor.run language)[count]? = some (token, after))
    (far : language.lookahead ≤ after.rest.length) (more : Bytes) :
    (((cursor.extended more).run language).map Prod.fst).take (count + 1) =
      ((cursor.run language).map Prod.fst).take (count + 1) := by
  fun_induction run language cursor generalizing count with
  | case1 cursor read => cases found
  | case2 cursor first next step ih =>
      have left : after.rest.length ≤ next.rest.length := by
        rcases List.mem_cons.mp (List.mem_of_getElem? found) with same | later
        · cases same
          exact Nat.le_refl _
        · exact rest_length_le_of_mem_run later
      rw [run_of_some (next?_extended step (Nat.le_trans far left) more), List.map_cons, List.map_cons,
        List.take_succ_cons, List.take_succ_cons]
      cases count with
      | zero => rfl
      | succ count => rw [ih found]

end Cursor

/-- Bytes far enough behind a token have no influence on it or on those before it. -/
theorem take_scan_append {language : Language} {source : Bytes} {count : Nat} {token : Token}
    (found : (scan language source)[count]? = some token)
    (far : token.stop + language.lookahead ≤ source.length) (more : Bytes) :
    (scan language (source ++ more)).take (count + 1) = (scan language source).take (count + 1) := by
  unfold scan at found
  rw [List.getElem?_map] at found
  obtain ⟨⟨token, after⟩, reached, rfl⟩ := Option.map_eq_some_iff.mp found
  obtain ⟨before, stands, step⟩ := Cursor.run_forall (Cursor.Stands source)
    (fun stands step => (stands.next? step).2.2.2) (.start source) (List.mem_of_getElem? reached)
  obtain ⟨_, stops, _, behind⟩ := stands.next? step
  refine Cursor.run_extended reached ?_ more
  rw [behind.rest, List.length_drop, ← stops]
  dsimp only at far
  omega

/-- A line comment at the end of `ab <!---` grows with the text, the blank before it is settled. -/
theorem take_scan_append_blank :
    (scan (.ofSpec { name := "", lineComments := ["<!---"] })
        [0x61, 0x62, 0x20, 0x3C, 0x21, 0x2D, 0x2D, 0x2D])[1]? = some ⟨.whitespace, 2, 3⟩ ∧
      (scan (.ofSpec { name := "", lineComments := ["<!---"] })
        ([0x61, 0x62, 0x20, 0x3C, 0x21, 0x2D, 0x2D, 0x2D] ++ [0x63])).take 2 =
      (scan (.ofSpec { name := "", lineComments := ["<!---"] })
        [0x61, 0x62, 0x20, 0x3C, 0x21, 0x2D, 0x2D, 0x2D]).take 2 := by
  have found : (scan (.ofSpec { name := "", lineComments := ["<!---"] })
      [0x61, 0x62, 0x20, 0x3C, 0x21, 0x2D, 0x2D, 0x2D])[1]? = some ⟨.whitespace, 2, 3⟩ := by
    decide +kernel
  exact ⟨found, take_scan_append found (by decide +kernel) _⟩

end CodeTint
