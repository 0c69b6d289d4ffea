import CodeTint.Proofs.LongestMatch

/-!
# Compiled tables

The tables of a language give at every offset the longest operator, the longest
line comment mark and the block comment with the longest opening that its
description has for this place. A scan asks a language nothing else, apart from
keywords and quotes, so languages that answer alike give the same tokens.
-/

namespace CodeTint

/-! ## What a description offers -/

namespace Spec

/-- The operators that can be found. -/
def operatorTexts (spec : Spec) : Set String :=
  {text | text ∈ spec.operators ∧ Text.StartsMark text}

/-- The marks that can start a line comment. -/
def lineMarks (spec : Spec) : Set String :=
  {text | text ∈ spec.lineComments ∧ text ≠ ""}

/-- The descriptions list the same keywords, operators, line comment marks and quotes, in any order
and any number of times, and agree in all else that a scan depends on. -/
structure SameEntries (spec other : Spec) : Prop where
  keywords : ∀ keyword, keyword ∈ other.keywords ↔ keyword ∈ spec.keywords
  operators : ∀ operator, operator ∈ other.operators ↔ operator ∈ spec.operators
  lineComments : ∀ mark, mark ∈ other.lineComments ↔ mark ∈ spec.lineComments
  quotes : ∀ quote, quote ∈ other.quotes.toList ↔ quote ∈ spec.quotes.toList
  blockComments : other.blockComments = spec.blockComments
  tripleQuotes : other.tripleQuotes = spec.tripleQuotes
  ignoreCase : other.ignoreCase = spec.ignoreCase

end Spec

namespace BlockComment

/-- The pair is usable, and its opening stands at a place where it is allowed. -/
structure OpensAt (source : Bytes) (offset : Nat) (pair : BlockComment) : Prop where
  usable : pair.Usable
  spelled : Text.bytes pair.opening <+: source.drop offset
  placed : pair.lineStart = true → Language.isLineStart source offset = true

def openLength (pair : BlockComment) : Nat :=
  (Text.bytes pair.opening).length

end BlockComment

/-! ## Operators and line comment marks -/

theorem Text.ne_empty_of_startsMark {text : String} (starts : Text.StartsMark text) : text ≠ "" := by
  rintro rfl
  obtain ⟨_, start, _⟩ := starts
  cases start

namespace Language

theorem spelled_operatorsOf (spec : Spec) : Delimiter.Spelled (operatorsOf spec) spec.operatorTexts := by
  constructor
  · intro delimiter member
    obtain ⟨listed, mark⟩ := List.mem_filter.mp member
    obtain ⟨text, inSpec, spelled⟩ := List.mem_filterMap.mp listed
    have same := (Delimiter.bytes_of_ofString? spelled).2
    rw [same, Option.any_eq_true] at mark
    exact ⟨text, ⟨inSpec, mark⟩, same⟩
  · rintro text ⟨inSpec, starts⟩
    obtain ⟨delimiter, spelled⟩ := Delimiter.exists_ofString? (Text.ne_empty_of_startsMark starts)
    have same := (Delimiter.bytes_of_ofString? spelled).2
    refine ⟨delimiter, List.mem_filter.mpr ⟨List.mem_filterMap.mpr ⟨text, inSpec, spelled⟩, ?_⟩, same⟩
    rw [same, Option.any_eq_true]
    exact starts

theorem spelled_lineComments (spec : Spec) :
    Delimiter.Spelled (spec.lineComments.filterMap Delimiter.ofString?) spec.lineMarks := by
  constructor
  · intro delimiter member
    obtain ⟨text, inSpec, spelled⟩ := List.mem_filterMap.mp member
    obtain ⟨filled, same⟩ := Delimiter.bytes_of_ofString? spelled
    exact ⟨text, ⟨inSpec, filled⟩, same⟩
  · rintro text ⟨inSpec, filled⟩
    obtain ⟨delimiter, spelled⟩ := Delimiter.exists_ofString? filled
    exact ⟨delimiter, List.mem_filterMap.mpr ⟨text, inSpec, spelled⟩,
      (Delimiter.bytes_of_ofString? spelled).2⟩

end Language

/-! ## Block comments -/

namespace BlockRule

variable {pair : BlockComment} {rule other : BlockRule}

theorem exists_ofPair? (usable : pair.Usable) : ∃ rule, ofPair? pair = some rule := by
  obtain ⟨opening, opens⟩ := Delimiter.exists_ofString? usable.1
  obtain ⟨closing, closes⟩ := Delimiter.exists_ofString? usable.2
  exact ⟨_, by rw [ofPair?, opens, closes]⟩

theorem Compiles.unique (compiles : rule.Compiles pair) (compiles' : other.Compiles pair) : rule = other := by
  have opening := Delimiter.eq_of_bytes (compiles.opening.trans compiles'.opening.symm)
  have closing := Delimiter.eq_of_bytes (compiles.closing.trans compiles'.closing.symm)
  have lineStart := compiles.lineStart.trans compiles'.lineStart.symm
  cases rule
  cases other
  simp_all

theorem ofPair?_eq_some_iff : ofPair? pair = some rule ↔ rule.Compiles pair := by
  constructor
  · exact compiles_ofPair?
  · intro compiles
    obtain ⟨made, found⟩ := exists_ofPair? compiles.usable
    rw [found, (compiles_ofPair? found).unique compiles]

theorem Compiles.opensAt_iff (compiles : rule.Compiles pair) (source : Bytes) (offset : Nat) :
    ((Language.isLineStart source offset || !rule.lineStart) &&
        rule.opening.opens (source.drop offset)) = true ↔
      pair.OpensAt source offset := by
  rw [Bool.and_eq_true, Delimiter.opens_iff, compiles.opening, compiles.lineStart]
  constructor
  · rintro ⟨placed, spelled⟩
    refine ⟨compiles.usable, spelled, fun lineStart => ?_⟩
    simpa [lineStart] using placed
  · intro opens
    refine ⟨?_, opens.spelled⟩
    cases lineStart : pair.lineStart with
    | false => simp
    | true => simp [opens.placed lineStart]

end BlockRule

namespace Language

/-- The block comment found is the first in the description of those with the longest opening. -/
theorem blockCommentAt?_iff {spec : Spec} {source : Bytes} {offset : Nat} {rule : BlockRule} :
    (ofSpec spec).blockCommentAt? source offset = some rule ↔
      ∃ before pair after, spec.blockComments = before ++ pair :: after ∧
        FirstLongest BlockComment.openLength (BlockComment.OpensAt source offset) before pair after ∧
        rule.Compiles pair := by
  simp only [← BlockRule.ofPair?_eq_some_iff]
  refine find?_longest_first_iff.trans (firstLongest_filterMap_iff ?_ ?_ ?_)
  · intro pair rule found
    exact (BlockRule.compiles_ofPair? found).opensAt_iff source offset
  · intro pair rule found
    exact congrArg List.length (BlockRule.compiles_ofPair? found).opening
  · intro pair opens
    exact BlockRule.exists_ofPair? opens.usable

theorem blockCommentAt?_eq_none_iff {spec : Spec} {source : Bytes} {offset : Nat} :
    (ofSpec spec).blockCommentAt? source offset = none ↔
      ∀ pair ∈ spec.blockComments, ¬pair.OpensAt source offset := by
  refine List.find?_eq_none.trans ?_
  constructor
  · intro unfit pair listed opens
    obtain ⟨rule, found⟩ := BlockRule.exists_ofPair? opens.usable
    refine unfit rule (List.mem_mergeSort.mpr (List.mem_filterMap.mpr ⟨pair, listed, found⟩)) ?_
    exact ((BlockRule.compiles_ofPair? found).opensAt_iff source offset).mpr opens
  · intro closed rule member opens
    obtain ⟨pair, listed, found⟩ := List.mem_filterMap.mp (List.mem_mergeSort.mp member)
    exact closed pair listed (((BlockRule.compiles_ofPair? found).opensAt_iff source offset).mp opens)

end Language

/-! ## Scans with languages that answer alike -/

namespace Language

/-- A scan cannot tell the languages apart. -/
structure Agrees (language other : Language) : Prop where
  isKeyword : ∀ lexeme, other.isKeyword lexeme = language.isKeyword lexeme
  isQuote : ∀ b, other.isQuote b = language.isQuote b
  operator : ∀ rest, other.operator? rest = language.operator? rest
  lineComment : ∀ rest, other.lineComment? rest = language.lineComment? rest
  blockComment : ∀ lineStart rest, other.blockComment? lineStart rest = language.blockComment? lineStart rest
  tripleQuotes : other.tripleQuotes = language.tripleQuotes

namespace Agrees

variable {language other : Language}

theorem first (agrees : language.Agrees other) (context : Context) (b : UInt8) (bs : Bytes) :
    Lexeme.first other context b bs = Lexeme.first language context b bs := by
  simp only [Lexeme.first, Lexeme.comment?, Lexeme.identifier, Lexeme.mark, agrees.isKeyword, agrees.isQuote,
    agrees.operator, agrees.lineComment, agrees.blockComment, agrees.tripleQuotes]

theorem next? (agrees : language.Agrees other) (cursor : Cursor) :
    cursor.next? other = cursor.next? language := by
  cases here : cursor.rest with
  | nil => rw [Cursor.next?_nil here, Cursor.next?_nil here]
  | cons b bs => rw [Cursor.next?_cons other here, Cursor.next?_cons language here, agrees.first]

theorem run (agrees : language.Agrees other) (cursor : Cursor) : cursor.run other = cursor.run language := by
  fun_induction Cursor.run language cursor with
  | case1 cursor read => exact Cursor.run_of_none ((agrees.next? cursor).trans read)
  | case2 cursor token after found ih =>
      rw [Cursor.run_of_some ((agrees.next? cursor).trans found), ih]

theorem scan_eq (agrees : language.Agrees other) (source : Bytes) : scan other source = scan language source :=
  congrArg (List.map Prod.fst) (agrees.run (.start source))

end Agrees

theorem mem_keywordsOf {spec : Spec} {bytes : Bytes} :
    bytes ∈ keywordsOf spec ↔
      ∃ keyword ∈ spec.keywords, keyword ≠ "" ∧ keywordBytes spec.ignoreCase keyword = bytes := by
  simp [keywordsOf, and_assoc]

theorem isKeyword_ofSpec_iff {spec : Spec} {lexeme : Bytes} :
    (ofSpec spec).isKeyword lexeme = true ↔
      ∃ keyword ∈ spec.keywords, keyword ≠ "" ∧
        keywordBytes spec.ignoreCase keyword = if spec.ignoreCase then lexeme.map Byte.lower else lexeme :=
  List.contains_iff_mem.trans (List.mem_eraseDups.trans mem_keywordsOf)

theorem isQuote_ofSpec_iff {spec : Spec} {b : UInt8} :
    (ofSpec spec).isQuote b = true ↔
      (∃ quote ∈ spec.quotes.toList, b ∈ String.utf8EncodeChar quote) ∧ Byte.isPunctuation b = true := by
  rw [isQuote, List.contains_iff_mem]
  change b ∈ quotesOf spec.quotes ↔ _
  simp [quotesOf, Text.bytes, Utf8.encode]

/-- The order of the entries and their number do not matter. -/
theorem agrees_of_sameEntries {spec other : Spec} (same : spec.SameEntries other) :
    (ofSpec spec).Agrees (ofSpec other) := by
  have operators : other.operatorTexts = spec.operatorTexts := by
    simp only [Spec.operatorTexts, same.operators]
  have marks : other.lineMarks = spec.lineMarks := by
    simp only [Spec.lineMarks, same.lineComments]
  constructor
  · intro lexeme
    rw [Bool.eq_iff_iff, isKeyword_ofSpec_iff, isKeyword_ofSpec_iff]
    simp only [same.keywords, same.ignoreCase]
  · intro b
    rw [Bool.eq_iff_iff, isQuote_ofSpec_iff, isQuote_ofSpec_iff]
    simp only [same.quotes]
  · exact (spelled_operatorsOf spec).find?_eq (operators ▸ spelled_operatorsOf other)
  · exact (spelled_lineComments spec).find?_eq (marks ▸ spelled_lineComments other)
  · intro lineStart rest
    simp only [blockComment?, ofSpec, same.blockComments]
  · exact same.tripleQuotes

/-- The tables of a description give the longest operator and the longest line comment mark at every
offset, and the first of the block comments with the longest opening that may start there. The
operators listed under their first bytes give the same lengths. No scan depends on the order or the
number of the keywords, operators, line comment marks and quotes. -/
theorem compiled_table_longest (spec : Spec) (source : Bytes) (offset : Nat) :
    Text.LongestAt spec.operatorTexts (source.drop offset)
        (((ofSpec spec).operatorAt? source offset).map Delimiter.length) ∧
      (OperatorIndex.ofOperators spec.operators).matchAt? source offset =
        ((ofSpec spec).operatorAt? source offset).map Delimiter.length ∧
      Text.LongestAt spec.lineMarks (source.drop offset)
        (((ofSpec spec).lineCommentAt? source offset).map Delimiter.length) ∧
      (∀ rule, (ofSpec spec).blockCommentAt? source offset = some rule ↔
        ∃ before pair after, spec.blockComments = before ++ pair :: after ∧
          FirstLongest BlockComment.openLength (BlockComment.OpensAt source offset) before pair after ∧
          rule.Compiles pair) ∧
      ((ofSpec spec).blockCommentAt? source offset = none ↔
        ∀ pair ∈ spec.blockComments, ¬pair.OpensAt source offset) ∧
      ∀ other, spec.SameEntries other → scan (ofSpec other) source = scan (ofSpec spec) source := by
  have operators := (spelled_operatorsOf spec).longestAt (source.drop offset)
  refine ⟨operators, ?_, (spelled_lineComments spec).longestAt _, fun rule => blockCommentAt?_iff,
    blockCommentAt?_eq_none_iff, fun other same => (agrees_of_sameEntries same).scan_eq source⟩
  exact (OperatorIndex.longestAt_matchAt? spec.operators source offset).unique operators

/-- Entries in another order and listed twice: the tokens are the same, and the longer operator is
found wherever it is listed. -/
theorem compiled_table_longest_reordered :
    ∃ spec other : Spec, spec.operators = ["=", "==", "=>"] ∧ other.operators = ["=>", "=", "==", "="] ∧
      spec.SameEntries other ∧
      ((ofSpec other).operatorAt? [0x61, 0x3D, 0x3D, 0x62] 1).map Delimiter.length = some 2 ∧
      scan (ofSpec other) [0x61, 0x3D, 0x3D, 0x62] = scan (ofSpec spec) [0x61, 0x3D, 0x3D, 0x62] := by
  have chosen : ∃ spec other : Spec, spec.operators = ["=", "==", "=>"] ∧
      other.operators = ["=>", "=", "==", "="] ∧ spec.SameEntries other := by
    refine ⟨⟨"first", [], [], ["if", "b"], ["=", "==", "=>"], ["#", "##"], [], "'`", false, false⟩,
      ⟨"second", [], [], ["b", "if", "b"], ["=>", "=", "==", "="], ["##", "#"], [], "`'`", false, false⟩,
      rfl, rfl, ?_⟩
    constructor <;> simp <;> tauto
  obtain ⟨spec, other, operators, operators', same⟩ := chosen
  obtain ⟨_, _, _, _, _, alike⟩ := compiled_table_longest spec [0x61, 0x3D, 0x3D, 0x62] 1
  obtain ⟨longest, _⟩ := compiled_table_longest other [0x61, 0x3D, 0x3D, 0x62] 1
  refine ⟨spec, other, operators, operators', same, (longest.some_iff 2).mpr ⟨?_, ?_⟩, alike other same⟩
  · refine ⟨"==", ⟨by simp [operators'], 0x3D, rfl, rfl⟩, ⟨[0x62], rfl⟩, rfl⟩
  · rintro _ ⟨text, ⟨listed, _⟩, _, rfl⟩
    simp only [operators', List.mem_cons, List.not_mem_nil, or_false] at listed
    rcases listed with rfl | rfl | rfl | rfl <;> decide

end Language

end CodeTint
