import Mathlib.Order.Bounds.Defs
import CodeTint.Proofs.Kinds

/-!
# Extents of comments

A line comment ends before the line does. A block comment ends behind the first
closing delimiter that stands wholly behind its opening, and with the source if
there is none. A pair of line starts is kept with a line feed in front of its
closing delimiter, which is looked for behind the opening: the two ways to say that
a delimiter starts a line agree, unless the opening ends with the line feed itself.
-/

namespace CodeTint

namespace BlockComment

/-- A pair with an empty delimiter is not used. -/
def Usable (pair : BlockComment) : Prop :=
  pair.opening ≠ "" ∧ pair.closing ≠ ""

/-- A comment of the pair that starts at `start` may end with the closing delimiter at `offset`. -/
structure ClosesAt (pair : BlockComment) (source : Bytes) (start offset : Nat) : Prop where
  behind : start + (Text.bytes pair.opening).length ≤ offset
  spelled : Text.bytes pair.closing <+: source.drop offset
  placed : pair.lineStart = true → Language.isLineStart source offset = true

/-- The source has a comment of the pair between these offsets. -/
structure Spans (pair : BlockComment) (source : Bytes) (start stop : Nat) : Prop where
  opens : Text.bytes pair.opening <+: source.drop start
  placed : pair.lineStart = true → Language.isLineStart source start = true
  ends :
    (∃ offset, IsLeast {offset | pair.ClosesAt source start offset} offset ∧
      stop = offset + (Text.bytes pair.closing).length) ∨
    (∀ offset, ¬pair.ClosesAt source start offset) ∧ stop = source.length

/-- What the closing delimiter is kept with. -/
def lead (pair : BlockComment) : Bytes :=
  if pair.lineStart then [Byte.lineFeed] else []

end BlockComment

/-- The source has a line comment with this mark between these offsets: it goes on to the next line
feed or carriage return, or to the end. -/
inductive LineSpans (mark : String) (source : Bytes) (start : Nat) : Nat → Prop
  | upTo {body rest : Bytes} (spelled : source.drop start = Text.bytes mark ++ body ++ rest)
      (unbroken : ∀ b ∈ body, b ≠ Byte.lineFeed ∧ b ≠ Byte.carriageReturn)
      (ends : ∀ b ∈ rest.head?, b = Byte.lineFeed ∨ b = Byte.carriageReturn) :
      LineSpans mark source start (start + (Text.bytes mark ++ body).length)

/-- The rule is that of the pair. -/
structure BlockRule.Compiles (pair : BlockComment) (rule : BlockRule) : Prop where
  usable : pair.Usable
  opening : rule.opening.bytes = Text.bytes pair.opening
  closing : rule.closing.bytes = pair.lead ++ Text.bytes pair.closing
  lineStart : rule.lineStart = pair.lineStart

/-- A language with the line comment marks and the pairs it is made from. -/
inductive Language.CommentTable : Language → List String → List BlockComment → Prop
  | ofSpec (spec : Spec) : CommentTable (.ofSpec spec) spec.lineComments spec.blockComments
  | merged (name : String) (specs : List Spec) :
      CommentTable (.merged name specs) ["//", "#"] [⟨"/*", "*/", false⟩]

/-! ## Tables -/

theorem Delimiter.bytes_of_ofString? {text : String} {delimiter : Delimiter}
    (spelled : ofString? text = some delimiter) : text ≠ "" ∧ delimiter.bytes = Text.bytes text := by
  unfold ofString? at spelled
  split at spelled
  · cases spelled
  · rename_i c rest same
    cases spelled
    constructor
    · rintro rfl
      cases same
    · rw [Text.bytes, same]
      rfl

theorem BlockRule.compiles_ofPair? {pair : BlockComment} {rule : BlockRule} (found : ofPair? pair = some rule) :
    rule.Compiles pair := by
  unfold ofPair? at found
  split at found
  · rename_i first last opens closes
    cases found
    obtain ⟨opened, opening⟩ := Delimiter.bytes_of_ofString? opens
    obtain ⟨closed, closing⟩ := Delimiter.bytes_of_ofString? closes
    refine ⟨⟨opened, closed⟩, opening, ?_, rfl⟩
    unfold BlockComment.lead
    dsimp only
    split
    · exact Utf8.encode_cons_ascii (by decide) pair.closing.toList
    · exact closing
  · cases found

namespace Language.CommentTable

variable {language : Language} {marks : List String} {pairs : List BlockComment}

theorem exists_mark (table : language.CommentTable marks pairs) {delimiter : Delimiter}
    (listed : delimiter ∈ language.lineComments) :
    ∃ mark ∈ marks, mark ≠ "" ∧ delimiter.bytes = Text.bytes mark := by
  cases table with
  | ofSpec spec =>
      obtain ⟨mark, inSpec, spelled⟩ := List.mem_filterMap.mp (Delimiter.mem_longestFirst.mp listed)
      exact ⟨mark, inSpec, Delimiter.bytes_of_ofString? spelled⟩
  | merged name specs =>
      rcases List.mem_cons.mp listed with rfl | last
      · exact ⟨"//", by simp, by simp, rfl⟩
      · obtain rfl := List.mem_singleton.mp last
        exact ⟨"#", by simp, by simp, rfl⟩

theorem exists_pair (table : language.CommentTable marks pairs) {rule : BlockRule}
    (listed : rule ∈ language.blockComments) : ∃ pair ∈ pairs, rule.Compiles pair := by
  cases table with
  | ofSpec spec =>
      obtain ⟨pair, inSpec, found⟩ := List.mem_filterMap.mp (List.mem_mergeSort.mp listed)
      exact ⟨pair, inSpec, BlockRule.compiles_ofPair? found⟩
  | merged name specs =>
      obtain rfl := List.mem_singleton.mp listed
      exact ⟨⟨"/*", "*/", false⟩, List.mem_singleton_self _, ⟨by simp, by simp⟩, rfl, rfl, rfl⟩

end Language.CommentTable

/-! ## The first occurrence -/

namespace Bytes

theorem isLeast_offsetOf? {needle text : Bytes} {offset : Nat} (found : offsetOf? needle text = some offset) :
    IsLeast {offset | needle <+: text.drop offset} offset := by
  induction text generalizing offset with
  | nil =>
      unfold offsetOf? at found
      split at found
      · rename_i empty
        cases found
        rw [List.isEmpty_iff.mp empty]
        exact ⟨List.nil_prefix, fun other _ => Nat.zero_le other⟩
      · cases found
  | cons b rest ih =>
      unfold offsetOf? at found
      split at found
      · rename_i starts
        cases found
        exact ⟨List.isPrefixOf_iff_prefix.mp starts, fun other _ => Nat.zero_le other⟩
      · rename_i other
        obtain ⟨later, inner, rfl⟩ := Option.map_eq_some_iff.mp found
        obtain ⟨stands, least⟩ := ih inner
        refine ⟨stands, ?_⟩
        intro offset here
        cases offset with
        | zero => exact absurd (List.isPrefixOf_iff_prefix.mpr here) other
        | succ offset => exact Nat.succ_le_succ (least here)

theorem not_prefix_of_offsetOf? {needle text : Bytes} (absent : offsetOf? needle text = none) (offset : Nat) :
    ¬needle <+: text.drop offset := by
  induction text generalizing offset with
  | nil =>
      unfold offsetOf? at absent
      split at absent
      · cases absent
      · rename_i nonempty
        rw [List.drop_nil, List.prefix_nil]
        rintro rfl
        exact nonempty rfl
  | cons b rest ih =>
      unfold offsetOf? at absent
      split at absent
      · cases absent
      · rename_i other
        intro here
        cases offset with
        | zero => exact other (List.isPrefixOf_iff_prefix.mpr here)
        | succ offset => exact ih (Option.map_eq_none_iff.mp absent) offset here

end Bytes

/-! ## Line comments -/

theorem LineSpans.opens {mark : String} {source : Bytes} {start stop : Nat}
    (spans : LineSpans mark source start stop) : Text.bytes mark <+: source.drop start := by
  cases spans with
  | upTo spelled =>
      rw [spelled, List.append_assoc]
      exact List.prefix_append _ _

theorem lineSpans_lineLength {delimiter : Delimiter} {mark : String} {source : Bytes} {start : Nat}
    (same : delimiter.bytes = Text.bytes mark) (opens : delimiter.opens (source.drop start) = true) :
    LineSpans mark source start (start + Comment.lineLength delimiter (source.drop start)) := by
  obtain ⟨behind, spelled⟩ := List.isPrefixOf_iff_prefix.mp opens
  have body : (source.drop start).drop delimiter.length = behind := by
    rw [← spelled]
    exact List.drop_left
  have stop : start + Comment.lineLength delimiter (source.drop start) =
      start + (Text.bytes mark ++ behind.takeWhile (!Byte.isLineBreak ·)).length := by
    rw [Comment.lineLength, body, List.length_append, ← same]
    rfl
  have parts : source.drop start = Text.bytes mark ++ behind.takeWhile (!Byte.isLineBreak ·) ++
      behind.dropWhile (!Byte.isLineBreak ·) := by
    rw [List.append_assoc, List.takeWhile_append_dropWhile, ← same, spelled]
  rw [stop]
  refine .upTo parts ?_ ?_
  · intro b member
    have kept := List.mem_takeWhile_imp member
    rw [← Byte.isLineBreak_eq_false_iff, ← Bool.not_eq_true']
    exact kept
  · intro b member
    rw [← Byte.isLineBreak_iff, ← Bool.not_eq_false']
    exact Utf8.stopped_of_dropWhile (!Byte.isLineBreak ·) behind member

/-! ## Block comments -/

theorem Language.isLineStart_succ {source : Bytes} {offset : Nat} :
    isLineStart source (offset + 1) = true ↔ source[offset]? = some Byte.lineFeed := by
  simp [isLineStart]

/-- A delimiter behind a line feed is one that starts a line. -/
theorem Bytes.lineFeed_prefix_iff {delimiter source : Bytes} {offset : Nat} :
    [Byte.lineFeed] ++ delimiter <+: source.drop offset ↔
      Language.isLineStart source (offset + 1) = true ∧ delimiter <+: source.drop (offset + 1) := by
  rw [Language.isLineStart_succ, ← List.drop_drop, ← List.head?_drop]
  cases source.drop offset with
  | nil => simp
  | cons b rest => simp [List.cons_prefix_cons, eq_comm]

namespace BlockComment

variable {pair : BlockComment} {source : Bytes} {start : Nat}

/-- A closing delimiter stands behind its lead, and both of them behind the opening. -/
theorem closesAt_iff (opened : 0 < (Text.bytes pair.opening).length)
    (opens : Text.bytes pair.opening <+: source.drop start)
    (unfed : pair.lineStart = true → Bytes.endsLine (Text.bytes pair.opening) = false) (offset : Nat) :
    pair.ClosesAt source start offset ↔
      ∃ count, offset = start + (Text.bytes pair.opening).length + count + pair.lead.length ∧
        pair.lead ++ Text.bytes pair.closing <+:
          source.drop (start + (Text.bytes pair.opening).length + count) := by
  cases lineStart : pair.lineStart with
  | false =>
      have lead : pair.lead = [] := by simp [BlockComment.lead, lineStart]
      rw [lead]
      constructor
      · intro closes
        obtain ⟨count, rfl⟩ := Nat.exists_eq_add_of_le closes.behind
        exact ⟨count, rfl, closes.spelled⟩
      · rintro ⟨count, rfl, spelled⟩
        exact ⟨Nat.le_add_right _ count, spelled, by simp [lineStart]⟩
  | true =>
      have lead : pair.lead = [Byte.lineFeed] := by simp [BlockComment.lead, lineStart]
      rw [lead]
      constructor
      · intro closes
        have placed := closes.placed lineStart
        -- Directly behind the opening no line starts, so there is room for the line feed.
        have apart : start + (Text.bytes pair.opening).length ≠ offset := by
          rintro rfl
          have fits : start + (Text.bytes pair.opening).length ≤ source.length := by
            have length := opens.length_le
            rw [List.length_drop] at length
            omega
          have ends := Cursor.Stands.endsLine_take opened fits
          rw [← List.prefix_iff_eq_take.mp opens, unfed lineStart, placed] at ends
          cases ends
        obtain ⟨count, rfl⟩ := Nat.exists_eq_add_of_lt (Nat.lt_of_le_of_ne closes.behind apart)
        exact ⟨count, rfl, Bytes.lineFeed_prefix_iff.mpr ⟨placed, closes.spelled⟩⟩
      · rintro ⟨count, rfl, spelled⟩
        obtain ⟨placed, closing⟩ := Bytes.lineFeed_prefix_iff.mp spelled
        exact ⟨by omega, closing, fun _ => placed⟩

end BlockComment

/-- Looking for what is kept behind the opening finds the first closing delimiter. -/
theorem BlockRule.Compiles.spans {rule : BlockRule} {pair : BlockComment} {source : Bytes} {start : Nat}
    (compiles : rule.Compiles pair) (opens : rule.opening.opens (source.drop start) = true)
    (placed : pair.lineStart = true → Language.isLineStart source start = true)
    (unfed : pair.lineStart = true → Bytes.endsLine (Text.bytes pair.opening) = false) :
    pair.Spans source start (start + Comment.blockLength rule (source.drop start)) := by
  have spelled : Text.bytes pair.opening <+: source.drop start := by
    rw [← compiles.opening]
    exact List.isPrefixOf_iff_prefix.mp opens
  have length : rule.opening.length = (Text.bytes pair.opening).length := congrArg List.length compiles.opening
  have closing : rule.closing.length = pair.lead.length + (Text.bytes pair.closing).length := by
    rw [Delimiter.length, compiles.closing, List.length_append]
  have closes := BlockComment.closesAt_iff (length ▸ rule.opening.length_pos) spelled unfed
  refine ⟨spelled, placed, ?_⟩
  unfold Comment.blockLength
  dsimp only
  rw [length, List.drop_drop, compiles.closing]
  cases found : Bytes.offsetOf? (pair.lead ++ Text.bytes pair.closing)
      (source.drop (start + (Text.bytes pair.opening).length)) with
  | some count =>
      obtain ⟨stands, least⟩ := Bytes.isLeast_offsetOf? found
      refine .inl ⟨start + (Text.bytes pair.opening).length + count + pair.lead.length, ⟨?_, ?_⟩, ?_⟩
      · refine (closes _).mpr ⟨count, rfl, ?_⟩
        rw [← List.drop_drop]
        exact stands
      · intro offset here
        obtain ⟨other, rfl, stands⟩ := (closes offset).mp here
        rw [← List.drop_drop] at stands
        have earlier := least stands
        omega
      · dsimp only
        omega
  | none =>
      refine .inr ⟨?_, ?_⟩
      · intro offset here
        obtain ⟨other, _, stands⟩ := (closes offset).mp here
        rw [← List.drop_drop] at stands
        exact Bytes.not_prefix_of_offsetOf? found other stands
      · have fits := spelled.length_le
        rw [List.length_drop] at fits
        dsimp only
        rw [List.length_drop]
        have within := rule.opening.length_pos
        omega

/-! ## Tokens -/

theorem Lexeme.Leads.found_of_comment {language : Language} {context : Context} {b : UInt8} {bs : Bytes}
    {lexeme : Lexeme} (leads : Leads language context b bs lexeme) (comment : lexeme.kind = .comment) :
    comment? language context.lineStart (b :: bs) = some lexeme := by
  cases leads with
  | blank | literal | number | plain => cases comment
  | comment visible quote found => exact found
  | word =>
      rcases identifier_kind language (b :: bs) with kind | kind
      · cases kind.symm.trans comment
      · cases kind.symm.trans comment
  | mark =>
      rcases mark_kind language (b :: bs) with kind | kind
      · cases kind.symm.trans comment
      · cases kind.symm.trans comment

/-- A comment is a line comment of the table, which ends with its line, or a block comment of the table,
which ends behind the first of its closing delimiters. -/
theorem scan_comment_extent {language : Language} {marks : List String} {pairs : List BlockComment}
    (table : language.CommentTable marks pairs)
    (unfed : ∀ pair ∈ pairs, pair.Usable → pair.lineStart = true →
      Bytes.endsLine (Text.bytes pair.opening) = false)
    {source : Bytes} {token : Token} (member : token ∈ scan language source) (comment : token.kind = .comment) :
    (∃ mark ∈ marks, mark ≠ "" ∧ LineSpans mark source token.start token.stop) ∨
      ∃ pair ∈ pairs, pair.Usable ∧ pair.Spans source token.start token.stop := by
  obtain ⟨context, b, bs, lexeme, front, lineStart, leads, kind, stop, _⟩ := scan_reads member
  have found := leads.found_of_comment (kind.symm.trans comment)
  rw [← front, lineStart] at found
  rw [stop]
  unfold Lexeme.comment? at found
  split at found
  · rename_i rule block
    cases found
    have fits := List.find?_some block
    simp only [Bool.and_eq_true, Bool.or_eq_true, Bool.not_eq_true'] at fits
    obtain ⟨pair, listed, compiles⟩ := table.exists_pair (List.mem_of_find?_eq_some block)
    refine .inr ⟨pair, listed, compiles.usable, compiles.spans fits.2 ?_ (unfed pair listed compiles.usable)⟩
    intro only
    rw [← compiles.lineStart] at only
    rcases fits.1 with placed | anywhere
    · exact placed
    · cases only.symm.trans anywhere
  · obtain ⟨delimiter, line, rfl⟩ := Option.map_eq_some_iff.mp found
    obtain ⟨mark, listed, nonempty, same⟩ := table.exists_mark (List.mem_of_find?_eq_some line)
    exact .inl ⟨mark, listed, nonempty, lineSpans_lineLength same (List.find?_some line)⟩

/-- Neither a closing delimiter directly behind the opening nor one within a line ends the block comment,
and the carriage return of the line end is no part of the line comment. -/
theorem scan_comment_extent_lineStart :
    ⟨.comment, 2, 24⟩ ∈ scan
        (.ofSpec { name := "", lineComments := ["#"], blockComments := [⟨"=begin", "=end", true⟩] })
        (Text.bytes "x\n=begin=end\ny =end\n=end=end # z\r\n") ∧
      BlockComment.Spans ⟨"=begin", "=end", true⟩
        (Text.bytes "x\n=begin=end\ny =end\n=end=end # z\r\n") 2 24 ∧
      ⟨.comment, 29, 32⟩ ∈ scan
        (.ofSpec { name := "", lineComments := ["#"], blockComments := [⟨"=begin", "=end", true⟩] })
        (Text.bytes "x\n=begin=end\ny =end\n=end=end # z\r\n") ∧
      LineSpans "#" (Text.bytes "x\n=begin=end\ny =end\n=end=end # z\r\n") 29 32 := by
  have block : ⟨.comment, 2, 24⟩ ∈ scan
      (.ofSpec { name := "", lineComments := ["#"], blockComments := [⟨"=begin", "=end", true⟩] })
      (Text.bytes "x\n=begin=end\ny =end\n=end=end # z\r\n") := by decide +kernel
  have line : ⟨.comment, 29, 32⟩ ∈ scan
      (.ofSpec { name := "", lineComments := ["#"], blockComments := [⟨"=begin", "=end", true⟩] })
      (Text.bytes "x\n=begin=end\ny =end\n=end=end # z\r\n") := by decide +kernel
  have unfed : ∀ pair ∈ [⟨"=begin", "=end", true⟩], BlockComment.Usable pair → pair.lineStart = true →
      Bytes.endsLine (Text.bytes pair.opening) = false := by
    intro pair listed _ _
    rw [List.mem_singleton.mp listed]
    decide +kernel
  -- What stands at the two offsets tells which of the two kinds of comments it is.
  refine ⟨block, ?_, line, ?_⟩
  · rcases scan_comment_extent (.ofSpec _) unfed block rfl with
      ⟨mark, listed, _, spans⟩ | ⟨pair, listed, _, spans⟩
    · rw [List.mem_singleton.mp listed] at spans
      exact absurd spans.opens (by decide +kernel)
    · rw [List.mem_singleton.mp listed] at spans
      exact spans
  · rcases scan_comment_extent (.ofSpec _) unfed line rfl with
      ⟨mark, listed, _, spans⟩ | ⟨pair, listed, _, spans⟩
    · rw [List.mem_singleton.mp listed] at spans
      exact spans
    · rw [List.mem_singleton.mp listed] at spans
      exact absurd spans.opens (by decide +kernel)

end CodeTint
