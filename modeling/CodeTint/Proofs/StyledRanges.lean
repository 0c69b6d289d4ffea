import CodeTint.Proofs.RoundTrip

/-!
# Styled ranges and styled chunks

Chunks are joined where their kinds agree, styled ranges where in addition they
touch. Both are read off one partition of the source, in which neighbouring
tokens of one kind are one token: a token of it with a style is a range and a
styled chunk, and the others are the literal chunks between the ranges.
-/

namespace CodeTint

open Utf8 (KeepsWhole)

/-! ## Joined tokens -/

namespace Token

/-- Puts a token in front, joined to the first one if that is of the same kind. -/
def prepend (token : Token) : List Token → List Token
  | [] => [token]
  | next :: rest =>
      if token.kind = next.kind then ⟨token.kind, token.start, next.stop⟩ :: rest
      else token :: next :: rest

/-- Joins all neighbours of one kind. -/
def coalesce (tokens : List Token) : List Token :=
  tokens.foldr prepend []

variable {token next : Token} {source : Bytes} {length index expected : Nat} {tokens spans : List Token}

theorem prepend_same (same : token.kind = next.kind) (spans : List Token) :
    token.prepend (next :: spans) = ⟨token.kind, token.start, next.stop⟩ :: spans :=
  if_pos same

theorem prepend_other (other : token.kind ≠ next.kind) (spans : List Token) :
    token.prepend (next :: spans) = token :: next :: spans :=
  if_neg other

theorem text_joined (forward : token.start ≤ token.stop) (touches : next.start = token.stop)
    (further : next.start ≤ next.stop) (fits : next.stop ≤ source.length) (kind : Kind) :
    Token.text ⟨kind, token.start, next.stop⟩ source = token.text source ++ next.text source := by
  have joined : next.stop - token.start = (token.stop - token.start) + (next.stop - next.start) := by omega
  have behind : (source.drop token.start).drop (token.stop - token.start) = source.drop next.start := by
    rw [touches]
    exact drop_length forward source
  have long : token.start ≤ next.stop := by omega
  have inside : token.stop ≤ source.length := by omega
  rw [text_of_fits forward inside, text_of_fits further fits, ← behind, ← List.take_add, ← joined]
  exact text_of_fits long fits

theorem covers_prepend (covers : checkPartitionFrom length index expected (token :: spans) = .ok ()) :
    checkPartitionFrom length index expected (token.prepend spans) = .ok () := by
  cases spans with
  | nil => exact covers
  | cons next rest =>
      by_cases same : token.kind = next.kind
      · obtain ⟨start, nonempty, _, later⟩ := checkPartitionFrom_cons_iff.mp covers
        obtain ⟨touches, further, fits, behind⟩ := checkPartitionFrom_cons_iff.mp later
        have long : token.start < next.stop := by omega
        rw [prepend_same same]
        exact checkPartitionFrom_cons_iff.mpr ⟨start, long, fits, covers_from behind _⟩
      · rw [prepend_other same]
        exact covers

/-- Tokens that cover a source do so when they are joined. -/
theorem covers_coalesce (covers : checkPartitionFrom length index expected tokens = .ok ()) :
    checkPartitionFrom length index expected (coalesce tokens) = .ok () := by
  induction tokens generalizing index expected with
  | nil => exact covers
  | cons token rest ih =>
      obtain ⟨same, nonempty, fits, later⟩ := checkPartitionFrom_cons_iff.mp covers
      exact covers_prepend (checkPartitionFrom_cons_iff.mpr ⟨same, nonempty, fits, ih later⟩)

end Token

/-! ## Chunks of joined tokens -/

namespace Piece

variable (format : Format) {source : Bytes} {token : Token} {tokens spans : List Token} {index expected : Nat}

/-- The escaped piece of two neighbours is what their escaped pieces are joined to. -/
theorem prepend_tokens (covers : checkPartitionFrom source.length index expected (token :: spans) = .ok ())
    (whole : KeepsWhole source token.stop) :
    prepend ((ofToken source token).escape format)
        (spans.map fun span => (ofToken source span).escape format) =
      (token.prepend spans).map fun span => (ofToken source span).escape format := by
  cases spans with
  | nil => rfl
  | cons next rest =>
      obtain ⟨_, nonempty, fits, later⟩ := checkPartitionFrom_cons_iff.mp covers
      obtain ⟨touches, further, bound, _⟩ := checkPartitionFrom_cons_iff.mp later
      have forward := Nat.le_of_lt nonempty
      have onward := Nat.le_of_lt further
      have front : source.drop token.start =
          token.text source ++ next.text source ++ source.drop next.stop := by
        rw [← Token.text_append_drop forward fits, ← touches, ← Token.text_append_drop onward bound,
          List.append_assoc]
      have cut := whole.text forward fits
      rw [front] at cut
      have escaped := format.escape_append cut.of_append
      rw [← Token.text_joined forward touches onward bound token.kind] at escaped
      have joined : (ofToken source ⟨token.kind, token.start, next.stop⟩).escape format =
          ⟨token.kind, format.escape (token.text source) ++ format.escape (next.text source)⟩ :=
        congrArg (Piece.mk token.kind) escaped
      by_cases same : token.kind = next.kind
      · rw [Token.prepend_same same, List.map_cons, List.map_cons, joined]
        exact if_pos same
      · rw [Token.prepend_other same]
        exact if_neg same

theorem coalesce_tokens (covers : checkPartitionFrom source.length index expected tokens = .ok ())
    (whole : ∀ token ∈ tokens, KeepsWhole source token.stop) :
    coalesce (tokens.map fun token => (ofToken source token).escape format) =
      (Token.coalesce tokens).map fun span => (ofToken source span).escape format := by
  induction tokens generalizing index expected with
  | nil => rfl
  | cons token rest ih =>
      obtain ⟨same, nonempty, fits, later⟩ := checkPartitionFrom_cons_iff.mp covers
      have joined := checkPartitionFrom_cons_iff.mpr ⟨same, nonempty, fits, Token.covers_coalesce later⟩
      have behind := ih later fun other member => whole other (List.mem_cons_of_mem _ member)
      change prepend _ (coalesce (rest.map _)) = _
      rw [behind]
      exact prepend_tokens format joined (whole token List.mem_cons_self)

end Piece

/-! ## Ranges of joined tokens -/

namespace StyledRange

theorem prepend_apart {range : StyledRange} {ranges : List StyledRange}
    (apart : ∀ next ∈ ranges, range.kind = next.kind → range.stop ≠ next.start) :
    range.prepend ranges = range :: ranges := by
  cases ranges with
  | nil => rfl
  | cons next rest =>
      refine if_neg ?_
      rintro ⟨kind, touches⟩
      exact apart next List.mem_cons_self kind touches

end StyledRange

namespace Highlighter

variable {config : Config} {token : Token} {range : StyledRange} {tokens spans : List Token}
  {length index expected : Nat}

theorem styledRange?_eq_some_iff :
    styledRange? config token = some range ↔
      ∃ style, config.styles.get? token.kind = some style ∧
        range = ⟨token.start, token.stop, token.kind, style⟩ := by
  rw [styledRange?, Option.map_eq_some_iff]
  simp only [eq_comm]

theorem styledRange?_eq_none_iff :
    styledRange? config token = none ↔ config.styles.get? token.kind = none :=
  Option.map_eq_none_iff

theorem styledRanges_prepend_unstyled (unstyled : styledRange? config token = none) :
    (token.prepend spans).filterMap (styledRange? config) = spans.filterMap (styledRange? config) := by
  rw [styledRange?_eq_none_iff] at unstyled
  cases spans with
  | nil => exact List.filterMap_cons_none (styledRange?_eq_none_iff.mpr unstyled)
  | cons next rest =>
      by_cases same : token.kind = next.kind
      · have joined : styledRange? config ⟨token.kind, token.start, next.stop⟩ = none :=
          styledRange?_eq_none_iff.mpr unstyled
        have near : styledRange? config next = none := styledRange?_eq_none_iff.mpr (same ▸ unstyled)
        rw [Token.prepend_same same, List.filterMap_cons_none joined, List.filterMap_cons_none near]
      · rw [Token.prepend_other same]
        exact List.filterMap_cons_none (styledRange?_eq_none_iff.mpr unstyled)

/-- A range behind a token of another kind does not touch the ranges before that token. -/
theorem styledRanges_prepend_styled
    (covers : checkPartitionFrom length index expected (token :: spans) = .ok ())
    (styled : styledRange? config token = some range) :
    (token.prepend spans).filterMap (styledRange? config) =
      range.prepend (spans.filterMap (styledRange? config)) := by
  obtain ⟨style, found, rfl⟩ := styledRange?_eq_some_iff.mp styled
  cases spans with
  | nil => exact List.filterMap_cons_some styled
  | cons next rest =>
      obtain ⟨_, _, _, later⟩ := checkPartitionFrom_cons_iff.mp covers
      obtain ⟨touches, further, _, behind⟩ := checkPartitionFrom_cons_iff.mp later
      by_cases same : token.kind = next.kind
      · have joined : styledRange? config ⟨token.kind, token.start, next.stop⟩ =
            some ⟨token.start, next.stop, token.kind, style⟩ :=
          styledRange?_eq_some_iff.mpr ⟨style, found, rfl⟩
        have near : styledRange? config next = some ⟨next.start, next.stop, next.kind, style⟩ :=
          styledRange?_eq_some_iff.mpr ⟨style, same ▸ found, rfl⟩
        rw [Token.prepend_same same, List.filterMap_cons_some joined, List.filterMap_cons_some near]
        exact (if_pos ⟨same, touches.symm⟩).symm
      · rw [Token.prepend_other same, List.filterMap_cons_some styled, StyledRange.prepend_apart]
        intro other member kind
        obtain ⟨span, inSpans, styled⟩ := List.mem_filterMap.mp member
        obtain ⟨_, _, rfl⟩ := styledRange?_eq_some_iff.mp styled
        rcases List.mem_cons.mp inSpans with rfl | inRest
        · exact absurd kind same
        · have beyond := le_start_of_covers behind span inRest
          exact Nat.ne_of_lt (touches ▸ Nat.lt_of_lt_of_le further beyond)

theorem coalesce_styledRanges (covers : checkPartitionFrom length index expected tokens = .ok ()) :
    StyledRange.coalesce (tokens.filterMap (styledRange? config)) =
      (Token.coalesce tokens).filterMap (styledRange? config) := by
  induction tokens generalizing index expected with
  | nil => rfl
  | cons token rest ih =>
      obtain ⟨same, nonempty, fits, later⟩ := checkPartitionFrom_cons_iff.mp covers
      have joined := checkPartitionFrom_cons_iff.mpr ⟨same, nonempty, fits, Token.covers_coalesce later⟩
      cases styled : styledRange? config token with
      | none =>
          rw [List.filterMap_cons_none styled, ih later]
          exact (styledRanges_prepend_unstyled styled).symm
      | some range =>
          rw [List.filterMap_cons_some styled]
          change range.prepend (StyledRange.coalesce _) = _
          rw [ih later]
          exact (styledRanges_prepend_styled joined styled).symm

end Highlighter

/-! ## What lies outside -/

namespace StyledRange

/-- The offset is one of the range. -/
def covers (range : StyledRange) (offset : Nat) : Bool :=
  range.start ≤ offset && offset < range.stop

/-- The bytes of a text that are in none of the ranges, where the text starts at the offset. -/
def outside (ranges : List StyledRange) (start : Nat) (text : Bytes) : Bytes :=
  ((text.zipIdx start).filter fun entry => !ranges.any fun range => range.covers entry.2).map Prod.fst

variable {range : StyledRange} {ranges : List StyledRange} {start : Nat} {text : Bytes}

theorem outside_append (ranges : List StyledRange) (start : Nat) (left right : Bytes) :
    outside ranges start (left ++ right) =
      outside ranges start left ++ outside ranges (start + left.length) right := by
  rw [outside, List.zipIdx_append, List.filter_append, List.map_append]
  rfl

theorem outside_clear (clear : ∀ range ∈ ranges, start + text.length ≤ range.start) :
    outside ranges start text = text := by
  have kept : ∀ entry ∈ text.zipIdx start, (!ranges.any fun range => range.covers entry.2) = true := by
    intro entry member
    have below := List.snd_lt_add_of_mem_zipIdx member
    rw [Bool.not_eq_true', List.any_eq_false]
    intro range inRanges
    have later := clear range inRanges
    simp only [covers, Bool.and_eq_true, decide_eq_true_eq]
    omega
  rw [outside, List.filter_eq_self.mpr kept, List.zipIdx_map_fst]

theorem outside_covered (first : range.start ≤ start) (last : start + text.length ≤ range.stop) :
    outside (range :: ranges) start text = [] := by
  have left : ∀ entry ∈ text.zipIdx start,
      ¬(!(range :: ranges).any fun range => range.covers entry.2) = true := by
    intro entry member
    have above := List.le_snd_of_mem_zipIdx member
    have below := List.snd_lt_add_of_mem_zipIdx member
    have inside : range.covers entry.2 = true := by
      simp only [covers, Bool.and_eq_true, decide_eq_true_eq]
      omega
    rw [List.any_cons, inside, Bool.true_or]
    exact nofun
  rw [outside, List.filter_eq_nil_iff.mpr left]
  rfl

theorem outside_passed (passed : range.stop ≤ start) :
    outside (range :: ranges) start text = outside ranges start text := by
  have same : ∀ entry ∈ text.zipIdx start, (!(range :: ranges).any fun range => range.covers entry.2) =
      !ranges.any fun range => range.covers entry.2 := by
    intro entry member
    have above := List.le_snd_of_mem_zipIdx member
    have beyond : range.covers entry.2 = false := by
      simp only [covers, Bool.and_eq_false_iff, decide_eq_false_iff_not]
      omega
    rw [List.any_cons, beyond, Bool.false_or]
  rw [outside, List.filter_congr same]
  rfl

end StyledRange

namespace Highlighter

/-- Outside the ranges of tokens that cover a source lie the texts of the tokens without a style. -/
theorem outside_styledRanges (config : Config) {source : Bytes} {spans : List Token} {index expected : Nat}
    (covers : checkPartitionFrom source.length index expected spans = .ok ()) :
    StyledRange.outside (spans.filterMap (styledRange? config)) expected (source.drop expected) =
      (spans.filter fun span => (styledRange? config span).isNone).flatMap fun span => span.text source := by
  induction spans generalizing index expected with
  | nil =>
      rw [checkPartitionFrom_nil_iff] at covers
      rw [covers, List.drop_length]
      rfl
  | cons span rest ih =>
      obtain ⟨rfl, nonempty, fits, later⟩ := checkPartitionFrom_cons_iff.mp covers
      have forward := Nat.le_of_lt nonempty
      have stop : span.start + (span.text source).length = span.stop := by
        rw [Token.length_text forward fits, Nat.add_sub_cancel' forward]
      rw [← Token.text_append_drop forward fits, StyledRange.outside_append, stop]
      cases styled : styledRange? config span with
      | none =>
          have clear : ∀ range ∈ rest.filterMap (styledRange? config),
              span.start + (span.text source).length ≤ range.start := by
            intro range member
            obtain ⟨other, inRest, styled⟩ := List.mem_filterMap.mp member
            obtain ⟨_, _, rfl⟩ := styledRange?_eq_some_iff.mp styled
            exact stop ▸ le_start_of_covers later other inRest
          rw [List.filterMap_cons_none styled, StyledRange.outside_clear clear, ih later,
            List.filter_cons_of_pos (by rw [styled]; rfl), List.flatMap_cons]
      | some range =>
          obtain ⟨style, _, rfl⟩ := styledRange?_eq_some_iff.mp styled
          rw [List.filterMap_cons_some styled,
            StyledRange.outside_covered (Nat.le_refl _) (Nat.le_of_eq stop),
            StyledRange.outside_passed (Nat.le_refl _), ih later,
            List.filter_cons_of_neg (by rw [styled]; exact nofun)]
          rfl

/-! ## The chunks of tokens -/

/-- The chunk of a token by itself. -/
def spanChunk (config : Config) (format : Format) (source : Bytes) (span : Token) : Chunk :=
  .ofPiece config.styles ((Piece.ofToken source span).escape format)

theorem spanChunk_kind? (config : Config) (format : Format) (source : Bytes) (span : Token) :
    (spanChunk config format source span).kind? = (styledRange? config span).map StyledRange.kind := by
  rw [styledRange?]
  cases found : config.styles.get? span.kind with
  | none => exact congrArg Chunk.kind? (Chunk.ofPiece_of_none found)
  | some style => exact congrArg Chunk.kind? (Chunk.ofPiece_of_some found)

theorem spanChunk_of_styled {config : Config} {format : Format} {source : Bytes} {span : Token}
    {range : StyledRange} (styled : styledRange? config span = some range)
    (fits : span.start < span.stop ∧ span.stop ≤ source.length) :
    spanChunk config format source span = .styled range.kind range.style
      (format.escape ((source.drop range.start).take (range.stop - range.start))) := by
  obtain ⟨style, found, rfl⟩ := styledRange?_eq_some_iff.mp styled
  rw [← Token.text_of_fits (Nat.le_of_lt fits.1) fits.2]
  exact Chunk.ofPiece_of_some found

/-- Of tokens that lie in a source, those with a style give the styled chunks. -/
theorem filter_styled {config : Config} {format : Format} {source : Bytes} {spans : List Token}
    (fits : ∀ span ∈ spans, span.start < span.stop ∧ span.stop ≤ source.length) :
    (spans.map (spanChunk config format source)).filter (fun chunk => chunk.kind?.isSome) =
      (spans.filterMap (styledRange? config)).map fun range => .styled range.kind range.style
        (format.escape ((source.drop range.start).take (range.stop - range.start))) := by
  induction spans with
  | nil => rfl
  | cons span rest ih =>
      have later := ih fun other member => fits other (List.mem_cons_of_mem _ member)
      have kind := spanChunk_kind? config format source span
      cases styled : styledRange? config span with
      | none =>
          rw [styled] at kind
          rw [List.map_cons, List.filterMap_cons_none styled, ← later]
          exact List.filter_cons_of_neg (by rw [kind]; exact nofun)
      | some range =>
          rw [List.map_cons, spanChunk_of_styled styled (fits span List.mem_cons_self),
            List.filterMap_cons_some styled, List.map_cons, ← later]
          exact List.filter_cons_of_pos rfl

/-- The chunks of the others restore their texts. -/
theorem restore_literals (config : Config) (format : Format) (source : Bytes) (spans : List Token) :
    ((spans.map (spanChunk config format source)).filter fun chunk => chunk.kind?.isNone).flatMap
        (fun chunk => format.unescape chunk.content) =
      (spans.filter fun span => (styledRange? config span).isNone).flatMap fun span => span.text source := by
  rw [List.filter_map, List.flatMap_map]
  have literal (span : Token) : (spanChunk config format source span).kind?.isNone =
      (styledRange? config span).isNone := by
    rw [spanChunk_kind?, Option.isNone_map]
  have restored (span : Token) : format.unescape (spanChunk config format source span).content =
      span.text source :=
    (congrArg format.unescape (Chunk.content_ofPiece ..)).trans (format.unescape_escape _)
  simp only [Function.comp_def, literal, restored]

/-! ## Highlighted sources -/

variable (highlighter : Highlighter) (format : Format) (source : Bytes)

/-- The tokens of a source, with neighbours of one kind joined if the configuration says so. -/
def spans : List Token :=
  if highlighter.config.coalesce then Token.coalesce (highlighter.tokens source)
  else highlighter.tokens source

theorem spans_cover : checkPartition (highlighter.spans source) source.length = .ok () := by
  have covers := scan_covers highlighter.language source
  unfold spans
  split
  · exact Token.covers_coalesce covers
  · exact covers

theorem styledRanges_eq_spans :
    highlighter.styledRanges source =
      (highlighter.spans source).filterMap (styledRange? highlighter.config) := by
  have covers := scan_covers highlighter.language source
  unfold styledRanges spans
  dsimp only
  split
  · exact coalesce_styledRanges covers
  · rfl

theorem chunks_eq_spans :
    (highlighter.annotator format).chunks (Piece.cut source (scan highlighter.language source)) =
      (highlighter.spans source).map (spanChunk highlighter.config format source) := by
  have covers := scan_covers highlighter.language source
  have whole : ∀ token ∈ scan highlighter.language source, KeepsWhole source token.stop :=
    fun token member => (scan_whole member).2
  have joined : (if highlighter.config.coalesce then
        Piece.coalesce ((Piece.cut source (scan highlighter.language source)).map (Piece.escape format))
      else (Piece.cut source (scan highlighter.language source)).map (Piece.escape format)) =
      (highlighter.spans source).map fun span => (Piece.ofToken source span).escape format := by
    rw [Piece.map_escape_cut covers]
    unfold spans
    split
    · exact Piece.coalesce_tokens format covers whole
    · rfl
  exact (congrArg (List.map (Chunk.ofPiece highlighter.config.styles)) joined).trans (List.map_map ..)

variable {highlighter} {format}

/-- The styled chunks of a highlighted source are its styled ranges, in order: each has the kind and
the style of its range and holds the escaped text of it. The ranges are not empty, lie in the source
and follow one another, and what the literal chunks restore is all that lies outside of them. -/
theorem styled_chunks_eq_ranges (output : highlighter.config.output = .annotated format) (source : Bytes) :
    ∃ annotated, highlighter.highlight source = .ok (.annotated annotated) ∧ annotated.format = format ∧
      annotated.chunks.filter (fun chunk => chunk.kind?.isSome) =
        ((highlighter.styledRanges source).map fun range => .styled range.kind range.style
          (format.escape ((source.drop range.start).take (range.stop - range.start)))) ∧
      (∀ range ∈ highlighter.styledRanges source, range.start < range.stop ∧ range.stop ≤ source.length) ∧
      (highlighter.styledRanges source).Pairwise (fun before after => before.stop ≤ after.start) ∧
      StyledRange.outside (highlighter.styledRanges source) 0 source =
        (annotated.chunks.filter fun chunk => chunk.kind?.isNone).flatMap fun chunk =>
          format.unescape chunk.content := by
  have covers := highlighter.spans_cover source
  have fits := fits_of_covers covers
  have outside := outside_styledRanges highlighter.config covers
  rw [List.drop_zero] at outside
  refine ⟨_, highlight_annotated output source, rfl, ?_⟩
  dsimp only
  rw [chunks_eq_spans, styledRanges_eq_spans, outside, restore_literals]
  refine ⟨filter_styled fits, ?_, ?_, rfl⟩
  · intro range member
    obtain ⟨span, inSpans, styled⟩ := List.mem_filterMap.mp member
    obtain ⟨_, _, rfl⟩ := styledRange?_eq_some_iff.mp styled
    exact fits span inSpans
  · refine (pairwise_of_covers covers).filterMap _ ?_
    intro before after follows range styled other styled'
    obtain ⟨_, _, rfl⟩ := styledRange?_eq_some_iff.mp styled
    obtain ⟨_, _, rfl⟩ := styledRange?_eq_some_iff.mp styled'
    exact follows

/-- Two strings that touch are one range; a third one behind a blank is another. The first string
holds a picture and the second the control byte of it. -/
theorem styled_chunks_eq_ranges_strings :
    ∃ (highlighter : Highlighter) (annotated : Annotated),
      highlighter.config.output = .annotated .ansi ∧
      highlighter.styledRanges [0x22, 0xE2, 0x90, 0x9B, 0x22, 0x22, 0x1B, 0x22, 0x20, 0x22, 0x63, 0x22] =
        [⟨0, 8, .string, "32"⟩, ⟨9, 12, .string, "32"⟩] ∧
      highlighter.highlight [0x22, 0xE2, 0x90, 0x9B, 0x22, 0x22, 0x1B, 0x22, 0x20, 0x22, 0x63, 0x22] =
        .ok (.annotated annotated) ∧
      annotated.chunks.filter (fun chunk => chunk.kind?.isSome) =
        [.styled .string "32" (Ansi.escape [0x22, 0xE2, 0x90, 0x9B, 0x22, 0x22, 0x1B, 0x22]),
          .styled .string "32" (Ansi.escape [0x22, 0x63, 0x22])] ∧
      (annotated.chunks.filter fun chunk => chunk.kind?.isNone).flatMap
        (fun chunk => Ansi.unescape chunk.content) = [0x20] := by
  have configured : ∃ highlighter : Highlighter, highlighter.config.output = .annotated .ansi ∧
      highlighter.styledRanges [0x22, 0xE2, 0x90, 0x9B, 0x22, 0x22, 0x1B, 0x22, 0x20, 0x22, 0x63, 0x22] =
        [⟨0, 8, .string, "32"⟩, ⟨9, 12, .string, "32"⟩] :=
    ⟨⟨⟨none, .annotated .ansi, "", .ansiPalette, true, []⟩, .ofSpecs []⟩, rfl, by decide +kernel⟩
  obtain ⟨highlighter, output, ranges⟩ := configured
  obtain ⟨annotated, done, _, styled, _, _, outside⟩ := styled_chunks_eq_ranges output
    [0x22, 0xE2, 0x90, 0x9B, 0x22, 0x22, 0x1B, 0x22, 0x20, 0x22, 0x63, 0x22]
  rw [ranges] at styled outside
  exact ⟨highlighter, annotated, output, ranges, done, styled, outside.symm.trans (by decide)⟩

end Highlighter

end CodeTint
