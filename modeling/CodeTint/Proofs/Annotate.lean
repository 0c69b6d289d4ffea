import CodeTint.Annotate
import CodeTint.Proofs.Glyph
import CodeTint.Proofs.Html
import CodeTint.Proofs.Partition
import Mathlib.Data.List.SplitBy

/-!
# What annotated text restores

A chunk is made of one token, or with coalescing of a maximal run of tokens of
one kind. Its content is the escaped texts one after another, and what it
restores is read from the whole content. In HTML and in plain text that gives
the texts of the run back, wherever the tokens are cut. In terminal markup it
does so exactly if the glyphs of the texts are readable one after another.
-/

namespace CodeTint

/-! ## Runs -/

section Runs

variable {α : Type} {related : α → α → Bool} {first second : α} {rest : List α}

theorem splitBy_cons_unrelated (apart : related first second = false) :
    (first :: second :: rest).splitBy related = [first] :: (second :: rest).splitBy related := by
  have alone : [first].splitBy related = [[first]] :=
    List.splitBy_of_isChain (List.cons_ne_nil first []) (.singleton first)
  have ends : ∀ last ∈ [first].getLast?, related last second = false := by
    rintro _ ⟨⟩
    exact apart
  rw [← List.singleton_append, List.splitBy_append_cons rest ends, alone]
  rfl

theorem splitBy_cons_related (near : related first second = true) {run : List α} {runs : List (List α)}
    (split : (second :: rest).splitBy related = run :: runs) :
    (first :: second :: rest).splitBy related = (first :: run) :: runs := by
  obtain ⟨joined, nonempty, chains, apart⟩ := List.splitBy_eq_iff.mp split
  cases run with
  | nil => exact absurd List.mem_cons_self nonempty
  | cons head run =>
      obtain ⟨rfl, joined⟩ := List.cons.inj joined
      rw [List.splitBy_eq_iff]
      refine ⟨by rw [joined]; rfl, by simpa using nonempty, ?_, ?_⟩
      · intro other member
        rcases List.mem_cons.mp member with rfl | later
        · exact .cons_cons near (chains _ List.mem_cons_self)
        · exact chains other (List.mem_cons_of_mem _ later)
      · cases runs with
        | nil => exact .singleton _
        | cons next runs =>
            obtain ⟨⟨nonempty, nonempty', ends⟩, later⟩ := List.isChain_cons_cons.mp apart
            exact .cons_cons ⟨List.cons_ne_nil _ _, nonempty', ends⟩ later

end Runs

namespace Piece

variable {α : Type} (pieceOf : α → Piece)

/-- Two neighbours whose pieces are joined. -/
def sameKind (first second : α) : Bool :=
  (pieceOf first).kind == (pieceOf second).kind

/-- The piece is what a run of neighbours of one kind is joined to. -/
structure Joins (run : List α) (piece : Piece) : Prop where
  nonempty : run ≠ []
  kind : ∀ member ∈ run, (pieceOf member).kind = piece.kind
  text : piece.text = run.flatMap fun member => (pieceOf member).text

variable {pieceOf}

theorem Joins.singleton (member : α) : Joins pieceOf [member] (pieceOf member) :=
  ⟨List.cons_ne_nil _ _, by simp, by simp⟩

theorem Joins.cons {run : List α} {piece : Piece} (joins : Joins pieceOf run piece) {first : α}
    (same : (pieceOf first).kind = piece.kind) :
    Joins pieceOf (first :: run) ⟨(pieceOf first).kind, (pieceOf first).text ++ piece.text⟩ := by
  refine ⟨List.cons_ne_nil _ _, ?_, ?_⟩
  · intro member here
    rcases List.mem_cons.mp here with rfl | later
    · rfl
    · exact (joins.kind member later).trans same.symm
  · rw [List.flatMap_cons, ← joins.text]

/-- A further element in front extends the first run or is a run of its own. -/
theorem joins_prepend {first second : α} {rest : List α} {pieces : List Piece}
    (joined : List.Forall₂ (Joins pieceOf) ((second :: rest).splitBy (sameKind pieceOf)) pieces) :
    List.Forall₂ (Joins pieceOf) ((first :: second :: rest).splitBy (sameKind pieceOf))
      (prepend (pieceOf first) pieces) := by
  have whole := List.flatten_splitBy (sameKind pieceOf) (second :: rest)
  generalize split : (second :: rest).splitBy (sameKind pieceOf) = runs at joined whole
  cases joined with
  | nil => cases whole
  | @cons run piece runs pieces joins others =>
      have kind : (pieceOf second).kind = piece.kind := by
        cases run with
        | nil => exact absurd rfl joins.nonempty
        | cons head run =>
            obtain ⟨rfl, _⟩ := List.cons.inj whole
            exact joins.kind head List.mem_cons_self
      rw [prepend]
      by_cases same : (pieceOf first).kind = piece.kind
      · have near : sameKind pieceOf first second = true := beq_iff_eq.mpr (same.trans kind.symm)
        rw [if_pos same, splitBy_cons_related near split]
        exact .cons (joins.cons same) others
      · have apart : sameKind pieceOf first second = false :=
          beq_eq_false_iff_ne.mpr fun near => same (near.trans kind)
        rw [if_neg same, splitBy_cons_unrelated apart, split]
        exact .cons (.singleton first) (.cons joins others)

/-- Joining gives one piece for each maximal run of neighbours of one kind. -/
theorem coalesce_runs (list : List α) :
    List.Forall₂ (Joins pieceOf) (list.splitBy (sameKind pieceOf)) (coalesce (list.map pieceOf)) := by
  induction list with
  | nil => exact .nil
  | cons first rest ih =>
      cases rest with
      | nil =>
          rw [List.splitBy_of_isChain (List.cons_ne_nil first []) (.singleton first)]
          exact .cons (.singleton first) .nil
      | cons second rest => exact joins_prepend ih

/-- The escaped pieces of tokens that cover a source. -/
theorem map_escape_cut {format : Format} {source : Bytes} {tokens : List Token}
    (covers : checkPartition tokens source.length = .ok ()) :
    (cut source tokens).map (escape format) = tokens.map fun token => (ofToken source token).escape format := by
  rw [cut_eq_map_ofToken covers, List.map_map]
  rfl

theorem texts_of_joins {runs : List (List α)} {pieces : List Piece}
    (joined : List.Forall₂ (Joins pieceOf) runs pieces) :
    pieces.map text = runs.map fun run => run.flatMap fun member => (pieceOf member).text := by
  induction joined with
  | nil => rfl
  | cons joins _ ih => rw [List.map_cons, List.map_cons, joins.text, ih]

end Piece

/-! ## Formats -/

section Parts

variable {α : Type} {list : List α} {read parts : α → Bytes}

theorem length_flatMap_le (bounded : ∀ member ∈ list, (read member).length ≤ (parts member).length) :
    (list.flatMap read).length ≤ (list.flatMap parts).length := by
  induction list with
  | nil => exact Nat.le_refl 0
  | cons first rest ih =>
      have here := bounded first List.mem_cons_self
      have later := ih fun member inRest => bounded member (List.mem_cons_of_mem _ inRest)
      rw [List.flatMap_cons, List.flatMap_cons, List.length_append, List.length_append]
      exact Nat.add_le_add here later

/-- Parts that are no longer than others give the same whole only if each is the same. -/
theorem flatMap_eq_iff_of_length
    (bounded : ∀ member ∈ list, (read member).length ≤ (parts member).length) :
    list.flatMap read = list.flatMap parts ↔ ∀ member ∈ list, read member = parts member := by
  constructor
  · intro same
    induction list with
    | nil =>
        intro member inNil
        cases inNil
    | cons first rest ih =>
        have here := bounded first List.mem_cons_self
        have inRest := fun member later => bounded member (List.mem_cons_of_mem first later)
        have later := length_flatMap_le inRest
        have lengths := congrArg List.length same
        rw [List.flatMap_cons, List.flatMap_cons] at same lengths
        rw [List.length_append, List.length_append] at lengths
        obtain ⟨front, behind⟩ := List.append_inj same (by omega)
        intro member inList
        rcases List.mem_cons.mp inList with rfl | inTail
        · exact front
        · exact ih inRest behind member inTail
  · exact List.flatMap_congr

end Parts

namespace Format

theorem ansi_escape_run (texts : List Bytes) :
    texts.flatMap Ansi.escape = Ansi.content (texts.flatMap Ansi.glyphs) := by
  rw [Ansi.content, List.flatMap_assoc]
  exact List.flatMap_congr fun text _ => (Ansi.content_glyphs text).symm

theorem ansi_flatten_run (texts : List Bytes) :
    texts.flatten = Ansi.plainText (texts.flatMap Ansi.glyphs) := by
  rw [Ansi.plainText, List.flatMap_assoc, ← List.flatMap_id']
  exact List.flatMap_congr fun text _ => (Ansi.plainText_glyphs text).symm

theorem html_escape_run (texts : List Bytes) :
    texts.flatMap Html.escape = Html.escape texts.flatten := by
  rw [Html.escape, ← List.flatMap_id', List.flatMap_assoc]
  rfl

/-- Texts that are cut between two characters are escaped apart as they are together. -/
theorem escape_append (format : Format) {left right : Bytes}
    (whole : Utf8.KeepsWhole (left ++ right) left.length) :
    format.escape (left ++ right) = format.escape left ++ format.escape right := by
  cases format with
  | html => exact Html.escape_append left right
  | ansi => exact Ansi.escape_append (Ansi.keepsPictures_of_keepsWhole whole)
  | raw => rfl

theorem unescape_escape (format : Format) (text : Bytes) : format.unescape (format.escape text) = text := by
  cases format with
  | html => exact Html.unescape_escape text
  | ansi => exact Ansi.unescape_escape text
  | raw => rfl

/-- What the joined content of a run restores is its text, if the glyphs of the texts are
readable one after another. -/
theorem unescape_run_iff (format : Format) (texts : List Bytes) :
    format.unescape (texts.flatMap format.escape) = texts.flatten ↔
      (format = .ansi → Ansi.readable (texts.flatMap Ansi.glyphs) = true) := by
  cases format with
  | html =>
      refine iff_of_true ?_ nofun
      exact (congrArg Html.unescape (html_escape_run texts)).trans (Html.unescape_escape _)
  | ansi =>
      change Ansi.unescape (texts.flatMap Ansi.escape) = _ ↔ _
      rw [ansi_escape_run, ansi_flatten_run, Ansi.unescape_eq_restore, Ansi.restore_content_iff]
      exact ⟨fun readable _ => readable, fun readable => readable rfl⟩
  | raw => exact iff_of_true (List.flatMap_id' ..) nofun

theorem unescape_run_length (format : Format) (texts : List Bytes) :
    (format.unescape (texts.flatMap format.escape)).length ≤ texts.flatten.length := by
  cases format with
  | html => exact Nat.le_of_eq (congrArg List.length ((unescape_run_iff .html texts).mpr nofun))
  | ansi =>
      change (Ansi.unescape (texts.flatMap Ansi.escape)).length ≤ _
      rw [ansi_escape_run, ansi_flatten_run, Ansi.unescape_eq_restore]
      exact Ansi.restore_content_length _
  | raw => exact Nat.le_of_eq (congrArg List.length ((unescape_run_iff .raw texts).mpr nofun))

variable (format : Format) (source : Bytes) (run : List Token)

theorem unescape_tokens_iff :
    format.unescape (run.flatMap fun token => format.escape (token.text source)) =
        (run.flatMap fun token => token.text source) ↔
      (format = .ansi →
        Ansi.readable (run.flatMap fun token => Ansi.glyphs (token.text source)) = true) := by
  have texts := format.unescape_run_iff (run.map fun token => token.text source)
  rw [List.flatMap_map, List.flatMap_map, ← List.flatMap_def] at texts
  exact texts

theorem unescape_tokens_length :
    (format.unescape (run.flatMap fun token => format.escape (token.text source))).length ≤
      (run.flatMap fun token => token.text source).length := by
  have texts := format.unescape_run_length (run.map fun token => token.text source)
  rw [List.flatMap_map, ← List.flatMap_def] at texts
  exact texts

end Format

/-! ## Chunks -/

namespace Chunk

variable {styles : StyleMap} {piece : Piece}

theorem ofPiece_of_some {style : String} (found : styles.get? piece.kind = some style) :
    ofPiece styles piece = styled piece.kind style piece.text := by
  rw [ofPiece, found]

theorem ofPiece_of_none (absent : styles.get? piece.kind = none) :
    ofPiece styles piece = literal piece.text := by
  rw [ofPiece, absent]

theorem content_ofPiece (styles : StyleMap) (piece : Piece) :
    (ofPiece styles piece).content = piece.text := by
  cases found : styles.get? piece.kind with
  | none => rw [ofPiece_of_none found, content]
  | some style => rw [ofPiece_of_some found, content]

end Chunk

namespace Annotator

/-- The tokens that share a chunk. -/
def runs (annotator : Annotator) (tokens : List Token) : List (List Token) :=
  if annotator.coalesce then tokens.splitBy fun first second => first.kind == second.kind
  else tokens.map fun token => [token]

theorem flatten_runs (annotator : Annotator) (tokens : List Token) :
    (annotator.runs tokens).flatten = tokens := by
  unfold runs
  split
  · exact List.flatten_splitBy _ tokens
  · rw [← List.flatMap_def, List.flatMap_singleton']

theorem joined_runs (annotator : Annotator) {source : Bytes} {tokens : List Token}
    (covers : checkPartition tokens source.length = .ok ()) :
    ((annotator.runs tokens).flatMap fun run => run.flatMap fun token => token.text source) = source := by
  rw [← List.flatMap_assoc, List.flatMap_id', annotator.flatten_runs]
  exact texts_join covers

theorem annotate_of_covers (annotator : Annotator) {source : Bytes} {tokens : List Token}
    (covers : checkPartition tokens source.length = .ok ()) :
    annotator.annotate source tokens =
      .ok ⟨annotator.format, annotator.chunks (Piece.cut source tokens)⟩ := by
  rw [annotate, covers]
  rfl

/-- A chunk holds the escaped texts of its tokens. -/
theorem chunks_content (annotator : Annotator) {source : Bytes} {tokens : List Token}
    (covers : checkPartition tokens source.length = .ok ()) :
    (annotator.chunks (Piece.cut source tokens)).map Chunk.content =
      (annotator.runs tokens).map fun run =>
        run.flatMap fun token => annotator.format.escape (token.text source) := by
  have contents (pieces : List Piece) :
      (pieces.map (Chunk.ofPiece annotator.styles)).map Chunk.content = pieces.map Piece.text := by
    rw [List.map_map]
    exact List.map_congr_left fun piece _ => Chunk.content_ofPiece _ piece
  unfold chunks runs
  dsimp only
  rw [contents, Piece.map_escape_cut covers]
  split
  · exact Piece.texts_of_joins (Piece.coalesce_runs tokens)
  · rw [List.map_map, List.map_map]
    refine List.map_congr_left fun token _ => ?_
    exact (List.flatMap_singleton ..).symm

theorem exists_run_of_mem_chunks (annotator : Annotator) {source : Bytes} {tokens : List Token}
    (covers : checkPartition tokens source.length = .ok ()) {chunk : Chunk}
    (member : chunk ∈ annotator.chunks (Piece.cut source tokens)) :
    ∃ run ∈ annotator.runs tokens,
      chunk.content = run.flatMap fun token => annotator.format.escape (token.text source) := by
  have inContents := List.mem_map_of_mem (f := Chunk.content) member
  rw [annotator.chunks_content covers] at inContents
  obtain ⟨run, inRuns, same⟩ := List.mem_map.mp inContents
  exact ⟨run, inRuns, same.symm⟩

/-- The contents of all chunks, one after another, are the escaped texts of all tokens. -/
theorem contents_join (annotator : Annotator) {source : Bytes} {tokens : List Token}
    (covers : checkPartition tokens source.length = .ok ()) :
    (annotator.chunks (Piece.cut source tokens)).flatMap Chunk.content =
      tokens.flatMap fun token => annotator.format.escape (token.text source) := by
  have contents := congrArg List.flatten (annotator.chunks_content covers)
  rw [← List.flatMap_def, ← List.flatMap_def, ← List.flatMap_assoc, List.flatMap_id',
    annotator.flatten_runs] at contents
  exact contents

/-- What the chunks restore, run by run. -/
theorem source_eq (annotator : Annotator) {source : Bytes} {tokens : List Token}
    (covers : checkPartition tokens source.length = .ok ()) :
    (⟨annotator.format, annotator.chunks (Piece.cut source tokens)⟩ : Annotated).source =
      (annotator.runs tokens).flatMap fun run => annotator.format.unescape
        (run.flatMap fun token => annotator.format.escape (token.text source)) := by
  have contents := congrArg (List.flatMap annotator.format.unescape) (annotator.chunks_content covers)
  rw [List.flatMap_map, List.flatMap_map] at contents
  exact contents

end Annotator

/-! ## Rendered text -/

namespace Format

/-- No decoration starts in the content. -/
def Plain : Format → Bytes → Prop
  | html, content => Html.less ∉ content
  | ansi, content => Ansi.esc ∉ content
  | raw, _ => True

/-- The style does not end the decoration it stands in. -/
def Allows (format : Format) (style : String) : Prop :=
  format = .ansi → 0x6D ∉ Text.bytes style

theorem plain_escapes (format : Format) (texts : List Bytes) : format.Plain (texts.flatMap format.escape) := by
  cases format with
  | html =>
      intro member
      obtain ⟨text, _, inside⟩ := List.mem_flatMap.mp member
      exact Html.less_not_mem_escape text inside
  | ansi =>
      intro member
      obtain ⟨text, _, inside⟩ := List.mem_flatMap.mp member
      exact Ansi.esc_not_mem_escape text inside
  | raw => trivial

theorem strip_plain {format : Format} {content : Bytes} (plain : format.Plain content) (rest : Bytes) :
    format.strip (content ++ rest) = content ++ format.strip rest := by
  cases format with
  | html => exact Html.stripTags_plain plain rest
  | ansi => exact Ansi.stripSgr_plain plain rest
  | raw => rfl

theorem strip_opening {format : Format} {style : String} (allowed : format.Allows style) (rest : Bytes) :
    format.strip (format.opening style ++ rest) = format.strip rest := by
  cases format with
  | html => exact Html.stripTags_openTag style rest
  | ansi => exact Ansi.stripSgr_openSequence (allowed rfl) rest
  | raw => rfl

theorem strip_closing (format : Format) (rest : Bytes) :
    format.strip (format.closing ++ rest) = format.strip rest := by
  cases format with
  | html => exact Html.stripTags_closeTag rest
  | ansi => exact Ansi.stripSgr_reset rest
  | raw => rfl

end Format

namespace Chunk

/-- The decoration of the chunk can be told from its content. -/
def Fits (format : Format) : Chunk → Prop
  | literal content => format.Plain content
  | styled _ style content => format.Allows style ∧ format.Plain content

theorem strip_render {format : Format} {chunk : Chunk} (fits : chunk.Fits format) (rest : Bytes) :
    format.strip (chunk.render format ++ rest) = chunk.content ++ format.strip rest := by
  cases chunk with
  | literal content => exact Format.strip_plain fits rest
  | styled kind style content =>
      rw [render, Format.decorate, List.append_assoc, List.append_assoc, Format.strip_opening fits.1,
        Format.strip_plain fits.2, Format.strip_closing]
      rfl

theorem fits_ofPiece {format : Format} {styles : StyleMap} {piece : Piece}
    (allowed : ∀ kind style, styles.get? kind = some style → format.Allows style)
    (plain : format.Plain piece.text) : (ofPiece styles piece).Fits format := by
  unfold ofPiece
  split
  · rename_i style found
    exact ⟨allowed piece.kind style found, plain⟩
  · exact plain

end Chunk

/-- Without its decoration, rendered text is the contents of the chunks. -/
theorem Annotated.strip_render (annotated : Annotated)
    (fits : ∀ chunk ∈ annotated.chunks, chunk.Fits annotated.format) :
    annotated.format.strip annotated.render = annotated.chunks.flatMap Chunk.content := by
  obtain ⟨format, chunks⟩ := annotated
  change format.strip (chunks.flatMap (Chunk.render format)) = chunks.flatMap Chunk.content
  induction chunks with
  | nil => cases format <;> simp [Format.strip, Html.stripTags, Ansi.stripSgr]
  | cons chunk rest ih =>
      rw [List.flatMap_cons, Chunk.strip_render (fits chunk List.mem_cons_self),
        ih fun other member => fits other (List.mem_cons_of_mem _ member)]
      rfl

namespace Annotator

theorem chunks_fit (annotator : Annotator) {source : Bytes} {tokens : List Token}
    (allowed : ∀ kind style, annotator.styles.get? kind = some style → annotator.format.Allows style)
    (covers : checkPartition tokens source.length = .ok ()) :
    ∀ chunk ∈ annotator.chunks (Piece.cut source tokens), chunk.Fits annotator.format := by
  intro chunk member
  obtain ⟨run, _, same⟩ := annotator.exists_run_of_mem_chunks covers member
  have plain := annotator.format.plain_escapes (run.map fun token => token.text source)
  rw [List.flatMap_map, ← same] at plain
  obtain ⟨piece, _, rfl⟩ := List.mem_map.mp member
  rw [Chunk.content_ofPiece] at plain
  exact Chunk.fits_ofPiece allowed plain

/-- Without its decoration, what is rendered is the escaped texts of all tokens. -/
theorem strip_render (annotator : Annotator) {source : Bytes} {tokens : List Token}
    (allowed : ∀ kind style, annotator.styles.get? kind = some style → annotator.format.Allows style)
    (covers : checkPartition tokens source.length = .ok ()) :
    annotator.format.strip
        (⟨annotator.format, annotator.chunks (Piece.cut source tokens)⟩ : Annotated).render =
      tokens.flatMap fun token => annotator.format.escape (token.text source) := by
  rw [← annotator.contents_join covers]
  exact Annotated.strip_render ⟨annotator.format, _⟩ (annotator.chunks_fit allowed covers)

/-- Annotating by tokens that cover a source always succeeds, and the source is restored
unless terminal markup is coalesced. There it is restored exactly if the glyphs of each run of
tokens of one kind are readable one after another. -/
theorem annotate_restores_iff (annotator : Annotator) {source : Bytes} {tokens : List Token}
    (covers : checkPartition tokens source.length = .ok ()) :
    ∃ annotated, annotator.annotate source tokens = .ok annotated ∧
      (annotated.source = source ↔
        (annotator.format = .ansi → annotator.coalesce = true →
          ∀ run ∈ tokens.splitBy fun first second => first.kind == second.kind,
            Ansi.readable (run.flatMap fun token => Ansi.glyphs (token.text source)) = true)) := by
  refine ⟨_, annotator.annotate_of_covers covers, ?_⟩
  have bounded (run : List Token) (_ : run ∈ annotator.runs tokens) :=
    annotator.format.unescape_tokens_length source run
  have parts := flatMap_eq_iff_of_length bounded
  rw [annotator.joined_runs covers] at parts
  rw [annotator.source_eq covers, parts]
  simp only [Format.unescape_tokens_iff]
  unfold runs
  split
  · rename_i joined
    constructor
    · intro readable terminal _ run member
      exact readable run member terminal
    · intro readable run member terminal
      exact readable terminal joined run member
  · rename_i apart
    refine iff_of_true ?_ fun _ joined => absurd joined apart
    intro run member _
    obtain ⟨token, _, rfl⟩ := List.mem_map.mp member
    rw [List.flatMap_singleton]
    exact Ansi.readable_glyphs _

/-- A mark that is cut in two acts on the mark of the picture behind it, and that picture
stays as it is. -/
theorem annotate_restores_cut_mark :
    checkPartition [⟨.plaintext, 0, 1⟩, ⟨.plaintext, 1, 6⟩] 6 = .ok () ∧
      ∃ annotated, (Annotator.mk .ansiPalette .ansi true).annotate [0xE2, 0x90, 0xA6, 0xE2, 0x90, 0xA4]
          [⟨.plaintext, 0, 1⟩, ⟨.plaintext, 1, 6⟩] = .ok annotated ∧
        annotated.source = [0xE2, 0x90, 0xA6, 0xE2, 0x90, 0xA4] := by
  have covers : checkPartition [⟨.plaintext, 0, 1⟩, ⟨.plaintext, 1, 6⟩]
      ([0xE2, 0x90, 0xA6, 0xE2, 0x90, 0xA4] : Bytes).length = .ok () := by decide
  obtain ⟨annotated, done, restores⟩ :=
    annotate_restores_iff (Annotator.mk .ansiPalette .ansi true) covers
  exact ⟨covers, annotated, done, restores.mpr fun _ _ => by decide +kernel⟩

/-- Two tokens that cut the picture of ESC in two: their joined chunk restores ESC itself. -/
theorem coalesce_restores_control :
    checkPartition [⟨.plaintext, 0, 1⟩, ⟨.plaintext, 1, 3⟩] 3 = .ok () ∧
      ((Annotator.mk .ansiPalette .ansi true).annotate [0xE2, 0x90, 0x9B]
        [⟨.plaintext, 0, 1⟩, ⟨.plaintext, 1, 3⟩]).map Annotated.source = .ok [0x1B] ∧
      ((Annotator.mk .ansiPalette .ansi false).annotate [0xE2, 0x90, 0x9B]
        [⟨.plaintext, 0, 1⟩, ⟨.plaintext, 1, 3⟩]).map Annotated.source = .ok [0xE2, 0x90, 0x9B] := by
  decide +kernel

end Annotator

end CodeTint
