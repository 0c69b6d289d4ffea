import CodeTint.Highlight
import CodeTint.Proofs.Annotate
import CodeTint.Proofs.Characters
import CodeTint.Proofs.Config

/-!
# Highlighting loses nothing

The scanner never cuts a character in two, and a picture is a character. So
where its tokens are joined or rendered one after another, escaping them apart
is the same as escaping the text they make up, and that is read back.
-/

namespace CodeTint

open Utf8 (KeepsWhole)

/-! ## Texts cut between characters -/

/-- A token that stops between two characters of a source does so in the text from its start on. -/
theorem Utf8.KeepsWhole.text {source : Bytes} {token : Token} (whole : KeepsWhole source token.stop)
    (forward : token.start ≤ token.stop) (fits : token.stop ≤ source.length) :
    KeepsWhole (source.drop token.start) (token.text source).length := by
  have stop : KeepsWhole source (token.start + (token.stop - token.start)) := by
    rw [Nat.add_sub_cancel' forward]
    exact whole
  rw [Token.length_text forward fits]
  exact stop.drop

/-- Each of the texts ends between two characters of what they make up. -/
def WholeParts : List Bytes → Prop
  | [] => True
  | text :: rest => KeepsWhole (text ++ rest.flatten) text.length ∧ WholeParts rest

namespace WholeParts

theorem of_append {first second : List Bytes} (whole : WholeParts (first ++ second)) :
    WholeParts first ∧ WholeParts second := by
  induction first with
  | nil => exact ⟨trivial, whole⟩
  | cons text rest ih =>
      rw [List.cons_append] at whole
      obtain ⟨cut, later⟩ := whole
      obtain ⟨left, right⟩ := ih later
      rw [List.flatten_append, ← List.append_assoc] at cut
      exact ⟨⟨cut.of_append, left⟩, right⟩

theorem of_mem_flatten {runs : List (List Bytes)} (whole : WholeParts runs.flatten) :
    ∀ run ∈ runs, WholeParts run := by
  induction runs with
  | nil =>
      intro run member
      cases member
  | cons first rest ih =>
      obtain ⟨here, later⟩ := whole.of_append
      intro run member
      rcases List.mem_cons.mp member with rfl | inRest
      · exact here
      · exact ih later run inRest

/-- Texts cut between characters are taken apart into the glyphs of what they make up. -/
theorem glyphs_flatten {texts : List Bytes} (whole : WholeParts texts) :
    texts.flatMap Ansi.glyphs = Ansi.glyphs texts.flatten := by
  induction texts with
  | nil =>
      rw [List.flatten_nil, Ansi.glyphs]
      rfl
  | cons text rest ih =>
      obtain ⟨cut, later⟩ := whole
      rw [List.flatMap_cons, List.flatten_cons, ih later,
        Ansi.glyphs_append (Ansi.keepsPictures_of_keepsWhole cut)]

/-- The texts of tokens that cover a source, if each stops between two characters. -/
theorem of_covers {source : Bytes} {tokens : List Token} {index expected : Nat}
    (covers : checkPartitionFrom source.length index expected tokens = .ok ())
    (whole : ∀ token ∈ tokens, KeepsWhole source token.stop) :
    WholeParts (tokens.map fun token => token.text source) := by
  induction tokens generalizing index expected with
  | nil => trivial
  | cons token rest ih =>
      have joined := texts_join_drop covers
      obtain ⟨rfl, nonempty, fits, later⟩ := checkPartitionFrom_cons_iff.mp covers
      rw [List.flatMap_def, List.map_cons, List.flatten_cons] at joined
      refine ⟨?_, ih later fun other member => whole other (List.mem_cons_of_mem _ member)⟩
      rw [joined]
      exact (whole token List.mem_cons_self).text (Nat.le_of_lt nonempty) fits

theorem of_scan (language : Language) (source : Bytes) :
    WholeParts ((scan language source).map fun token => token.text source) :=
  of_covers (scan_covers language source) fun _ member => (scan_whole member).2

end WholeParts

namespace Annotator

variable (annotator : Annotator) (language : Language) (source : Bytes)

/-- The glyphs of a run of scanned tokens are those of the text they make up. -/
theorem readable_run {run : List Token} (member : run ∈ annotator.runs (scan language source)) :
    Ansi.readable (run.flatMap fun token => Ansi.glyphs (token.text source)) = true := by
  have whole := WholeParts.of_scan language source
  rw [← annotator.flatten_runs (scan language source), List.map_flatten] at whole
  have here := whole.of_mem_flatten _ (List.mem_map_of_mem member)
  have joined := here.glyphs_flatten
  rw [List.flatMap_map] at joined
  rw [joined]
  exact Ansi.readable_glyphs _

/-- The chunks of a scanned source restore it. -/
theorem source_scan :
    (⟨annotator.format, annotator.chunks (Piece.cut source (scan language source))⟩ : Annotated).source =
      source := by
  have covers := scan_covers language source
  rw [annotator.source_eq covers]
  have restored (run : List Token) (member : run ∈ annotator.runs (scan language source)) :=
    (annotator.format.unescape_tokens_iff source run).mpr fun _ =>
      annotator.readable_run language source member
  rw [List.flatMap_congr restored, annotator.joined_runs covers]

/-- What is rendered for a scanned source is read back as the source. -/
theorem toSource_scan
    (allowed : ∀ kind style, annotator.styles.get? kind = some style → annotator.format.Allows style) :
    annotator.format.toSource
        (⟨annotator.format, annotator.chunks (Piece.cut source (scan language source))⟩ : Annotated).render =
      source := by
  have covers := scan_covers language source
  have whole := WholeParts.of_scan language source
  have joined := whole.glyphs_flatten
  rw [List.flatMap_map, ← List.flatMap_def, texts_join covers] at joined
  rw [Format.toSource, annotator.strip_render allowed covers,
    (annotator.format.unescape_tokens_iff source _).mpr, texts_join covers]
  intro _
  rw [joined]
  exact Ansi.readable_glyphs _

end Annotator

/-- The styles of a resolved configuration do not end the decoration they stand in. -/
theorem Config.allows_style {settings : Settings} {config : Config} {format : Format}
    (resolved : ofSettings settings = .ok config) (output : config.output = .annotated format) :
    ∀ kind style, config.styles.get? kind = some style → format.Allows style := by
  rintro kind style found rfl member
  have raw := terminal_ofSettings resolved output kind style found
  have listed := Sgr.bytes_of_isRaw raw 0x6D member
  exact absurd listed (by decide)

namespace Highlighter

theorem config_of_ofSettings {settings : Settings} {highlighter : Highlighter}
    (resolved : ofSettings settings = .ok highlighter) :
    Config.ofSettings settings = .ok highlighter.config := by
  unfold ofSettings at resolved
  cases config : Config.ofSettings settings with
  | error =>
      rw [config] at resolved
      cases resolved
  | ok value =>
      rw [config] at resolved
      cases resolved
      rfl

/-- Highlighting to text never fails, since the tokens of a scan cover the source. -/
theorem highlight_annotated {highlighter : Highlighter} {format : Format}
    (output : highlighter.config.output = .annotated format) (source : Bytes) :
    highlighter.highlight source =
      .ok (.annotated ⟨format, (highlighter.annotator format).chunks
        (Piece.cut source (scan highlighter.language source))⟩) := by
  have covers := scan_covers highlighter.language source
  unfold highlight
  dsimp only
  rw [output]
  exact congrArg (Except.map Highlighted.annotated)
    ((highlighter.annotator format).annotate_of_covers covers)

theorem exists_highlight (highlighter : Highlighter) (source : Bytes) :
    ∃ highlighted, highlighter.highlight source = .ok highlighted := by
  cases output : highlighter.config.output with
  | tokens =>
      unfold highlight
      dsimp only
      rw [output]
      exact ⟨_, rfl⟩
  | annotated format => exact ⟨_, highlight_annotated output source⟩

theorem allows_style {settings : Settings} {highlighter : Highlighter} {format : Format}
    (resolved : ofSettings settings = .ok highlighter)
    (output : highlighter.config.output = .annotated format) :
    ∀ kind style, highlighter.config.styles.get? kind = some style → format.Allows style :=
  Config.allows_style (config_of_ofSettings resolved) output

/-- Every resolved configuration highlights every source, with the built-in languages, with its
own or with those of any other list of specs; and where the result is text, the chunks restore
the source, and so does reading the rendered text. -/
theorem highlight_round_trip {settings : Settings} {highlighter installed : Highlighter}
    (resolved : ofSettings settings = .ok highlighter)
    (installs : installed = highlighter ∨ ∃ specs, installed = highlighter.withRegistry (.ofSpecs specs))
    (source : Bytes) :
    ∃ highlighted, installed.highlight source = .ok highlighted ∧
      ∀ format, installed.config.output = .annotated format →
        ∃ annotated, highlighted = .annotated annotated ∧ annotated.format = format ∧
          annotated.source = source ∧
          (format = .html → Html.toSource annotated.render = source) ∧
          (format = .ansi → Ansi.toSource annotated.render = source) ∧
          (format = .raw → annotated.render = source) := by
  have config : installed.config = highlighter.config := by
    rcases installs with rfl | ⟨specs, rfl⟩
    · rfl
    · rfl
  unfold highlight
  dsimp only
  cases output : installed.config.output with
  | tokens => exact ⟨_, rfl, nofun⟩
  | annotated format =>
      have covers := scan_covers installed.language source
      have restored := (installed.annotator format).source_scan installed.language source
      have rendered := (installed.annotator format).toSource_scan installed.language source
        (by
          rw [config] at output
          change ∀ kind style, installed.config.styles.get? kind = some style → format.Allows style
          rw [config]
          exact allows_style resolved output)
      dsimp only
      refine ⟨_, congrArg (Except.map Highlighted.annotated)
        ((installed.annotator format).annotate_of_covers covers), ?_⟩
      rintro _ ⟨⟩
      refine ⟨_, rfl, rfl, restored, ?_, ?_, ?_⟩
      · rintro rfl
        exact rendered
      · rintro rfl
        exact rendered
      · rintro rfl
        exact rendered

/-- A terminal configuration with a style of its own, over a source with an open string that
holds a picture, the control byte it stands for and the start of another picture. -/
theorem highlight_round_trip_terminal :
    ∃ highlighter highlighted annotated,
      ofSettings { format := some "ansi", overrides := some ⟨[("string", "31;1")]⟩ } = .ok highlighter ∧
      (highlighter.withRegistry (.ofSpecs [])).highlight [0x22, 0xE2, 0x90, 0x9B, 0x1B, 0xE2, 0x90] =
        .ok highlighted ∧
      highlighted = .annotated annotated ∧ annotated.format = .ansi ∧
      annotated.source = [0x22, 0xE2, 0x90, 0x9B, 0x1B, 0xE2, 0x90] ∧
      Ansi.toSource annotated.render = [0x22, 0xE2, 0x90, 0x9B, 0x1B, 0xE2, 0x90] := by
  have configured : ∃ highlighter,
      ofSettings { format := some "ansi", overrides := some ⟨[("string", "31;1")]⟩ } = .ok highlighter ∧
        highlighter.config.output = .annotated .ansi := ⟨_, rfl, rfl⟩
  obtain ⟨highlighter, resolved, output⟩ := configured
  obtain ⟨highlighted, done, restores⟩ := highlight_round_trip resolved (.inr ⟨[], rfl⟩)
    [0x22, 0xE2, 0x90, 0x9B, 0x1B, 0xE2, 0x90]
  obtain ⟨annotated, same, format, source, _, rendered, _⟩ := restores .ansi output
  exact ⟨highlighter, highlighted, annotated, resolved, done, same, format, source, rendered rfl⟩

end Highlighter

/-- Highlighting fails just where the settings do not resolve, and with their error. -/
theorem highlight_eq_error_iff {settings : Settings} {source : Bytes} {error : HighlightError} :
    highlight settings source = .error error ↔
      ∃ cause, Config.ofSettings settings = .error cause ∧ error = .config cause := by
  unfold highlight Highlighter.ofSettings
  cases resolved : Config.ofSettings settings with
  | error cause =>
      constructor
      · rintro ⟨⟩
        exact ⟨cause, rfl, rfl⟩
      · rintro ⟨_, ⟨⟩, rfl⟩
        rfl
  | ok config =>
      obtain ⟨highlighted, done⟩ := (Highlighter.ofConfig config).exists_highlight source
      refine iff_of_false ?_ ?_
      · intro failed
        change ((Highlighter.ofConfig config).highlight source).mapError HighlightError.tokens = _ at failed
        rw [done] at failed
        cases failed
      · rintro ⟨_, ⟨⟩, _⟩

end CodeTint
