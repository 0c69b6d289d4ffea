import CodeTint.Proofs.RoundTrip

/-!
# What a terminal is sent

A terminal acts on ESC and on other control bytes. In text rendered for a
terminal every ESC opens a sequence `ESC [ parameters m` whose parameters are
those of a style or of a reset; apart from tabs and line breaks no other control
byte is left. So a source sends nothing of its own, whatever it holds and
whatever the styles are set to.
-/

namespace CodeTint

namespace Ansi

/-- Digits and semicolons, at least one of them. -/
structure IsParameters (parameters : Bytes) : Prop where
  nonempty : parameters ≠ []
  listed : ∀ b ∈ parameters, Byte.isDigit b = true ∨ b = 0x3B

/-- Every ESC of the text opens a control sequence with parameters of this sort. -/
def Sequenced (sort : Bytes → Prop) (text : Bytes) : Prop :=
  ∀ before after, text = before ++ esc :: after →
    ∃ parameters rest, sort parameters ∧ after = 0x5B :: (parameters ++ 0x6D :: rest)

theorem IsParameters.esc_not_mem {parameters : Bytes} (isParameters : IsParameters parameters) :
    esc ∉ parameters := by
  intro member
  rcases isParameters.listed esc member with digit | semicolon
  · exact absurd digit (by decide)
  · exact absurd semicolon (by decide)

theorem isParameters_of_isRaw {style : String} (raw : Sgr.isRaw style = true) (nonempty : style ≠ "") :
    IsParameters (Text.bytes style) := by
  refine ⟨?_, Sgr.bytes_of_isRaw raw⟩
  intro empty
  have characters : style.toList ≠ [] := fun none => nonempty (String.toList_eq_nil_iff.mp none)
  obtain ⟨b, rest, same, _⟩ := Utf8.encode_head characters
  exact absurd (same.symm.trans empty) (List.cons_ne_nil b rest)

namespace Sequenced

variable {sort : Bytes → Prop}

theorem of_not_mem {text : Bytes} (plain : esc ∉ text) : Sequenced sort text := by
  rintro before after rfl
  exact absurd (List.mem_append_right before List.mem_cons_self) plain

/-- A sequence that is finished in the first text is the same with more text behind it. -/
theorem append {first second : Bytes} (left : Sequenced sort first) (right : Sequenced sort second) :
    Sequenced sort (first ++ second) := by
  intro before after same
  rcases List.append_eq_append_iff.mp same with ⟨more, rfl, inSecond⟩ | ⟨more, inFirst, behind⟩
  · exact right more after inSecond
  · cases more with
    | nil => exact right [] after behind.symm
    | cons b more =>
        obtain ⟨rfl, rfl⟩ := List.cons.inj behind
        obtain ⟨parameters, rest, fits, rfl⟩ := left before more inFirst
        exact ⟨parameters, rest ++ second, fits, by simp⟩

theorem sequence {parameters : Bytes} (isParameters : IsParameters parameters) (fits : sort parameters) :
    Sequenced sort (esc :: 0x5B :: (parameters ++ [0x6D])) := by
  have tail : esc ∉ 0x5B :: (parameters ++ [0x6D]) := by
    simp only [List.mem_cons, List.mem_append, List.not_mem_nil, or_false, not_or]
    exact ⟨by decide, isParameters.esc_not_mem, by decide⟩
  intro before after same
  cases before with
  | nil =>
      obtain ⟨_, rfl⟩ := List.cons.inj same
      exact ⟨parameters, [], fits, rfl⟩
  | cons b before =>
      obtain ⟨_, later⟩ := List.cons.inj same
      rw [later] at tail
      exact absurd (List.mem_append_right before List.mem_cons_self) tail

theorem flatMap {α : Type} {list : List α} {write : α → Bytes}
    (each : ∀ member ∈ list, Sequenced sort (write member)) : Sequenced sort (list.flatMap write) := by
  induction list with
  | nil => exact of_not_mem List.not_mem_nil
  | cons first rest ih =>
      have here := each first List.mem_cons_self
      have later := ih fun member inRest => each member (List.mem_cons_of_mem first inRest)
      rw [List.flatMap_cons]
      exact here.append later

end Sequenced

theorem not_isHidden_of_isDigit {b : UInt8} (digit : Byte.isDigit b = true) : isHidden b = false := by
  rw [Bool.eq_false_iff]
  intro hidden
  rcases small_of_isHidden hidden with rfl | small
  · exact absurd digit (by decide)
  · simp only [Byte.isDigit, Bool.and_eq_true, decide_eq_true_eq, UInt8.le_iff_toNat_le] at digit
    exact absurd (Nat.lt_of_le_of_lt digit.1 small) (by decide)

/-- Of the bytes of a control sequence a terminal acts on the ESC alone. -/
theorem not_isHidden_of_mem_sequence {parameters : Bytes} (isParameters : IsParameters parameters)
    {b : UInt8} (member : b ∈ esc :: 0x5B :: (parameters ++ [0x6D])) : isHidden b = false ∨ b = esc := by
  simp only [List.mem_cons, List.mem_append, List.not_mem_nil, or_false] at member
  rcases member with rfl | rfl | inside | rfl
  · exact .inr rfl
  · exact .inl (by decide)
  · rcases isParameters.listed b inside with digit | rfl
    · exact .inl (not_isHidden_of_isDigit digit)
    · exact .inl (by decide)
  · exact .inl (by decide)

end Ansi

/-- The parameters written for these styles: those a style spells, and that of a reset. -/
structure StyleMap.Writes (styles : StyleMap) (parameters : Bytes) : Prop where
  isParameters : Ansi.IsParameters parameters
  known : parameters = Text.bytes "0" ∨
    ∃ kind style, styles.get? kind = some style ∧ parameters = Text.bytes style

theorem StyleMap.writes_reset (styles : StyleMap) : styles.Writes (Text.bytes "0") := by
  refine ⟨⟨by decide, ?_⟩, .inl rfl⟩
  intro b member
  obtain rfl := List.mem_singleton.mp member
  exact .inl (by decide)

/-! ## Chunks -/

namespace Chunk

/-- Only the style is read by a terminal, as parameters; the content is shown as it is. -/
def Shown (styles : StyleMap) : Chunk → Prop
  | literal content => ∀ b ∈ content, Ansi.isHidden b = false
  | styled _ style content =>
      styles.Writes (Text.bytes style) ∧ ∀ b ∈ content, Ansi.isHidden b = false

theorem esc_not_mem_of_visible {content : Bytes} (visible : ∀ b ∈ content, Ansi.isHidden b = false) :
    Ansi.esc ∉ content := by
  intro member
  exact absurd (visible Ansi.esc member) (by decide)

theorem Shown.sequenced {styles : StyleMap} {chunk : Chunk} (shown : chunk.Shown styles) :
    Ansi.Sequenced styles.Writes (chunk.render .ansi) := by
  cases chunk with
  | literal content => exact .of_not_mem (esc_not_mem_of_visible shown)
  | styled kind style content =>
      obtain ⟨writes, visible⟩ := shown
      have opening := Ansi.Sequenced.sequence writes.isParameters writes
      have inside : Ansi.Sequenced styles.Writes content := .of_not_mem (esc_not_mem_of_visible visible)
      have closing := Ansi.Sequenced.sequence styles.writes_reset.isParameters styles.writes_reset
      exact (opening.append inside).append closing

theorem Shown.not_isHidden {styles : StyleMap} {chunk : Chunk} (shown : chunk.Shown styles) {b : UInt8}
    (member : b ∈ chunk.render .ansi) : Ansi.isHidden b = false ∨ b = Ansi.esc := by
  cases chunk with
  | literal content => exact .inl (shown b member)
  | styled kind style content =>
      obtain ⟨writes, visible⟩ := shown
      rw [render, Format.decorate, List.mem_append, List.mem_append] at member
      rcases member with (opening | inside) | closing
      · exact Ansi.not_isHidden_of_mem_sequence writes.isParameters opening
      · exact .inl (visible b inside)
      · exact Ansi.not_isHidden_of_mem_sequence styles.writes_reset.isParameters closing

end Chunk

namespace Annotator

variable {styles : StyleMap} {source : Bytes} {tokens : List Token}

/-- The chunks of a terminal text hold escaped texts, so nothing in them is hidden. -/
theorem shown_chunks (coalesce : Bool)
    (parameters : styles.Every fun style => Ansi.IsParameters (Text.bytes style))
    (covers : checkPartition tokens source.length = .ok ()) :
    ∀ chunk ∈ (Annotator.mk styles .ansi coalesce).chunks (Piece.cut source tokens),
      chunk.Shown styles := by
  intro chunk member
  have visible : ∀ b ∈ chunk.content, Ansi.isHidden b = false := by
    obtain ⟨run, _, same⟩ := exists_run_of_mem_chunks _ covers member
    rw [same]
    intro b inside
    obtain ⟨token, _, inToken⟩ := List.mem_flatMap.mp inside
    exact Ansi.not_isHidden_of_mem_escape inToken
  obtain ⟨piece, _, rfl⟩ := List.mem_map.mp member
  unfold Chunk.ofPiece at visible ⊢
  split at visible
  · rename_i style found
    exact ⟨⟨parameters _ style found, .inr ⟨_, style, found, rfl⟩⟩, visible⟩
  · exact visible

end Annotator

/-- Texts cut between characters are escaped one by one as the text they make up. -/
theorem WholeParts.escape_flatten {texts : List Bytes} (whole : WholeParts texts) :
    texts.flatMap Ansi.escape = Ansi.escape texts.flatten := by
  rw [Format.ansi_escape_run, whole.glyphs_flatten, Ansi.content_glyphs]

/-! ## Configurations -/

namespace Highlighter

theorem parameters_styles {settings : Settings} {highlighter : Highlighter}
    (resolved : ofSettings settings = .ok highlighter)
    (output : highlighter.config.output = .annotated .ansi) :
    highlighter.config.styles.Every fun style => Ansi.IsParameters (Text.bytes style) := by
  have config := config_of_ofSettings resolved
  intro kind style found
  have raw := Config.terminal_ofSettings config output kind style found
  have nonempty := Config.nonempty_ofSettings config kind style found
  exact Ansi.isParameters_of_isRaw raw nonempty

/-- Text highlighted for a terminal controls it by the parameters of the styles alone: every ESC
opens a sequence of such parameters, no other control byte is left but tabs and line breaks, and
without the sequences the text is the escaped source. -/
theorem highlight_terminal_controls {settings : Settings} {highlighter installed : Highlighter}
    (resolved : ofSettings settings = .ok highlighter)
    (output : highlighter.config.output = .annotated .ansi)
    (installs : installed = highlighter ∨ ∃ specs, installed = highlighter.withRegistry (.ofSpecs specs))
    (source : Bytes) :
    ∃ annotated, installed.highlight source = .ok (.annotated annotated) ∧
      Ansi.Sequenced highlighter.config.styles.Writes annotated.render ∧
      (∀ b ∈ annotated.render, b ≠ Ansi.esc → b < 0x20 →
        b = 0x09 ∨ b = Byte.lineFeed ∨ b = Byte.carriageReturn) ∧
      Ansi.del ∉ annotated.render ∧
      Ansi.stripSgr annotated.render = Ansi.escape source := by
  have config : installed.config = highlighter.config := by
    rcases installs with rfl | ⟨specs, rfl⟩
    · rfl
    · rfl
  have parameters := parameters_styles resolved output
  have allowed := allows_style resolved output
  rw [← config] at output parameters allowed ⊢
  have covers := scan_covers installed.language source
  have shown := Annotator.shown_chunks installed.config.coalesce parameters covers
  have control (b : UInt8) (member : b ∈ List.flatMap (Chunk.render .ansi)
      ((installed.annotator .ansi).chunks (Piece.cut source (scan installed.language source)))) :
      Ansi.isHidden b = false ∨ b = Ansi.esc := by
    obtain ⟨chunk, inChunks, inside⟩ := List.mem_flatMap.mp member
    exact (shown chunk inChunks).not_isHidden inside
  refine ⟨_, highlight_annotated output source, ?_, ?_, ?_, ?_⟩
  · exact .flatMap fun chunk member => (shown chunk member).sequenced
  · intro b member other small
    exact Ansi.control_of_not_isHidden ((control b member).resolve_right other) small
  · intro member
    rcases control Ansi.del member with visible | same
    · exact absurd visible (by decide)
    · exact absurd same (by decide)
  · have stripped := (installed.annotator .ansi).strip_render allowed covers
    have escaped := (WholeParts.of_scan installed.language source).escape_flatten
    rw [List.flatMap_map, ← List.flatMap_def, texts_join covers] at escaped
    exact stripped.trans escaped

/-- A style in words, over a source that holds a control sequence of its own, a tab, a DEL and
the picture of an ESC. -/
theorem highlight_terminal_controls_words :
    ∃ highlighter annotated,
      ofSettings { format := some "ansi", overrides := some ⟨[("string", "bold Bright Red")]⟩ } =
        .ok highlighter ∧
      highlighter.config.output = .annotated .ansi ∧
      (highlighter.withRegistry (.ofSpecs [])).highlight
          [0x22, 0x1B, 0x5B, 0x32, 0x4A, 0x09, 0x7F, 0xE2, 0x90, 0x9B, 0x22] =
        .ok (.annotated annotated) ∧
      Ansi.Sequenced highlighter.config.styles.Writes annotated.render ∧
      (∀ b ∈ annotated.render, b ≠ Ansi.esc → b < 0x20 →
        b = 0x09 ∨ b = Byte.lineFeed ∨ b = Byte.carriageReturn) ∧
      Ansi.del ∉ annotated.render ∧
      Ansi.stripSgr annotated.render =
        Ansi.escape [0x22, 0x1B, 0x5B, 0x32, 0x4A, 0x09, 0x7F, 0xE2, 0x90, 0x9B, 0x22] := by
  have terminal : (ofSettings
      { format := some "ansi", overrides := some ⟨[("string", "bold Bright Red")]⟩ }).map
        (fun highlighter => highlighter.config.output) = .ok (.annotated .ansi) := by
    decide +kernel
  cases resolved : ofSettings
      { format := some "ansi", overrides := some ⟨[("string", "bold Bright Red")]⟩ } with
  | error =>
      rw [resolved] at terminal
      cases terminal
  | ok highlighter =>
      rw [resolved] at terminal
      have output : highlighter.config.output = .annotated .ansi := Except.ok.inj terminal
      obtain ⟨annotated, done, controls⟩ :=
        highlight_terminal_controls resolved output (.inr ⟨[], rfl⟩)
          [0x22, 0x1B, 0x5B, 0x32, 0x4A, 0x09, 0x7F, 0xE2, 0x90, 0x9B, 0x22]
      exact ⟨highlighter, annotated, rfl, output, done, controls⟩

end Highlighter

end CodeTint
