import CodeTint.Proofs.RoundTrip

/-!
# Rendered text is text

A source that is UTF-8 stays so on its way through the formats. Escaping works
on whole characters: a control byte is a character of its own, and entities,
pictures and decorations are made of characters. So the rendered bytes are read
as a string without a replacement, and the string, which is also what is written
as JSON, is as good as the bytes.
-/

namespace CodeTint

namespace Utf8

/-- The bytes are those of a text. -/
def WellFormed (bytes : Bytes) : Prop :=
  ∃ text, bytes = encode text

namespace WellFormed

theorem nil : WellFormed [] :=
  ⟨[], rfl⟩

theorem of_bytes (text : String) : WellFormed (Text.bytes text) :=
  ⟨text.toList, rfl⟩

theorem append {left right : Bytes} (first : WellFormed left) (second : WellFormed right) :
    WellFormed (left ++ right) := by
  obtain ⟨front, rfl⟩ := first
  obtain ⟨behind, rfl⟩ := second
  exact ⟨front ++ behind, (encode_append front behind).symm⟩

theorem flatMap {α : Type} {list : List α} {write : α → Bytes}
    (each : ∀ member ∈ list, WellFormed (write member)) : WellFormed (list.flatMap write) := by
  induction list with
  | nil => exact nil
  | cons first rest ih =>
      rw [List.flatMap_cons]
      exact (each first List.mem_cons_self).append
        (ih fun member inRest => each member (List.mem_cons_of_mem _ inRest))

theorem of_decode? {bytes : Bytes} {c : Char} {width : Nat} (found : decode? bytes = some (c, width)) :
    WellFormed (bytes.take width) :=
  ⟨[c], (take_of_decode? found).trans (encode_singleton c).symm⟩

theorem of_ascii {b : UInt8} (ascii : b.toNat < 0x80) : WellFormed [b] :=
  of_decode? (decode?_ascii ascii [])

end WellFormed

/-- A character is an ASCII byte or has none. -/
theorem encodeChar_ascii_or_large (c : Char) :
    (∃ b : UInt8, b.toNat < 0x80 ∧ String.utf8EncodeChar c = [b]) ∨
      ∀ b ∈ String.utf8EncodeChar c, 0x80 ≤ b.toNat := by
  obtain ⟨lead, tail, same, _, continued, alone⟩ := (sequence_encodeChar c).lead_tail
  rw [same]
  by_cases ascii : lead.toNat < 0x80
  · exact .inl ⟨lead, ascii, by rw [alone ascii]⟩
  · refine .inr fun b member => ?_
    rcases List.mem_cons.mp member with rfl | behind
    · exact Nat.le_of_not_lt ascii
    · exact ((isContinuation_iff b).mp (continued b behind)).1

end Utf8

open Utf8 (WellFormed KeepsWhole)

/-! ## Escaped characters -/

namespace Html

theorem wellFormed_entity {entity : Entity} (listed : entity ∈ entities) :
    WellFormed (ampersand :: entity.name) := by
  simp only [entities, List.mem_cons, List.not_mem_nil, or_false] at listed
  rcases listed with rfl | rfl | rfl | rfl | rfl
  · exact .of_bytes "&amp;"
  · exact .of_bytes "&lt;"
  · exact .of_bytes "&gt;"
  · exact .of_bytes "&quot;"
  · exact .of_bytes "&#39;"

theorem wellFormed_escapeByte {b : UInt8} (ascii : b.toNat < 0x80) : WellFormed (escapeByte b) := by
  rcases escapeByte_cases b with ⟨entity, listed, _, written⟩ | ⟨_, written⟩
  · rw [written]
    exact wellFormed_entity listed
  · rw [written]
    exact .of_ascii ascii

theorem escapeByte_large {b : UInt8} (large : 0x80 ≤ b.toNat) : escapeByte b = [b] := by
  have ascii : ∀ entity ∈ entities, entity.raw.toNat < 0x80 := by decide
  rcases escapeByte_cases b with ⟨entity, listed, rfl, _⟩ | ⟨_, written⟩
  · exact absurd (ascii entity listed) (Nat.not_lt.mpr large)
  · exact written

theorem wellFormed_escape_char (c : Char) : WellFormed (escape (String.utf8EncodeChar c)) := by
  rcases Utf8.encodeChar_ascii_or_large c with ⟨b, ascii, same⟩ | large
  · rw [same, escape, List.flatMap_singleton]
    exact wellFormed_escapeByte ascii
  · have same : escape (String.utf8EncodeChar c) = String.utf8EncodeChar c := by
      rw [escape, List.flatMap_congr fun b member => escapeByte_large (large b member),
        List.flatMap_singleton']
    rw [same]
    exact ⟨[c], (Utf8.encode_singleton c).symm⟩

end Html

namespace Ansi

theorem wellFormed_picture {third : UInt8} (isThird : IsThird third) : WellFormed (picture third) := by
  obtain ⟨c, decoded⟩ := decode?_of_picture? (picture?_picture isThird [])
  exact .of_decode? decoded

theorem escape_continuations {bytes : Bytes} (continued : ∀ b ∈ bytes, Utf8.isContinuation b = true) :
    escape bytes = bytes := by
  induction bytes with
  | nil => rw [escape]
  | cons b rest ih =>
      obtain ⟨large, small⟩ := (Utf8.isContinuation_iff b).mp (continued b List.mem_cons_self)
      have other : b ≠ 0xE2 := by
        rintro rfl
        exact absurd small (by decide)
      rw [escape_plain (not_isHidden_of_large large) (picture?_of_ne other rest),
        ih fun b member => continued b (List.mem_cons_of_mem _ member)]

/-- A control byte is a character, and so is a picture. -/
theorem wellFormed_escape_char (c : Char) : WellFormed (escape (String.utf8EncodeChar c)) := by
  obtain ⟨lead, tail, same, _, continued, alone⟩ := (Utf8.sequence_encodeChar c).lead_tail
  have decoded := Utf8.decode?_encodeChar_append c []
  rw [List.append_nil] at decoded
  cases visible : isHidden lead with
  | true =>
      obtain ⟨third, isThird, written, _⟩ := pictureOf_eq visible
      rw [same, alone (ascii_of_isHidden visible), escape_hidden visible, written, escape, List.append_nil]
      exact wellFormed_picture isThird
  | false =>
      cases found : picture? (lead :: tail) with
      | none =>
          rw [same, escape_plain visible found, escape_continuations continued, ← same]
          exact ⟨[c], (Utf8.encode_singleton c).symm⟩
      | some third =>
          obtain ⟨other, three⟩ := decode?_of_picture? found
          rw [same, three] at decoded
          obtain ⟨_, length⟩ := Prod.mk.inj (Option.some.inj decoded)
          have ends : tail.drop 2 = [] :=
            List.drop_eq_nil_of_le (Nat.le_of_succ_le_succ (Nat.le_of_eq length.symm))
          rw [same, escape_of_picture? visible found, ends, escape, List.append_nil]
          exact (wellFormed_picture (by decide)).append (wellFormed_picture (picture?_eq_some_iff.mp found).1)

end Ansi

/-! ## Formats -/

namespace Format

variable (format : Format)

theorem wellFormed_escape_char (c : Char) : WellFormed (format.escape (String.utf8EncodeChar c)) := by
  cases format with
  | html => exact Html.wellFormed_escape_char c
  | ansi => exact Ansi.wellFormed_escape_char c
  | raw => exact ⟨[c], (Utf8.encode_singleton c).symm⟩

/-- An escaped text is a text. -/
theorem wellFormed_escape {bytes : Bytes} (whole : WellFormed bytes) : WellFormed (format.escape bytes) := by
  obtain ⟨text, rfl⟩ := whole
  induction text with
  | nil =>
      have empty : format.escape [] = [] := by
        cases format with
        | html => rfl
        | ansi => exact Ansi.escape.eq_1
        | raw => rfl
      exact ⟨[], empty⟩
  | cons c text ih =>
      have cut := KeepsWhole.encode_append [c] (Utf8.encode text)
      rw [Utf8.encode_singleton] at cut
      rw [Utf8.encode_cons, format.escape_append cut]
      exact (format.wellFormed_escape_char c).append ih

theorem wellFormed_opening (style : String) : WellFormed (format.opening style) := by
  cases format with
  | html =>
      have escaped := wellFormed_escape .html (.of_bytes style)
      exact (WellFormed.append (.of_bytes _) escaped).append (.of_bytes _)
  | ansi =>
      have opened : WellFormed [Ansi.esc, 0x5B] := ⟨['\x1b', '['], rfl⟩
      exact (opened.append (.of_bytes style)).append ⟨['m'], rfl⟩
  | raw => exact .nil

theorem wellFormed_closing : WellFormed format.closing := by
  cases format with
  | html => exact .of_bytes _
  | ansi => exact ⟨['\x1b', '[', '0', 'm'], rfl⟩
  | raw => exact .nil

end Format

theorem Chunk.wellFormed_render (format : Format) {chunk : Chunk} (content : WellFormed chunk.content) :
    WellFormed (chunk.render format) := by
  cases chunk with
  | literal text => exact content
  | styled kind style text =>
      exact ((format.wellFormed_opening style).append content).append format.wellFormed_closing

/-- Text that is well-formed is read without a replacement. -/
theorem Annotated.bytes_toText {annotated : Annotated} (whole : WellFormed annotated.render) :
    Text.bytes annotated.toText = annotated.render := by
  obtain ⟨text, same⟩ := whole
  rw [Text.bytes, toText, String.toList_ofList, same, Utf8.decodeLossy_encode]

/-- The chunks of a scanned text are rendered as a text. -/
theorem Annotator.wellFormed_scan (annotator : Annotator) (language : Language) {source : Bytes}
    (whole : WellFormed source) :
    WellFormed
      (⟨annotator.format, annotator.chunks (Piece.cut source (scan language source))⟩ : Annotated).render := by
  obtain ⟨text, rfl⟩ := whole
  refine .flatMap fun chunk member => chunk.wellFormed_render _ ?_
  obtain ⟨run, inRuns, same⟩ := annotator.exists_run_of_mem_chunks (scan_covers language _) member
  rw [same]
  refine .flatMap fun token inRun => annotator.format.wellFormed_escape ?_
  have scanned : token ∈ scan language (Utf8.encode text) := by
    rw [← annotator.flatten_runs (scan language (Utf8.encode text))]
    exact List.mem_flatten_of_mem inRuns inRun
  exact scan_encode scanned

namespace Highlighter

/-- A source that is text is highlighted as text, whatever the settings and the languages: the strict
reader accepts the rendered bytes, and the string they are read as, which is written as JSON, has
the same bytes and restores the source. -/
theorem highlight_text_output {settings : Settings} {highlighter : Highlighter} {format : Format}
    (resolved : Config.ofSettings settings = .ok highlighter.config)
    (output : highlighter.config.output = .annotated format) {source : Bytes} {text : List Char}
    (valid : Utf8.decodeAll? source = some text) :
    ∃ annotated, highlighter.highlight source = .ok (.annotated annotated) ∧
      Utf8.decodeAll? annotated.render = some annotated.toText.toList ∧
      Text.bytes annotated.toText = annotated.render ∧
      (Highlighted.annotated annotated).toJson =
        .object [("format", .string format.name), ("output", .string annotated.toText)] ∧
      format.toSource (Text.bytes annotated.toText) = source := by
  have allowed := Config.allows_style resolved output
  have whole := (highlighter.annotator format).wellFormed_scan highlighter.language
    ⟨text, Utf8.encode_of_decodeAll? valid⟩
  have restored := (highlighter.annotator format).toSource_scan highlighter.language source allowed
  have same := Annotated.bytes_toText whole
  refine ⟨_, highlight_annotated output source, ?_, same, rfl, ?_⟩
  · exact (congrArg Utf8.decodeAll? same.symm).trans (Utf8.decodeAll?_encode _)
  · exact (congrArg format.toSource same).trans restored

/-- A keyword, a two-byte letter, a control byte and its picture, for a terminal. -/
theorem highlight_text_output_terminal :
    ∃ highlighter annotated,
      ofSettings { format := some "ansi" } = .ok highlighter ∧
      highlighter.config.output = .annotated .ansi ∧
      Utf8.decodeAll? [0x69, 0x66, 0x20, 0xC3, 0xA9, 0x1B, 0xE2, 0x90, 0x9B] =
        some ['i', 'f', ' ', 'é', '\x1b', '␛'] ∧
      highlighter.highlight [0x69, 0x66, 0x20, 0xC3, 0xA9, 0x1B, 0xE2, 0x90, 0x9B] =
        .ok (.annotated annotated) ∧
      Utf8.decodeAll? annotated.render = some annotated.toText.toList ∧
      Text.bytes annotated.toText = annotated.render ∧
      (Highlighted.annotated annotated).toJson =
        .object [("format", .string "ansi"), ("output", .string annotated.toText)] ∧
      Ansi.toSource (Text.bytes annotated.toText) =
        [0x69, 0x66, 0x20, 0xC3, 0xA9, 0x1B, 0xE2, 0x90, 0x9B] := by
  have configured : ∃ highlighter, ofSettings { format := some "ansi" } = .ok highlighter ∧
      highlighter.config.output = .annotated .ansi := ⟨_, rfl, rfl⟩
  have valid : Utf8.decodeAll? [0x69, 0x66, 0x20, 0xC3, 0xA9, 0x1B, 0xE2, 0x90, 0x9B] =
      some ['i', 'f', ' ', 'é', '\x1b', '␛'] := Utf8.decodeAll?_encode ['i', 'f', ' ', 'é', '\x1b', '␛']
  obtain ⟨highlighter, resolved, output⟩ := configured
  obtain ⟨annotated, highlighted⟩ :=
    highlight_text_output (config_of_ofSettings resolved) output valid
  exact ⟨highlighter, annotated, resolved, output, valid, highlighted⟩

end Highlighter

end CodeTint
