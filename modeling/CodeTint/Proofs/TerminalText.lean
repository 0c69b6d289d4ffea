import CodeTint.Proofs.Escaping
import CodeTint.Proofs.Terminal
import CodeTint.Proofs.TextOutput

/-!
# Characters on a terminal

Escaping works on bytes, and a terminal acts on characters. Over a source that is
text the bytes that are hidden are the control characters of one byte, and each is
shown as its picture. The control characters of two bytes, `U+0080` to `U+009F`,
have no such byte: they reach the terminal as they stand in the source, and nothing
else does that it would act on.
-/

namespace CodeTint

namespace Ansi

/-- Control characters of one byte, but for tabs and line breaks. -/
def isNarrowControl (c : Char) : Bool :=
  (c.toNat < 0x20 && c.toNat != 0x09 && c.toNat != 0x0A && c.toNat != 0x0D) || c.toNat == 0x7F

/-- Control characters of two bytes; `U+009B` introduces a control sequence as `ESC [` does. -/
def isWideControl (c : Char) : Bool :=
  0x80 ≤ c.toNat && c.toNat ≤ 0x9F

/-- Control characters, but for tabs and line breaks. -/
def isControl (c : Char) : Bool :=
  isNarrowControl c || isWideControl c

def isPicture (c : Char) : Bool :=
  0x2400 ≤ c.toNat && c.toNat ≤ 0x2426

/-- The picture of a control character of one byte. -/
def pictureFor (c : Char) : Char :=
  if c.toNat = 0x7F then '␡' else Char.ofNat (0x2400 + c.toNat)

/-- The characters that a character is shown as. -/
def shown (c : Char) : List Char :=
  if isNarrowControl c then [pictureFor c]
  else if isPicture c then ['␦', c]
  else [c]

/-! ## Pictures as characters -/

theorem payload_of_isThird {third : UInt8} (isThird : IsThird third) :
    Utf8.payload third = third.toNat - 0x80 := by
  obtain ⟨above, below⟩ := isThird
  unfold Utf8.payload
  omega

theorem encodeChar_picture {c : Char} {third : UInt8} (isThird : IsThird third)
    (code : c.toNat = 0x2400 + (third.toNat - 0x80)) : String.utf8EncodeChar c = picture third := by
  have continued : Utf8.isContinuation third = true := by
    rw [Utf8.isContinuation_iff]
    have above := isThird.1
    have below := isThird.2
    omega
  have value : c.toNat = ((0xE2 : UInt8).toNat % 16 * 64 + Utf8.payload 0x90) * 64 + Utf8.payload third := by
    rw [payload_of_isThird isThird, code]
    rfl
  have shape : Utf8.Sequence c (picture third) :=
    .three 0xE2 0x90 third (by decide) (by decide) continued value (by omega)
  exact (Utf8.sequence_encodeChar c).unique shape

theorem toNat_of_picture? {c : Char} {third : UInt8}
    (found : picture? (String.utf8EncodeChar c) = some third) :
    IsThird third ∧ c.toNat = 0x2400 + (third.toNat - 0x80) := by
  obtain ⟨isThird, rest, same⟩ := picture?_eq_some_iff.mp found
  refine ⟨isThird, ?_⟩
  have shape := Utf8.sequence_encodeChar c
  rw [same] at shape
  cases shape with
  | three _ _ _ _ _ _ code =>
      rw [code, payload_of_isThird isThird]
      rfl
  | four _ _ _ _ led => exact absurd led.1 (by decide)

theorem exists_third {c : Char} (listed : isPicture c = true) :
    ∃ third, IsThird third ∧ String.utf8EncodeChar c = picture third := by
  simp only [isPicture, Bool.and_eq_true, decide_eq_true_eq] at listed
  have byte : (UInt8.ofNat (0x80 + (c.toNat - 0x2400))).toNat = 0x80 + (c.toNat - 0x2400) :=
    Utf8.toNat_byte (by omega)
  have isThird : IsThird (UInt8.ofNat (0x80 + (c.toNat - 0x2400))) := ⟨by omega, by omega⟩
  exact ⟨_, isThird, encodeChar_picture isThird (by omega)⟩

theorem isPicture_of_picture? {c : Char} {third : UInt8}
    (found : picture? (String.utf8EncodeChar c) = some third) : isPicture c = true := by
  obtain ⟨⟨above, below⟩, code⟩ := toNat_of_picture? found
  simp only [isPicture, Bool.and_eq_true, decide_eq_true_eq]
  omega

/-! ## Control characters -/

/-- The hidden bytes are the control characters of one byte. -/
theorem isHidden_eq_isNarrowControl {c : Char} {b : UInt8} (code : c.toNat = b.toNat) :
    isHidden b = isNarrowControl c := by
  unfold isHidden isNarrowControl
  rw [code, Bool.eq_iff_iff]
  simp [UInt8.lt_iff_toNat_lt, ← UInt8.toNat_inj, del, Byte.lineFeed, Byte.carriageReturn]

theorem encodeChar_of_isNarrowControl {c : Char} (narrow : isNarrowControl c = true) :
    ∃ b, c.toNat = b.toNat ∧ isHidden b = true ∧ String.utf8EncodeChar c = [b] := by
  have ascii : c.toNat < 0x80 := by
    simp only [isNarrowControl, Bool.or_eq_true, Bool.and_eq_true, decide_eq_true_eq, beq_iff_eq] at narrow
    omega
  have code : c.toNat = (Byte.ofChar c).toNat := (Utf8.toNat_byte (by omega)).symm
  refine ⟨Byte.ofChar c, code, (isHidden_eq_isNarrowControl code).trans narrow, ?_⟩
  rw [← Utf8.encode_singleton, Utf8.encode_cons_ascii ascii]
  rfl

theorem not_isHidden_lead {c : Char} {lead : UInt8} {tail : Bytes}
    (same : String.utf8EncodeChar c = lead :: tail) (other : isNarrowControl c = false) :
    isHidden lead = false := by
  apply Bool.eq_false_iff.mpr
  intro hidden
  rw [← Utf8.encode_singleton] at same
  obtain ⟨code, _⟩ := Utf8.of_encode_cons_ascii same (ascii_of_isHidden hidden)
  rw [isHidden_eq_isNarrowControl code, other] at hidden
  cases hidden

theorem toNat_pictureFor {c : Char} {b : UInt8} (code : c.toNat = b.toNat) (hidden : isHidden b = true) :
    ∃ third, IsThird third ∧ pictureOf b = picture third ∧
      (pictureFor c).toNat = 0x2400 + (third.toNat - 0x80) := by
  obtain ⟨third, isThird, written, _, meaning⟩ := pictureOf_eq hidden
  refine ⟨third, isThird, written, ?_⟩
  -- The picture of DEL does not stand at its own code, as the others do.
  rcases meaning with ⟨rfl, rfl⟩ | ⟨low, rfl⟩
  · have same : c.toNat = 0x7F := code
    rw [pictureFor, if_pos same]
    rfl
  · have above : (0x80 : UInt8) ≤ third := UInt8.le_iff_toNat_le.mpr isThird.1
    rw [UInt8.toNat_sub_of_le third 0x80 above] at code
    rw [UInt8.le_iff_toNat_le] at low
    have small : c.toNat < 0x20 := code.trans_lt (Nat.sub_lt_left_of_lt_add isThird.1 (Nat.lt_succ_of_le low))
    have scalar : Utf8.scalar? 0x800 (0x2400 + c.toNat) = some (Char.ofNat (0x2400 + c.toNat)) :=
      if_pos ⟨by omega, .inl (by omega)⟩
    rw [pictureFor, if_neg (by omega), (Utf8.toNat_of_scalar? scalar).1, code]
    rfl

/-- A character is escaped as the characters it is shown as. -/
theorem escape_encodeChar (c : Char) : escape (String.utf8EncodeChar c) = Utf8.encode (shown c) := by
  unfold shown
  cases narrow : isNarrowControl c with
  | true =>
      obtain ⟨b, code, hidden, same⟩ := encodeChar_of_isNarrowControl narrow
      obtain ⟨third, isThird, written, value⟩ := toNat_pictureFor code hidden
      rw [same, escape_hidden hidden, escape_nil, List.append_nil, written, if_pos rfl, Utf8.encode_singleton,
        encodeChar_picture isThird value]
  | false =>
      rw [if_neg Bool.false_ne_true]
      cases listed : isPicture c with
      | true =>
          obtain ⟨third, isThird, same⟩ := exists_third listed
          have escaped := escape_picture isThird []
          rw [List.append_nil, escape_nil, List.append_nil] at escaped
          rw [same, escaped, if_pos rfl, Utf8.encode_cons, Utf8.encode_singleton, same]
          rfl
      | false =>
          obtain ⟨lead, tail, same, _, continued, _⟩ := (Utf8.sequence_encodeChar c).lead_tail
          have other : picture? (lead :: tail) = none := by
            rw [← same, Option.eq_none_iff_forall_ne_some]
            intro third found
            cases listed.symm.trans (isPicture_of_picture? found)
          rw [if_neg Bool.false_ne_true, Utf8.encode_singleton, same,
            escape_plain (not_isHidden_lead same narrow) other, escape_continuations continued]

/-- A text is escaped as the characters it is shown as. -/
theorem escape_encode (text : List Char) :
    escape (Utf8.encode text) = Utf8.encode (text.flatMap shown) := by
  induction text with
  | nil => exact escape_nil
  | cons c text ih =>
      have cut := Utf8.KeepsWhole.encode_append [c] (Utf8.encode text)
      rw [Utf8.encode_singleton] at cut
      rw [Utf8.encode_cons, escape_append (keepsPictures_of_keepsWhole cut), escape_encodeChar, ih,
        List.flatMap_cons, Utf8.encode_append]

theorem not_isControl_of_large {c : Char} (large : 0xA0 ≤ c.toNat) : isControl c = false := by
  simp only [isControl, isNarrowControl, isWideControl, Bool.or_eq_false_iff, Bool.and_eq_false_iff,
    decide_eq_false_iff_not, beq_eq_false_iff_ne]
  omega

theorem not_isWideControl_of_isNarrowControl {c : Char} (narrow : isNarrowControl c = true) :
    isWideControl c = false := by
  simp only [isNarrowControl, isWideControl, Bool.or_eq_true, Bool.and_eq_true, Bool.and_eq_false_iff,
    decide_eq_true_eq, decide_eq_false_iff_not, beq_iff_eq] at narrow ⊢
  omega

/-- A character is shown with a control character only if it is one of two bytes. -/
theorem filter_isControl_shown (c : Char) : (shown c).filter isControl = [c].filter isWideControl := by
  unfold shown
  cases narrow : isNarrowControl c with
  | true =>
      obtain ⟨b, code, hidden, _⟩ := encodeChar_of_isNarrowControl narrow
      obtain ⟨third, _, _, value⟩ := toNat_pictureFor code hidden
      have large : 0xA0 ≤ (pictureFor c).toNat := by omega
      simp [not_isControl_of_large large, not_isWideControl_of_isNarrowControl narrow]
  | false =>
      have same : isControl c = isWideControl c := by rw [isControl, narrow, Bool.false_or]
      cases isPicture c with
      | true =>
          have mark : isControl '␦' = false := by decide
          simp [List.filter_cons, mark, same]
      | false => simp [List.filter_cons, same]

/-- Of the control characters of a text those of two bytes are shown, and no other. -/
theorem filter_isControl_flatMap_shown (text : List Char) :
    (text.flatMap shown).filter isControl = text.filter isWideControl := by
  induction text with
  | nil => rfl
  | cons c text ih =>
      rw [List.flatMap_cons, List.filter_append, filter_isControl_shown, ih, ← List.filter_append,
        List.singleton_append]

end Ansi

namespace Highlighter

/-- Without the control sequences of the styles, text highlighted for a terminal is the escaped source. -/
theorem strip_highlight {highlighter : Highlighter}
    (output : highlighter.config.output = .annotated .ansi)
    (allowed : ∀ kind style, highlighter.config.styles.get? kind = some style → Format.ansi.Allows style)
    (source : Bytes) :
    ∃ annotated, highlighter.highlight source = .ok (.annotated annotated) ∧
      Ansi.stripSgr annotated.render = Ansi.escape source := by
  have covers := scan_covers highlighter.language source
  have stripped := (highlighter.annotator .ansi).strip_render allowed covers
  have escaped := (WholeParts.of_scan highlighter.language source).escape_flatten
  rw [List.flatMap_map, ← List.flatMap_def, texts_join covers] at escaped
  exact ⟨_, highlight_annotated output source, stripped.trans escaped⟩

/-- The control characters that text highlighted for a terminal holds outside of the control sequences
of the styles are the control characters of two bytes in the source. -/
theorem highlight_terminal_characters {settings : Settings} {highlighter installed : Highlighter}
    (resolved : ofSettings settings = .ok highlighter)
    (output : highlighter.config.output = .annotated .ansi)
    (installs : installed = highlighter ∨ ∃ specs, installed = highlighter.withRegistry (.ofSpecs specs))
    {source : Bytes} {text : List Char} (valid : Utf8.decodeAll? source = some text) :
    ∃ annotated, installed.highlight source = .ok (.annotated annotated) ∧
      Utf8.decodeAll? (Ansi.stripSgr annotated.render) = some (text.flatMap Ansi.shown) ∧
      (text.flatMap Ansi.shown).filter Ansi.isControl = text.filter Ansi.isWideControl := by
  have config : installed.config = highlighter.config := by
    rcases installs with rfl | ⟨specs, rfl⟩
    · rfl
    · rfl
  have allowed := allows_style resolved output
  rw [← config] at output allowed
  obtain ⟨annotated, done, stripped⟩ := strip_highlight output allowed source
  refine ⟨annotated, done, ?_, Ansi.filter_isControl_flatMap_shown text⟩
  rw [stripped, Utf8.encode_of_decodeAll? valid, Ansi.escape_encode]
  exact Utf8.decodeAll?_encode _

/-- A sequence opened by ESC, a tab, a DEL, the picture of an ESC, and a sequence opened by `U+009B`. -/
theorem highlight_terminal_characters_mixed :
    ∃ highlighter annotated,
      ofSettings { format := some "ansi" } = .ok highlighter ∧
      highlighter.config.output = .annotated .ansi ∧
      Utf8.decodeAll? (Utf8.encode ['\x1b', '[', '\t', '\x7f', '␛', '\u009b', '2']) =
        some ['\x1b', '[', '\t', '\x7f', '␛', '\u009b', '2'] ∧
      (highlighter.withRegistry (.ofSpecs [])).highlight
          (Utf8.encode ['\x1b', '[', '\t', '\x7f', '␛', '\u009b', '2']) = .ok (.annotated annotated) ∧
      Utf8.decodeAll? (Ansi.stripSgr annotated.render) =
        some ['␛', '[', '\t', '␡', '␦', '␛', '\u009b', '2'] ∧
      ['␛', '[', '\t', '␡', '␦', '␛', '\u009b', '2'].filter Ansi.isControl = ['\u009b'] := by
  have configured : ∃ highlighter, ofSettings { format := some "ansi" } = .ok highlighter ∧
      highlighter.config.output = .annotated .ansi := ⟨_, rfl, rfl⟩
  have valid := Utf8.decodeAll?_encode ['\x1b', '[', '\t', '\x7f', '␛', '\u009b', '2']
  obtain ⟨highlighter, resolved, output⟩ := configured
  obtain ⟨annotated, done, read, controls⟩ :=
    highlight_terminal_characters resolved output (.inr ⟨[], rfl⟩) valid
  exact ⟨highlighter, annotated, resolved, output, valid, done, read, controls⟩

/-- The introducer of a control sequence that is one character reaches the terminal. -/
theorem highlight_terminal_introducer :
    ∃ highlighter annotated,
      ofSettings { format := some "ansi" } = .ok highlighter ∧
      highlighter.config.output = .annotated .ansi ∧
      highlighter.highlight (Utf8.encode ['\u009b', '2', 'J']) = .ok (.annotated annotated) ∧
      Utf8.decodeAll? (Ansi.stripSgr annotated.render) = some ['\u009b', '2', 'J'] ∧
      Ansi.isControl '\u009b' = true := by
  have configured : ∃ highlighter, ofSettings { format := some "ansi" } = .ok highlighter ∧
      highlighter.config.output = .annotated .ansi := ⟨_, rfl, rfl⟩
  obtain ⟨highlighter, resolved, output⟩ := configured
  obtain ⟨annotated, done, stripped⟩ :=
    strip_highlight output (allows_style resolved output) (Utf8.encode ['\u009b', '2', 'J'])
  refine ⟨highlighter, annotated, resolved, output, done, ?_, by decide⟩
  rw [stripped, Ansi.escape_encode]
  exact Utf8.decodeAll?_encode ['\u009b', '2', 'J']

end Highlighter

end CodeTint
