import CodeTint.Proofs.Literal
import CodeTint.Proofs.Pieces
import CodeTint.Proofs.WordEnd
import Mathlib.Data.List.Find

/-!
# Line feeds and carriage returns

A source may end its lines with a line feed or with a carriage return and a line
feed. `withReturns` gives the second form of a text of the first. One lemma for
each kind of lexeme says where it ends in the second form; only a string literal
that has to stay on one line can end elsewhere, where an escape takes it over a
line end. `scan_withReturns_iff` says that nothing else tells the forms apart.
-/

namespace CodeTint

/-! ## The two forms of a text -/

namespace Bytes

/-- The text with a carriage return in front of every line feed. -/
def withReturns (text : Bytes) : Bytes :=
  text.flatMap fun b => if b = Byte.lineFeed then [Byte.carriageReturn, Byte.lineFeed] else [b]

def withoutReturns (text : Bytes) : Bytes :=
  text.filter (· ≠ Byte.carriageReturn)

/-- The text has no line feed and no carriage return. -/
def Unbroken (text : Bytes) : Prop :=
  ∀ b ∈ text, Byte.isLineBreak b = false

variable {text : Bytes}

theorem withReturns_append (first second : Bytes) :
    withReturns (first ++ second) = withReturns first ++ withReturns second :=
  List.flatMap_append

theorem withReturns_lineFeed (rest : Bytes) :
    withReturns (Byte.lineFeed :: rest) = Byte.carriageReturn :: Byte.lineFeed :: withReturns rest :=
  rfl

theorem withReturns_cons {b : UInt8} (other : b ≠ Byte.lineFeed) (rest : Bytes) :
    withReturns (b :: rest) = b :: withReturns rest := by
  unfold withReturns
  rw [List.flatMap_cons, if_neg other, List.singleton_append]

theorem withReturns_backslash (rest : Bytes) :
    withReturns (Byte.backslash :: rest) = Byte.backslash :: withReturns rest :=
  rfl

theorem withReturns_of_not_mem (absent : Byte.lineFeed ∉ text) : withReturns text = text := by
  induction text with
  | nil => rfl
  | cons b rest ih =>
      rw [List.mem_cons, not_or] at absent
      rw [withReturns_cons (Ne.symm absent.1), ih absent.2]

theorem lineFeed_not_mem_of_unbroken (unbroken : Unbroken text) : Byte.lineFeed ∉ text := by
  intro member
  exact absurd (unbroken _ member) (by decide)

theorem withReturns_of_unbroken (unbroken : Unbroken text) : withReturns text = text :=
  withReturns_of_not_mem (lineFeed_not_mem_of_unbroken unbroken)

theorem withoutReturns_withReturns (free : Byte.carriageReturn ∉ text) :
    withoutReturns (withReturns text) = text := by
  induction text with
  | nil => rfl
  | cons b rest ih =>
      rw [List.mem_cons, not_or] at free
      have inner := ih free.2
      unfold withoutReturns at inner ⊢
      by_cases feed : b = Byte.lineFeed
      · subst feed
        rw [withReturns_lineFeed, List.filter_cons_of_neg (by decide), List.filter_cons_of_pos (by decide),
          inner]
      · rw [withReturns_cons feed, List.filter_cons_of_pos (by simpa using Ne.symm free.1), inner]

theorem getLast?_withReturns (text : Bytes) : (withReturns text).getLast? = text.getLast? := by
  induction text with
  | nil => rfl
  | cons b rest ih =>
      by_cases feed : b = Byte.lineFeed
      · subst feed
        rw [withReturns_lineFeed, List.getLast?_cons, List.getLast?_cons, ih, List.getLast?_cons]
        rfl
      · rw [withReturns_cons feed, List.getLast?_cons, List.getLast?_cons, ih]

/-- A part of the text takes as many bytes as its own other form. -/
theorem take_withReturns (text : Bytes) (count : Nat) :
    (withReturns text).take (withReturns (text.take count)).length = withReturns (text.take count) := by
  have split := withReturns_append (text.take count) (text.drop count)
  rw [List.take_append_drop] at split
  rw [split, List.take_left]

theorem drop_withReturns (text : Bytes) (count : Nat) :
    (withReturns text).drop (withReturns (text.take count)).length = withReturns (text.drop count) := by
  have split := withReturns_append (text.take count) (text.drop count)
  rw [List.take_append_drop] at split
  rw [split, List.drop_left]

/-- A text without line breaks stands at the front of both forms or of none. -/
theorem isPrefixOf_withReturns {needle : Bytes} (unbroken : Unbroken needle) (text : Bytes) :
    needle.isPrefixOf (withReturns text) = needle.isPrefixOf text := by
  induction needle generalizing text with
  | nil =>
      cases text with
      | nil => rfl
      | cons b rest => rw [List.isPrefixOf_nil_left, List.isPrefixOf_nil_left]
  | cons n needle ih =>
      have later : Unbroken needle := fun b member => unbroken b (List.mem_cons_of_mem _ member)
      have here := unbroken n List.mem_cons_self
      simp only [Byte.isLineBreak, Bool.or_eq_false_iff] at here
      cases text with
      | nil => rfl
      | cons b rest =>
          by_cases feed : b = Byte.lineFeed
          · subst feed
            rw [withReturns_lineFeed, List.isPrefixOf_cons_cons, List.isPrefixOf_cons_cons, here.1, here.2]
            rfl
          · rw [withReturns_cons feed, List.isPrefixOf_cons_cons, List.isPrefixOf_cons_cons, ih later]

end Bytes

open Bytes (withReturns withoutReturns)

/-! ## Characters -/

namespace Utf8

theorem Sequence.lineFeed_not_mem {c : Char} {sequence : Bytes} (shape : Sequence c sequence)
    (other : c ≠ '\n') : Byte.lineFeed ∉ sequence := by
  intro member
  have code := shape.toNat_of_mem member (by decide)
  exact other (Char.toNat_inj.mp code)

theorem decode?_withReturns_lineFeed (rest : Bytes) :
    decode? (withReturns (Byte.lineFeed :: rest)) = some ('\r', 1) :=
  decode?_ascii (by decide) _

/-- A character that is no line feed is read from both forms, and is the same in both. -/
theorem decode?_withReturns {text : Bytes} {c : Char} {width : Nat} (found : decode? text = some (c, width))
    (other : c ≠ '\n') :
    decode? (withReturns text) = some (c, width) ∧ Byte.lineFeed ∉ text.take width := by
  obtain ⟨sequence, rest, rfl, shape, rfl⟩ := sequence_of_decode? found
  have absent := shape.lineFeed_not_mem other
  refine ⟨?_, ?_⟩
  · rw [Bytes.withReturns_append, Bytes.withReturns_of_not_mem absent]
    exact decode?_sequence_append shape _
  · rw [List.take_left]
    exact absent

theorem decode?_lineFeed {text : Bytes} {width : Nat} (found : decode? text = some ('\n', width)) :
    width = 1 ∧ ∃ rest, text = Byte.lineFeed :: rest := by
  obtain ⟨sequence, rest, rfl, shape, rfl⟩ := sequence_of_decode? found
  cases shape with
  | one lead led code =>
      obtain rfl : lead = Byte.lineFeed := UInt8.toNat_inj.mp code.symm
      exact ⟨rfl, rest, rfl⟩
  | two lead b₁ led first code long => exact absurd long (by decide)
  | three lead b₁ b₂ led first second code long => exact absurd long (by decide)
  | four lead b₁ b₂ b₃ led first second third code long => exact absurd long (by decide)

theorem decode?_withReturns_none {text : Bytes} (absent : decode? text = none) :
    decode? (withReturns text) = none := by
  cases text with
  | nil => rfl
  | cons b rest =>
      have large : 0x80 ≤ b.toNat := by
        by_contra ascii
        rw [decode?_ascii (Nat.lt_of_not_le ascii) rest] at absent
        cases absent
      have other : b ≠ Byte.lineFeed := by
        rintro rfl
        exact absurd large (by decide)
      cases found : decode? (withReturns (b :: rest)) with
      | none => rfl
      | some entry =>
          obtain ⟨sequence, more, same, shape, _⟩ := sequence_of_decode? found
          have unbroken : Bytes.Unbroken sequence := by
            obtain ⟨lead, tail, rfl, _, continued, _⟩ := shape.lead_tail
            rw [Bytes.withReturns_cons other, List.cons_append] at same
            obtain ⟨rfl, _⟩ := List.cons.inj same
            intro c member
            rw [Bool.eq_false_iff]
            intro broken
            have small := Byte.ascii_of_isLineBreak broken
            rcases List.mem_cons.mp member with rfl | behind
            · omega
            · have high := ((isContinuation_iff c).mp (continued c behind)).1
              omega
          have front := Bytes.isPrefixOf_withReturns unbroken (b :: rest)
          rw [List.isPrefixOf_iff_prefix.mpr ⟨more, same.symm⟩] at front
          obtain ⟨tail, frontEq⟩ := List.isPrefixOf_iff_prefix.mp front.symm
          rw [← frontEq, decode?_sequence_append shape] at absent
          cases absent

variable {isMember : Char → Bool}

theorem startsWith_withReturns (same : isMember '\r' = isMember '\n') (text : Bytes) :
    startsWith isMember (withReturns text) = startsWith isMember text := by
  unfold startsWith
  cases found : decode? text with
  | none => rw [decode?_withReturns_none found]
  | some entry =>
      obtain ⟨c, width⟩ := entry
      by_cases feed : c = '\n'
      · subst feed
        obtain ⟨_, rest, rfl⟩ := decode?_lineFeed found
        rw [decode?_withReturns_lineFeed]
        exact same
      · rw [(decode?_withReturns found feed).1]

/-- A run of a class that has both line breaks or none ends in the same place. -/
theorem runLength_withReturns (same : isMember '\r' = isMember '\n') (text : Bytes) :
    runLength isMember (withReturns text) =
      (withReturns (text.take (runLength isMember text))).length := by
  fun_induction runLength isMember text with
  | case1 text c width found member ih =>
      by_cases feed : c = '\n'
      · subst feed
        obtain ⟨rfl, rest, rfl⟩ := decode?_lineFeed found
        have second : decode? (Byte.lineFeed :: withReturns rest) = some ('\n', 1) :=
          decode?_ascii (by decide) _
        rw [runLength_of_decode? (decode?_withReturns_lineFeed rest), if_pos (same.trans member)]
        rw [Bytes.withReturns_lineFeed, List.drop_succ_cons, List.drop_zero,
          runLength_of_decode? second, if_pos member, List.drop_succ_cons, List.drop_zero]
        rw [List.drop_succ_cons, List.drop_zero] at ih
        rw [ih, Nat.add_comm 1 (runLength isMember _), List.take_succ_cons, List.drop_succ_cons,
          List.drop_zero, Bytes.withReturns_lineFeed, List.length_cons, List.length_cons]
        omega
      · obtain ⟨again, absent⟩ := decode?_withReturns found feed
        have fits := (decode?_width found).2
        have front := Bytes.withReturns_of_not_mem absent
        have behind := Bytes.drop_withReturns text width
        rw [front, List.length_take, Nat.min_eq_left fits] at behind
        rw [runLength_of_decode? again, if_pos member, behind, ih, List.take_add, Bytes.withReturns_append,
          front, List.length_append, List.length_take, Nat.min_eq_left fits]
  | case2 text c width found outside =>
      rw [List.take_zero]
      by_cases feed : c = '\n'
      · subst feed
        obtain ⟨rfl, rest, rfl⟩ := decode?_lineFeed found
        rw [runLength_of_decode? (decode?_withReturns_lineFeed rest), if_neg (same ▸ outside)]
        rfl
      · rw [runLength_of_decode? (decode?_withReturns found feed).1, if_neg outside]
        rfl
  | case3 text absent => exact runLength_of_undecodable (decode?_withReturns_none absent)

theorem lineFeed_not_mem_run (outside : isMember '\n' = false) (text : Bytes) :
    Byte.lineFeed ∉ text.take (runLength isMember text) := by
  fun_induction runLength isMember text with
  | case1 text c width found member ih =>
      have other : c ≠ '\n' := by
        rintro rfl
        rw [outside] at member
        cases member
      rw [List.take_add, List.mem_append, not_or]
      exact ⟨(decode?_withReturns found other).2, ih⟩
  | case2 text c width found other => exact List.not_mem_nil
  | case3 text absent => exact List.not_mem_nil

theorem width_withReturns {b : UInt8} (other : b ≠ Byte.lineFeed) (rest : Bytes) :
    width (withReturns (b :: rest)) = width (b :: rest) ∧
      Byte.lineFeed ∉ (b :: rest).take (width (b :: rest)) := by
  unfold width
  cases found : decode? (b :: rest) with
  | none =>
      rw [decode?_withReturns_none found]
      refine ⟨rfl, ?_⟩
      intro member
      exact other (List.mem_singleton.mp member).symm
  | some entry =>
      obtain ⟨c, width⟩ := entry
      have apart : c ≠ '\n' := by
        rintro rfl
        obtain ⟨_, more, same⟩ := decode?_lineFeed found
        cases same
        exact other rfl
      obtain ⟨again, absent⟩ := decode?_withReturns found apart
      rw [again]
      exact ⟨rfl, absent⟩

end Utf8

/-! ## Numbers -/

theorem Bytes.split_at_lineFeed (text : Bytes) :
    ∃ line rest, text = line ++ rest ∧ Byte.lineFeed ∉ line ∧
      (rest = [] ∨ ∃ later, rest = Byte.lineFeed :: later) := by
  induction text with
  | nil => exact ⟨[], [], rfl, List.not_mem_nil, .inl rfl⟩
  | cons b text ih =>
      by_cases feed : b = Byte.lineFeed
      · exact ⟨[], b :: text, rfl, List.not_mem_nil, .inr ⟨text, by rw [feed]⟩⟩
      · obtain ⟨line, rest, rfl, absent, ends⟩ := ih
        refine ⟨b :: line, rest, rfl, ?_, ends⟩
        rw [List.mem_cons, not_or]
        exact ⟨Ne.symm feed, absent⟩

namespace Number

/-- A line break ends a number, so the number is one of the first line. -/
theorem length_withReturns (text : Bytes) :
    length (withReturns text) = length text ∧ Byte.lineFeed ∉ text.take (length text) := by
  obtain ⟨line, rest, rfl, absent, ends⟩ := Bytes.split_at_lineFeed text
  have feed : rest.EndsWord := by
    rcases ends with rfl | ⟨later, rfl⟩
    · exact Bytes.endsWord_nil
    · exact Bytes.endsWord_cons (by decide) later
  have back : (withReturns rest).EndsWord := by
    rcases ends with rfl | ⟨later, rfl⟩
    · exact Bytes.endsWord_nil
    · exact Bytes.endsWord_cons (by decide) _
  rw [Bytes.withReturns_append, Bytes.withReturns_of_not_mem absent, length_append_of_ends back,
    length_append_of_ends feed]
  refine ⟨rfl, ?_⟩
  rw [List.take_append_of_le_length (length_cut line).fits]
  exact fun member => absent (List.mem_of_mem_take member)

theorem starts_withReturns (afterOperand : Bool) (text : Bytes) :
    starts afterOperand (withReturns text) = starts afterOperand text := by
  cases text with
  | nil => rfl
  | cons b rest =>
      by_cases feed : b = Byte.lineFeed
      · subst feed
        rfl
      · have digit : (withReturns rest).head?.any Byte.isDigit = rest.head?.any Byte.isDigit := by
          cases rest with
          | nil => rfl
          | cons c rest =>
              by_cases next : c = Byte.lineFeed
              · subst next
                rfl
              · rw [Bytes.withReturns_cons next]
                rfl
        rw [Bytes.withReturns_cons feed, starts, starts, digit]

end Number

/-! ## String literals -/

namespace Quoted

variable {literal : Quoted} {body rest : Bytes} {b : UInt8}

theorem stops_carriageReturn (quote : Byte.isLineBreak literal.quote = false) :
    literal.stops Byte.carriageReturn = false := by
  rw [Byte.isLineBreak_eq_false_iff] at quote
  simp only [stops, Bool.or_eq_false_iff, beq_eq_false_iff_ne]
  exact ⟨⟨Ne.symm quote.2, by decide⟩, by simp [Byte.carriageReturn, Byte.lineFeed]⟩

/-- Any other byte that stops the search and starts no escape closes a literal of one line. -/
theorem extent_close (single : literal.multiline = false) (apart : b ≠ Byte.backslash)
    (feed : b ≠ Byte.lineFeed) (stop : literal.stops b = true) (rest : Bytes) :
    literal.extent (b :: rest) = ⟨1, false⟩ := by
  have triple : literal.triple = false := (Bool.or_eq_false_iff.mp single).1
  rw [extent_stop stop, beq_eq_false_iff_ne.mpr apart, beq_eq_false_iff_ne.mpr feed, triple]
  rfl

/-- A literal that may span lines takes the same lines from both forms. -/
theorem extent_withReturns_multiline (quote : Byte.isLineBreak literal.quote = false)
    (spans : literal.multiline = true) (body : Bytes) :
    literal.extent (withReturns body) =
      ⟨(withReturns (body.take (literal.extent body).length)).length, false⟩ := by
  have returned := stops_carriageReturn quote
  have fed : literal.stops Byte.lineFeed = false := by rw [stops_lineFeed quote, spans]; rfl
  induction body using body_induction with
  | nil => rw [extent_empty]; exact extent_empty literal
  | open_escape => rw [extent_open_escape]; exact extent_open_escape literal
  | escape c rest ih =>
      rw [extent_escape_cons, take_after_two, Bytes.withReturns_backslash, Bytes.withReturns_backslash]
      by_cases feed : c = Byte.lineFeed
      · subst feed
        rw [Bytes.withReturns_lineFeed, Bytes.withReturns_lineFeed, extent_escape_cons, extent_plain fed, ih]
        simp only [Extent.after, List.length_cons, Extent.mk.injEq, and_true]
        omega
      · rw [Bytes.withReturns_cons feed, Bytes.withReturns_cons feed, extent_escape_cons, ih]
        simp only [Extent.after, List.length_cons, Extent.mk.injEq, and_true]
        omega
  | other b rest apart ih =>
      by_cases feed : b = Byte.lineFeed
      · subst feed
        rw [extent_plain fed, take_after_one, Bytes.withReturns_lineFeed, Bytes.withReturns_lineFeed,
          extent_plain returned, extent_plain fed, ih]
        simp only [Extent.after, List.length_cons, Extent.mk.injEq, and_true]
        omega
      have onward : (literal.extent (withReturns rest)).after 1 =
          ⟨(withReturns ((b :: rest).take ((literal.extent rest).after 1).length)).length, false⟩ := by
        rw [take_after_one, Bytes.withReturns_cons feed, ih]
        simp only [Extent.after, List.length_cons, Extent.mk.injEq, and_true]
        omega
      rw [Bytes.withReturns_cons feed]
      cases stop : literal.stops b with
      | false => rw [extent_plain stop, extent_plain stop, onward]
      | true =>
          have threefold : Bytes.Unbroken [literal.quote, literal.quote, literal.quote] := by
            intro c member
            simp only [List.mem_cons, List.not_mem_nil, or_false, or_self] at member
            rw [member, quote]
          rw [extent_stop stop, extent_stop stop, beq_eq_false_iff_ne.mpr apart,
            beq_eq_false_iff_ne.mpr feed, ← Bytes.withReturns_cons feed,
            Bytes.isPrefixOf_withReturns threefold]
          simp only [Bool.false_eq_true, if_false]
          split
          · split
            · rename_i closed
              obtain ⟨more, same⟩ := List.isPrefixOf_iff_prefix.mp closed
              have front : (b :: rest).take 3 = [literal.quote, literal.quote, literal.quote] := by
                rw [← same]
                rfl
              simp only [front, Bytes.withReturns_of_unbroken threefold]
              rfl
            · exact onward
          · simp only [List.take_succ_cons, List.take_zero]
            rw [Bytes.withReturns_cons feed]
            rfl

/-- A literal of one line is the same in both forms, if no escape takes it over a line end: its
search stops before the line feed, behind the carriage return that one form has there. -/
theorem extent_withReturns_single (quote : Byte.isLineBreak literal.quote = false)
    (single : literal.multiline = false) {body : Bytes}
    (inside : Byte.lineFeed ∉ body.take (literal.extent body).length) :
    literal.extent (withReturns body) =
      if (literal.extent body).beforeLineFeed then ⟨(literal.extent body).length + 1, true⟩
      else literal.extent body := by
  have afterwards (count : Nat) (extent : Extent) :
      (if extent.beforeLineFeed then (⟨extent.length + 1, true⟩ : Extent) else extent).after count =
        if (extent.after count).beforeLineFeed then ⟨(extent.after count).length + 1, true⟩
        else extent.after count := by
    obtain ⟨length, before⟩ := extent
    cases before <;> rfl
  induction body using body_induction with
  | nil => rw [extent_empty]; exact extent_empty literal
  | open_escape => rw [extent_open_escape]; exact extent_open_escape literal
  | escape c rest ih =>
      rw [extent_escape_cons, take_after_two, List.mem_cons, List.mem_cons, not_or, not_or] at inside
      rw [Bytes.withReturns_backslash, Bytes.withReturns_cons (Ne.symm inside.2.1),
        extent_escape_cons, extent_escape_cons, ih inside.2.2, afterwards]
  | other b rest apart ih =>
      by_cases feed : b = Byte.lineFeed
      · subst feed
        rw [Bytes.withReturns_lineFeed, extent_plain (stops_carriageReturn quote),
          extent_lineFeed quote single, extent_lineFeed quote single]
        rfl
      rw [Bytes.withReturns_cons feed]
      cases stop : literal.stops b with
      | false =>
          rw [extent_plain stop, take_after_one, List.mem_cons, not_or] at inside
          rw [extent_plain stop, extent_plain stop, ih inside.2, afterwards]
      | true => rw [extent_close single apart feed stop, extent_close single apart feed stop]; rfl

/-- Where every line feed has a carriage return before it, no escape reaches one. -/
theorem lineFeed_not_mem_extent (quote : Byte.isLineBreak literal.quote = false)
    (single : literal.multiline = false) (body : Bytes) :
    Byte.lineFeed ∉ (withReturns body).take (literal.extent (withReturns body)).length := by
  induction body using body_induction with
  | nil => exact fun member => absurd (List.mem_of_mem_take member) List.not_mem_nil
  | open_escape =>
      intro member
      exact absurd (List.mem_of_mem_take member) (by decide)
  | escape c rest ih =>
      rw [Bytes.withReturns_backslash]
      by_cases feed : c = Byte.lineFeed
      · subst feed
        rw [Bytes.withReturns_lineFeed, extent_escape_cons, extent_lineFeed quote single, take_after_two]
        change Byte.lineFeed ∉ [Byte.backslash, Byte.carriageReturn]
        decide
      · rw [Bytes.withReturns_cons feed, extent_escape_cons, take_after_two, List.mem_cons, List.mem_cons,
          not_or, not_or]
        exact ⟨by decide, Ne.symm feed, ih⟩
  | other b rest apart ih =>
      by_cases feed : b = Byte.lineFeed
      · subst feed
        rw [Bytes.withReturns_lineFeed, extent_plain (stops_carriageReturn quote),
          extent_lineFeed quote single, take_after_one]
        change Byte.lineFeed ∉ [Byte.carriageReturn]
        decide
      rw [Bytes.withReturns_cons feed]
      cases stop : literal.stops b with
      | false =>
          rw [extent_plain stop, take_after_one, List.mem_cons, not_or]
          exact ⟨Ne.symm feed, ih⟩
      | true =>
          rw [extent_close single apart feed stop]
          exact fun member => feed (List.mem_singleton.mp member).symm

/-- A search that ends before a line feed leaves the line feed. -/
theorem split_of_beforeLineFeed (quote : Byte.isLineBreak literal.quote = false)
    (single : literal.multiline = false) {body : Bytes}
    (before : (literal.extent body).beforeLineFeed = true) :
    ∃ later, body = body.take (literal.extent body).length ++ Byte.lineFeed :: later := by
  induction body using body_induction with
  | nil =>
      rw [extent_empty] at before
      cases before
  | open_escape =>
      rw [extent_open_escape] at before
      cases before
  | escape c rest ih =>
      rw [extent_escape_cons] at before ⊢
      obtain ⟨later, same⟩ := ih before
      refine ⟨later, ?_⟩
      rw [take_after_two, List.cons_append, List.cons_append, ← same]
  | other b rest apart ih =>
      by_cases feed : b = Byte.lineFeed
      · subst feed
        rw [extent_lineFeed quote single]
        exact ⟨rest, rfl⟩
      cases stop : literal.stops b with
      | false =>
          rw [extent_plain stop] at before ⊢
          obtain ⟨later, same⟩ := ih before
          refine ⟨later, ?_⟩
          rw [take_after_one, List.cons_append, ← same]
      | true =>
          rw [extent_close single apart feed stop] at before
          cases before

/-- Without carriage returns the end of a literal is never moved back. -/
theorem length_of_free {rest : Bytes} (free : Byte.carriageReturn ∉ rest) :
    literal.length rest = literal.openLength + (literal.extent (rest.drop literal.openLength)).length := by
  unfold length
  dsimp only
  rw [if_neg]
  intro moved
  have last := eq_of_beq (Bool.and_eq_true_iff.mp moved).2
  exact free (List.mem_of_mem_drop (List.mem_of_mem_take (List.mem_of_getLast? last)))

/-- The literal at the front, with its opening quotes on the first line. -/
structure Opened (literal : Quoted) (rest : Bytes) : Prop where
  punctuation : Byte.isPunctuation literal.quote = true
  fits : literal.openLength ≤ rest.length
  line : Byte.lineFeed ∉ rest.take literal.openLength

theorem opened_ofFront {quote : UInt8} (punctuation : Byte.isPunctuation quote = true)
    (tripleQuotes : Bool) (bs : Bytes) :
    (ofFront tripleQuotes quote (quote :: bs)).Opened (quote :: bs) where
  punctuation := punctuation
  fits := (openLength_edge tripleQuotes (Byte.ascii_of_isPunctuation punctuation) bs).fits
  line := by
    have other : quote ≠ Byte.lineFeed := by
      rintro rfl
      exact absurd punctuation (by decide)
    unfold openLength
    split
    · rename_i triple
      obtain ⟨more, same⟩ := List.isPrefixOf_iff_prefix.mp (Bool.and_eq_true_iff.mp triple).2
      rw [← same]
      simp [Ne.symm other]
    · simp [Ne.symm other]

theorem ofFront_withReturns {quote : UInt8} (unbroken : Byte.isLineBreak quote = false)
    (tripleQuotes : Bool) (rest : Bytes) :
    ofFront tripleQuotes quote (withReturns rest) = ofFront tripleQuotes quote rest := by
  have threefold : Bytes.Unbroken [quote, quote, quote] := by
    intro c member
    simp only [List.mem_cons, List.not_mem_nil, or_false, or_self] at member
    rw [member, unbroken]
  rw [ofFront, ofFront, Bytes.isPrefixOf_withReturns threefold]

namespace Opened

theorem unbroken (opened : literal.Opened rest) : Byte.isLineBreak literal.quote = false :=
  Byte.not_isLineBreak_of_isPunctuation opened.punctuation

theorem drop_withReturns (opened : literal.Opened rest) :
    (withReturns rest).drop literal.openLength = withReturns (rest.drop literal.openLength) := by
  have behind := Bytes.drop_withReturns rest literal.openLength
  rwa [Bytes.withReturns_of_not_mem opened.line, List.length_take, Nat.min_eq_left opened.fits] at behind

theorem length_take (opened : literal.Opened rest) (count : Nat) :
    (withReturns (rest.take (literal.openLength + count))).length =
      literal.openLength + (withReturns ((rest.drop literal.openLength).take count)).length := by
  rw [List.take_add, Bytes.withReturns_append, Bytes.withReturns_of_not_mem opened.line,
    List.length_append, List.length_take, Nat.min_eq_left opened.fits]

/-- A literal has the same lines in both forms, unless it has to stay on one line and does not. -/
theorem length_withReturns (opened : literal.Opened rest) (free : Byte.carriageReturn ∉ rest)
    (fine : literal.multiline = true ∨ Byte.lineFeed ∉ rest.take (literal.length rest)) :
    literal.length (withReturns rest) = (withReturns (rest.take (literal.length rest))).length := by
  rw [length_of_free free, List.take_add, List.mem_append, not_or] at fine
  rw [length_of_free free, opened.length_take]
  unfold length
  dsimp only
  rw [opened.drop_withReturns]
  generalize rest.drop literal.openLength = body at fine ⊢
  cases spans : literal.multiline with
  | true => rw [extent_withReturns_multiline opened.unbroken spans]; rfl
  | false =>
      have inside : Byte.lineFeed ∉ body.take (literal.extent body).length := by
        rcases fine with spanning | ⟨_, inside⟩
        · rw [spans] at spanning
          cases spanning
        · exact inside
      have fits := (extent_edge (Byte.ascii_of_isPunctuation opened.punctuation) body).fits
      rw [Bytes.withReturns_of_not_mem inside, List.length_take, Nat.min_eq_left fits,
        extent_withReturns_single opened.unbroken spans inside]
      cases before : (literal.extent body).beforeLineFeed with
      | false => rw [if_neg Bool.false_ne_true, before]; rfl
      | true =>
          obtain ⟨later, same⟩ := split_of_beforeLineFeed opened.unbroken spans before
          have front : (withReturns body).take ((literal.extent body).length + 1) =
              body.take (literal.extent body).length ++ [Byte.carriageReturn] := by
            have width : (body.take (literal.extent body).length).length = (literal.extent body).length := by
              rw [List.length_take, Nat.min_eq_left fits]
            generalize body.take (literal.extent body).length = line at inside same width
            rw [← width, same, Bytes.withReturns_append, Bytes.withReturns_of_not_mem inside,
              List.take_length_add_append, Bytes.withReturns_lineFeed]
            rfl
          rw [if_pos rfl, front, List.getLast?_concat]
          exact if_pos rfl

/-- A literal that has to stay on one line does so where every line feed has a carriage return
before it. -/
theorem lineFeed_not_mem_length (opened : literal.Opened rest) (single : literal.multiline = false) :
    Byte.lineFeed ∉ (withReturns rest).take (literal.length (withReturns rest)) := by
  have bound : literal.length (withReturns rest) ≤
      literal.openLength + (literal.extent ((withReturns rest).drop literal.openLength)).length := by
    unfold length
    dsimp only
    split <;> omega
  intro member
  have wider := List.take_subset_take_left (withReturns rest) bound member
  rw [List.take_add, opened.drop_withReturns, List.mem_append] at wider
  rcases wider with opening | inner
  · have front := Bytes.take_withReturns rest literal.openLength
    rw [Bytes.withReturns_of_not_mem opened.line, List.length_take, Nat.min_eq_left opened.fits] at front
    rw [front] at opening
    exact opened.line opening
  · exact lineFeed_not_mem_extent opened.unbroken single _ inner

end Opened

/-- The literal may have line ends in it. -/
def spansLines (tripleQuotes : Bool) : Bytes → Bool
  | [] => false
  | quote :: text => (ofFront tripleQuotes quote (quote :: text)).multiline

/-- How a literal is opened can be told from its own text. -/
theorem spansLines_take (tripleQuotes : Bool) (quote : UInt8) (bs : Bytes) :
    spansLines tripleQuotes
        ((quote :: bs).take ((ofFront tripleQuotes quote (quote :: bs)).length (quote :: bs))) =
      (ofFront tripleQuotes quote (quote :: bs)).multiline := by
  have opening : (ofFront tripleQuotes quote (quote :: bs)).openLength ≤
      (ofFront tripleQuotes quote (quote :: bs)).length (quote :: bs) := by
    unfold length
    dsimp only
    split <;> exact Nat.le_add_right _ _
  have positive := length_pos (ofFront tripleQuotes quote (quote :: bs)) (quote :: bs)
  generalize (ofFront tripleQuotes quote (quote :: bs)).length (quote :: bs) = count at opening positive
  cases count with
  | zero => cases positive
  | succ count =>
      have whole : quote :: bs.take count <+: quote :: bs := List.take_prefix (count + 1) (quote :: bs)
      have same : ofFront tripleQuotes quote (quote :: bs.take count) =
          ofFront tripleQuotes quote (quote :: bs) := by
        rw [ofFront, ofFront, Quoted.mk.injEq]
        refine ⟨rfl, ?_⟩
        rw [Bool.eq_iff_iff]
        simp only [Bool.and_eq_true_iff, List.isPrefixOf_iff_prefix]
        refine ⟨fun both => ⟨both.1, both.2.trans whole⟩, ?_⟩
        rintro ⟨allowed, front⟩
        have triple : (ofFront tripleQuotes quote (quote :: bs)).triple = true := by
          simp only [ofFront, Bool.and_eq_true_iff, List.isPrefixOf_iff_prefix]
          exact ⟨allowed, front⟩
        rw [openLength, if_pos triple] at opening
        refine ⟨allowed, List.prefix_of_prefix_length_le front whole ?_⟩
        have long := front.length_le
        simp only [List.length_cons, List.length_nil, List.length_take] at long ⊢
        omega
      rw [List.take_succ_cons, spansLines, same]

end Quoted

/-! ## Comments -/

/-- No carriage return, and no line feed but in front. -/
def Bytes.EndsUnbroken (text : Bytes) : Prop :=
  ∃ b rest, text = b :: rest ∧ b ≠ Byte.carriageReturn ∧ Unbroken rest

/-- A closing delimiter ends in the same place of both forms, with the line end it follows. -/
theorem Bytes.offsetOf?_withReturns {needle : Bytes} (shape : EndsUnbroken needle) (body : Bytes) :
    (offsetOf? needle (withReturns body)).map (· + needle.length) =
      (offsetOf? needle body).map fun offset =>
        (withReturns (body.take (offset + needle.length))).length := by
  obtain ⟨n, tail, rfl, noReturn, unbroken⟩ := shape
  have returned : (n == Byte.carriageReturn) = false := beq_eq_false_iff_ne.mpr noReturn
  induction body with
  | nil => rfl
  | cons b rest ih =>
      generalize needleEq : n :: tail = needle at ih ⊢
      have front (c : UInt8) : needle.isPrefixOf (c :: withReturns rest) = needle.isPrefixOf (c :: rest) := by
        rw [← needleEq, List.isPrefixOf_cons_cons, List.isPrefixOf_cons_cons, isPrefixOf_withReturns unbroken]
      have back (more : Bytes) : needle.isPrefixOf (Byte.carriageReturn :: more) = false := by
        rw [← needleEq, List.isPrefixOf_cons_cons, returned, Bool.false_and]
      cases here : needle.isPrefixOf (b :: rest) with
      | true =>
          obtain ⟨more, same⟩ := List.isPrefixOf_iff_prefix.mp here
          have text : (b :: rest).take (0 + needle.length) = b :: tail := by
            rw [Nat.zero_add, ← same, List.take_left, ← needleEq]
            rw [← needleEq] at same
            rw [(List.cons.inj same).1]
          rw [offsetOf?, if_pos here, Option.map_some, text]
          by_cases feed : b = Byte.lineFeed
          · subst feed
            rw [withReturns_lineFeed, offsetOf?, back, if_neg Bool.false_ne_true, offsetOf?, front, here,
              withReturns_lineFeed, withReturns_of_unbroken unbroken, ← needleEq]
            simp only [if_true, Option.map_some, List.length_cons, Option.some.injEq]
            omega
          · rw [withReturns_cons feed, offsetOf?, front, here, withReturns_cons feed,
              withReturns_of_unbroken unbroken, ← needleEq]
            simp only [if_true, Option.map_some, List.length_cons, Option.some.injEq]
            omega
      | false =>
          have onward : (offsetOf? needle (b :: rest)).map (fun offset =>
              (withReturns ((b :: rest).take (offset + needle.length))).length) =
              ((offsetOf? needle (withReturns rest)).map (· + needle.length)).map
                (· + (withReturns [b]).length) := by
            rw [offsetOf?, here, if_neg Bool.false_ne_true, ih, Option.map_map, Option.map_map]
            congr 1
            funext offset
            have text : (b :: rest).take (offset + 1 + needle.length) =
                [b] ++ rest.take (offset + needle.length) := by
              rw [Nat.add_right_comm, List.take_succ_cons]
              rfl
            simp only [Function.comp_apply, text, withReturns_append, List.length_append]
            omega
          rw [onward]
          by_cases feed : b = Byte.lineFeed
          · subst feed
            rw [withReturns_lineFeed, offsetOf?, back, if_neg Bool.false_ne_true, offsetOf?, front, here,
              if_neg Bool.false_ne_true]
            simp only [Option.map_map]
            congr 1
            funext offset
            change offset + 1 + 1 + needle.length = offset + needle.length + 2
            omega
          · rw [withReturns_cons feed, offsetOf?, front, here, if_neg Bool.false_ne_true,
              withReturns_cons feed]
            simp only [Option.map_map]
            congr 1
            funext offset
            change offset + 1 + needle.length = offset + needle.length + 1
            omega

namespace Comment

theorem takeWhile_withReturns (body : Bytes) :
    (withReturns body).takeWhile (!Byte.isLineBreak ·) = body.takeWhile (!Byte.isLineBreak ·) ∧
      Byte.lineFeed ∉ body.takeWhile (!Byte.isLineBreak ·) := by
  induction body with
  | nil => exact ⟨rfl, List.not_mem_nil⟩
  | cons b rest ih =>
      by_cases feed : b = Byte.lineFeed
      · subst feed
        exact ⟨rfl, List.not_mem_nil⟩
      · rw [Bytes.withReturns_cons feed, List.takeWhile_cons, List.takeWhile_cons]
        split
        · rw [ih.1, List.mem_cons, not_or]
          exact ⟨rfl, Ne.symm feed, ih.2⟩
        · exact ⟨rfl, List.not_mem_nil⟩

theorem lineLength_withReturns {mark : Delimiter} (unbroken : mark.bytes.Unbroken) {rest : Bytes}
    (opens : mark.opens rest = true) :
    lineLength mark (withReturns rest) = (withReturns (rest.take (lineLength mark rest))).length := by
  obtain ⟨body, rfl⟩ := List.isPrefixOf_iff_prefix.mp opens
  obtain ⟨same, line⟩ := takeWhile_withReturns body
  have front : body.take (body.takeWhile (!Byte.isLineBreak ·)).length =
      body.takeWhile (!Byte.isLineBreak ·) := (List.prefix_iff_eq_take.mp (List.takeWhile_prefix _)).symm
  unfold lineLength Delimiter.length
  rw [Bytes.withReturns_append, Bytes.withReturns_of_unbroken unbroken, List.drop_left, List.drop_left,
    same, List.take_length_add_append, front, Bytes.withReturns_append,
    Bytes.withReturns_of_unbroken unbroken, Bytes.withReturns_of_not_mem line, List.length_append]

theorem blockLength_withReturns {rule : BlockRule} (opening : rule.opening.bytes.Unbroken)
    (closing : rule.closing.bytes.EndsUnbroken) {rest : Bytes} (opens : rule.opening.opens rest = true) :
    blockLength rule (withReturns rest) = (withReturns (rest.take (blockLength rule rest))).length := by
  obtain ⟨body, rfl⟩ := List.isPrefixOf_iff_prefix.mp opens
  have ends := Bytes.offsetOf?_withReturns closing body
  unfold blockLength Delimiter.length
  dsimp only
  rw [Bytes.withReturns_append, Bytes.withReturns_of_unbroken opening, List.drop_left, List.drop_left]
  cases found : Bytes.offsetOf? rule.closing.bytes body with
  | none =>
      rw [found, Option.map_none, Option.map_eq_none_iff] at ends
      rw [ends]
      simp only [List.take_length_add_append, List.take_length, Bytes.withReturns_append, List.length_append,
        Bytes.withReturns_of_unbroken opening]
  | some offset =>
      rw [found, Option.map_some] at ends
      obtain ⟨later, again, same⟩ := Option.map_eq_some_iff.mp ends
      rw [again]
      simp only [Nat.add_assoc, List.take_length_add_append, Bytes.withReturns_append, List.length_append,
        Bytes.withReturns_of_unbroken opening, ← same]

end Comment

namespace Language

/-- No operator and no comment delimiter has a line break in it, but for the line feed that the
closing delimiter of a line start rule has to follow. -/
structure Unbroken (language : Language) : Prop where
  operators : ∀ operator ∈ language.operators, operator.bytes.Unbroken
  lineComments : ∀ mark ∈ language.lineComments, mark.bytes.Unbroken
  openings : ∀ rule ∈ language.blockComments, rule.opening.bytes.Unbroken
  closings : ∀ rule ∈ language.blockComments, rule.closing.bytes.EndsUnbroken

variable {language : Language}

theorem find?_withReturns {delimiters : List Delimiter}
    (unbroken : ∀ delimiter ∈ delimiters, delimiter.bytes.Unbroken) (rest : Bytes) :
    delimiters.find? (Delimiter.opens (withReturns rest)) = delimiters.find? (Delimiter.opens rest) := by
  apply List.find?_congr
  intro delimiter member
  exact Bytes.isPrefixOf_withReturns (unbroken delimiter member) rest

theorem Unbroken.blockComment?_withReturns (unbroken : language.Unbroken) (lineStart : Bool) (rest : Bytes) :
    language.blockComment? lineStart (withReturns rest) = language.blockComment? lineStart rest := by
  apply List.find?_congr
  intro rule member
  rw [Delimiter.opens, Delimiter.opens, Bytes.isPrefixOf_withReturns (unbroken.openings rule member)]

end Language

namespace Lexeme

variable {language : Language}

theorem comment?_withReturns (unbroken : language.Unbroken) (lineStart : Bool) (rest : Bytes) :
    comment? language lineStart (withReturns rest) =
      (comment? language lineStart rest).map fun lexeme =>
        ⟨lexeme.kind, (withReturns (rest.take lexeme.length)).length⟩ := by
  unfold comment?
  rw [unbroken.blockComment?_withReturns]
  cases block : language.blockComment? lineStart rest with
  | some rule =>
      unfold Language.blockComment? at block
      have member := List.mem_of_find?_eq_some block
      have allowed := List.find?_some block
      have opens := (Bool.and_eq_true_iff.mp allowed).2
      simp only [Option.map_some,
        Comment.blockLength_withReturns (unbroken.openings rule member) (unbroken.closings rule member) opens]
  | none =>
      rw [Language.lineComment?, Language.find?_withReturns unbroken.lineComments]
      change _ = ((language.lineComment? rest).map _).map _
      unfold Language.lineComment?
      cases line : language.lineComments.find? (Delimiter.opens rest) with
      | none => rfl
      | some mark =>
          have member := List.mem_of_find?_eq_some line
          simp only [Option.map_some,
            Comment.lineLength_withReturns (unbroken.lineComments mark member) (List.find?_some line)]

theorem isIdentContinue_lineBreak : isIdentContinue '\r' = false ∧ isIdentContinue '\n' = false := by
  decide +kernel

theorem isIdentStart_lineBreak : isIdentStart '\r' = false ∧ isIdentStart '\n' = false := by
  decide +kernel

theorem identifier_withReturns (rest : Bytes) :
    identifier language (withReturns rest) =
      ⟨(identifier language rest).kind, (withReturns (rest.take (identifier language rest).length)).length⟩ := by
  obtain ⟨returns, feeds⟩ := isIdentContinue_lineBreak
  have line := Utf8.lineFeed_not_mem_run feeds rest
  have run := Utf8.runLength_withReturns (returns.trans feeds.symm) rest
  have front := Bytes.take_withReturns rest (Utf8.runLength isIdentContinue rest)
  rw [← run, Bytes.withReturns_of_not_mem line] at front
  unfold identifier
  dsimp only
  rw [front, run]

theorem mark_withReturns (unbroken : language.Unbroken) {b : UInt8} (other : b ≠ Byte.lineFeed) (bs : Bytes) :
    mark language (withReturns (b :: bs)) =
      ⟨(mark language (b :: bs)).kind,
        (withReturns ((b :: bs).take (mark language (b :: bs)).length)).length⟩ := by
  unfold mark Language.operator?
  rw [Language.find?_withReturns unbroken.operators]
  cases found : language.operators.find? (Delimiter.opens (b :: bs)) with
  | none =>
      change _ = Lexeme.mk .punctuation (withReturns [b]).length
      rw [Bytes.withReturns_cons other]
      rfl
  | some operator =>
      have member := List.mem_of_find?_eq_some found
      have opens := List.find?_some found
      obtain ⟨more, text⟩ := List.isPrefixOf_iff_prefix.mp opens
      dsimp only
      rw [← text, Delimiter.length, List.take_left,
        Bytes.withReturns_of_unbroken (unbroken.operators operator member)]

/-- A lexeme of the one form is a lexeme of the other, unless it is a literal that has to stay on
one line and does not. -/
theorem first_withReturns (unbroken : language.Unbroken) {context : Context} {b c : UInt8} {bs cs : Bytes}
    (free : Byte.carriageReturn ∉ b :: bs) (form : withReturns (b :: bs) = c :: cs)
    (fine : (first language context b bs).kind = .string →
      Byte.lineFeed ∈ (b :: bs).take (first language context b bs).length →
        Quoted.spansLines language.tripleQuotes ((b :: bs).take (first language context b bs).length) = true) :
    first language context c cs =
      ⟨(first language context b bs).kind,
        (withReturns ((b :: bs).take (first language context b bs).length)).length⟩ := by
  have breaks : Unicode.isWhiteSpace '\r' = Unicode.isWhiteSpace '\n' := by decide
  have blanks := Utf8.startsWith_withReturns breaks (b :: bs)
  unfold first at fine ⊢
  dsimp only at fine ⊢
  rw [← form, blanks]
  cases blank : Utf8.startsWith Unicode.isWhiteSpace (b :: bs) with
  | true =>
      simp only [if_true]
      rw [Utf8.runLength_withReturns breaks]
  | false =>
      have other : b ≠ Byte.lineFeed := by
        rintro rfl
        rw [Utf8.startsWith, Utf8.decode?_ascii (by decide)] at blank
        exact absurd blank (by decide)
      have head : c = b := by
        rw [Bytes.withReturns_cons other] at form
        exact (List.cons.inj form).1.symm
      subst head
      simp only [blank, Bool.false_eq_true, if_false] at fine ⊢
      cases quote : language.isQuote c with
      | true =>
          have punctuation := language.quotes_punctuation c (List.contains_iff_mem.mp quote)
          have opened := Quoted.opened_ofFront punctuation language.tripleQuotes bs
          simp only [quote, if_true, Quoted.spansLines_take] at fine ⊢
          rw [Quoted.ofFront_withReturns (Byte.not_isLineBreak_of_isPunctuation punctuation),
            opened.length_withReturns free]
          by_cases feed : Byte.lineFeed ∈ (c :: bs).take
              ((Quoted.ofFront language.tripleQuotes c (c :: bs)).length (c :: bs))
          · exact .inl (fine trivial feed)
          · exact .inr feed
      | false =>
          simp only [Bool.false_eq_true, if_false]
          rw [comment?_withReturns unbroken]
          cases comment? language context.lineStart (c :: bs) with
          | some comment => rfl
          | none =>
              have letters := Utf8.startsWith_withReturns
                (isIdentStart_lineBreak.1.trans isIdentStart_lineBreak.2.symm) (c :: bs)
              simp only [Option.map_none]
              rw [Number.starts_withReturns, letters]
              split
              · obtain ⟨same, line⟩ := Number.length_withReturns (c :: bs)
                dsimp only
                rw [same, Bytes.withReturns_of_not_mem line, List.length_take,
                  Nat.min_eq_left (Number.length_cut (c :: bs)).fits]
              · split
                · exact identifier_withReturns (c :: bs)
                · split
                  · exact mark_withReturns unbroken other bs
                  · obtain ⟨same, line⟩ := Utf8.width_withReturns other bs
                    dsimp only
                    rw [same, Bytes.withReturns_of_not_mem line, List.length_take,
                      Nat.min_eq_left (Utf8.CleanCut.width (List.cons_ne_nil c bs)).fits]

/-- A literal that has to stay on one line is cut short in the form with carriage returns. -/
theorem first_withReturns_single {context : Context} {b c : UInt8} {bs cs : Bytes}
    (form : withReturns (b :: bs) = c :: cs) (string : (first language context b bs).kind = .string)
    (single : Quoted.spansLines language.tripleQuotes
      ((b :: bs).take (first language context b bs).length) = false) :
    Byte.lineFeed ∉ (c :: cs).take (first language context c cs).length := by
  have leads := first_leads language context b bs
  generalize first language context b bs = lexeme at leads string single
  cases leads with
  | literal visible quote =>
      have punctuation := language.quotes_punctuation b (List.contains_iff_mem.mp quote)
      have opened := Quoted.opened_ofFront punctuation language.tripleQuotes bs
      have unbroken := Byte.not_isLineBreak_of_isPunctuation punctuation
      have breaks : Unicode.isWhiteSpace '\r' = Unicode.isWhiteSpace '\n' := by decide
      have blanks := Utf8.startsWith_withReturns breaks (b :: bs)
      have head : c = b := by
        have other : b ≠ Byte.lineFeed := by
          rintro rfl
          exact absurd unbroken (by decide)
        rw [Bytes.withReturns_cons other] at form
        exact (List.cons.inj form).1.symm
      subst head
      rw [form, visible] at blanks
      rw [Quoted.spansLines_take] at single
      have again : first language context c cs = _ := (Leads.literal blanks quote).first_eq
      have inside := opened.lineFeed_not_mem_length single
      rw [← Quoted.ofFront_withReturns unbroken, form] at inside
      rw [again]
      exact inside
  | blank | number | plain => cases string
  | comment visible quote found =>
      rw [comment?_kind found] at string
      cases string
  | word =>
      rcases identifier_kind language (b :: bs) with kind | kind <;> rw [kind] at string <;> cases string
  | mark =>
      rcases mark_kind language (b :: bs) with kind | kind <;> rw [kind] at string <;> cases string

end Lexeme

/-! ## Descriptions without line breaks -/

/-- The text has no line feed and no carriage return. -/
def Text.Unbroken (text : String) : Prop :=
  ∀ c ∈ text.toList, c ≠ '\n' ∧ c ≠ '\r'

/-- No operator and no comment delimiter of the description has a line break in it. -/
structure Spec.Unbroken (spec : Spec) : Prop where
  operators : ∀ text ∈ spec.operators, Text.Unbroken text
  lineComments : ∀ text ∈ spec.lineComments, Text.Unbroken text
  openings : ∀ pair ∈ spec.blockComments, Text.Unbroken pair.opening
  closings : ∀ pair ∈ spec.blockComments, Text.Unbroken pair.closing

/-- The language of one description, or of several together, all of them of this sort. -/
inductive Language.CompiledFrom (sort : Spec → Prop) : Language → Prop
  | ofSpec (spec : Spec) (sorted : sort spec) : CompiledFrom sort (.ofSpec spec)
  | merged (name : String) (specs : List Spec) (sorted : ∀ spec ∈ specs, sort spec) :
      CompiledFrom sort (.merged name specs)

theorem Utf8.encode_unbroken {text : List Char} (unbroken : ∀ c ∈ text, c ≠ '\n' ∧ c ≠ '\r') :
    Bytes.Unbroken (encode text) := by
  intro b member
  obtain ⟨c, listed, inside⟩ := List.mem_flatMap.mp member
  rw [Bool.eq_false_iff]
  intro broken
  have code := (sequence_encodeChar c).toNat_of_mem inside (Byte.ascii_of_isLineBreak broken)
  rcases Byte.isLineBreak_iff.mp broken with rfl | rfl
  · exact (unbroken c listed).1 (Char.toNat_inj.mp code)
  · exact (unbroken c listed).2 (Char.toNat_inj.mp code)

theorem Delimiter.unbroken_ofString? {text : String} (unbroken : Text.Unbroken text) {delimiter : Delimiter}
    (spelled : ofString? text = some delimiter) : delimiter.bytes.Unbroken := by
  unfold ofString? at spelled
  split at spelled
  · cases spelled
  · rename_i c rest same
    cases spelled
    exact Utf8.encode_unbroken (same ▸ unbroken)

theorem Bytes.Unbroken.endsUnbroken {text : Bytes} (unbroken : Unbroken text) (nonempty : 0 < text.length) :
    EndsUnbroken text := by
  cases text with
  | nil => cases nonempty
  | cons b rest =>
      refine ⟨b, rest, rfl, ?_, fun c member => unbroken c (List.mem_cons_of_mem b member)⟩
      rintro rfl
      exact absurd (unbroken _ List.mem_cons_self) (by decide)

theorem BlockRule.unbroken_ofPair? {pair : BlockComment} (opening : Text.Unbroken pair.opening)
    (closing : Text.Unbroken pair.closing) {rule : BlockRule} (found : ofPair? pair = some rule) :
    rule.opening.bytes.Unbroken ∧ rule.closing.bytes.EndsUnbroken := by
  unfold ofPair? at found
  split at found
  · rename_i first last opens closes
    cases found
    refine ⟨Delimiter.unbroken_ofString? opening opens, ?_⟩
    dsimp only
    split
    · exact ⟨Byte.lineFeed, Utf8.encode pair.closing.toList, rfl, by decide, Utf8.encode_unbroken closing⟩
    · exact (Delimiter.unbroken_ofString? closing closes).endsUnbroken last.length_pos
  · cases found

namespace Language

theorem unbroken_operatorsOf {spec : Spec} (unbroken : spec.Unbroken) :
    ∀ operator ∈ operatorsOf spec, operator.bytes.Unbroken := by
  intro operator member
  obtain ⟨text, listed, spelled⟩ := List.mem_filterMap.mp (List.mem_filter.mp member).1
  exact Delimiter.unbroken_ofString? (unbroken.operators text listed) spelled

theorem CompiledFrom.unbroken {language : Language} (compiled : language.CompiledFrom Spec.Unbroken) :
    language.Unbroken := by
  cases compiled with
  | ofSpec spec unbroken =>
      have rules : ∀ rule ∈ (Language.ofSpec spec).blockComments,
          rule.opening.bytes.Unbroken ∧ rule.closing.bytes.EndsUnbroken := by
        intro rule member
        obtain ⟨pair, listed, found⟩ := List.mem_filterMap.mp (List.mem_mergeSort.mp member)
        exact BlockRule.unbroken_ofPair? (unbroken.openings pair listed) (unbroken.closings pair listed) found
      refine ⟨?_, ?_, fun rule member => (rules rule member).1, fun rule member => (rules rule member).2⟩
      · intro operator member
        exact unbroken_operatorsOf unbroken operator (Delimiter.mem_longestFirst.mp member)
      · intro mark member
        obtain ⟨text, listed, spelled⟩ := List.mem_filterMap.mp (Delimiter.mem_longestFirst.mp member)
        exact Delimiter.unbroken_ofString? (unbroken.lineComments text listed) spelled
  | merged name specs unbroken =>
      have spelled (c : Char) (rest : List Char) (plain : ∀ d ∈ c :: rest, d ≠ '\n' ∧ d ≠ '\r') :
          (Delimiter.ofText c rest).bytes.Unbroken := Utf8.encode_unbroken plain
      refine ⟨?_, ?_, ?_, ?_⟩
      · intro operator member
        obtain ⟨spec, listed, inside⟩ := List.mem_flatMap.mp (Delimiter.mem_longestFirst.mp member)
        exact unbroken_operatorsOf (unbroken spec listed) operator inside
      · intro mark member
        rcases List.mem_cons.mp member with rfl | last
        · exact spelled '/' ['/'] (by simp)
        · obtain rfl := List.mem_singleton.mp last
          exact spelled '#' [] (by simp)
      · intro rule member
        obtain rfl := List.mem_singleton.mp member
        exact spelled '/' ['*'] (by simp)
      · intro rule member
        obtain rfl := List.mem_singleton.mp member
        exact (spelled '*' ['/'] (by simp)).endsUnbroken (Delimiter.length_pos _)

end Language

/-! ## The tokens of both forms -/

def Piece.withoutReturns (piece : Piece) : Piece :=
  ⟨piece.kind, piece.text.withoutReturns⟩

theorem not_isExpressionKeyword_of_lineFeed {text : Bytes} (feed : Byte.lineFeed ∈ text) :
    isExpressionKeyword text = false := by
  have lines : expressionKeywords.all (fun keyword => !keyword.contains Byte.lineFeed) = true := by
    decide +kernel
  rw [Bool.eq_false_iff]
  intro keyword
  have line := List.all_eq_true.mp lines _ (List.contains_iff_mem.mp keyword)
  have lowered : Byte.lineFeed ∈ text.map Byte.lower := List.mem_map_of_mem (f := Byte.lower) feed
  rw [List.contains_iff_mem.mpr lowered] at line
  cases line

theorem isExpressionKeyword_withReturns (text : Bytes) :
    isExpressionKeyword (withReturns text) = isExpressionKeyword text := by
  by_cases feed : Byte.lineFeed ∈ text
  · have again : Byte.lineFeed ∈ withReturns text :=
      List.mem_flatMap.mpr ⟨Byte.lineFeed, feed, List.mem_cons_of_mem _ List.mem_cons_self⟩
    rw [not_isExpressionKeyword_of_lineFeed feed, not_isExpressionKeyword_of_lineFeed again]
  · rw [Bytes.withReturns_of_not_mem feed]

theorem Context.after_withReturns (context : Context) (kind : Kind) (text : Bytes) :
    context.after ⟨kind, withReturns text⟩ = context.after ⟨kind, text⟩ := by
  have operand : endsOperand kind (withReturns text) = endsOperand kind text := by
    cases kind with
    | keyword => rw [endsOperand, endsOperand, isExpressionKeyword_withReturns]
    | punctuation => rw [endsOperand, endsOperand, Bytes.getLast?_withReturns]
    | _ => rfl
  unfold after
  dsimp only
  rw [operand, Bytes.endsLine, Bytes.endsLine, Bytes.getLast?_withReturns]

/-- The pieces of both forms agree exactly if no literal that has to stay on one line goes on over
an escaped line end. -/
theorem pieces_withReturns_iff {language : Language} (unbroken : language.Unbroken) (context : Context)
    {text : Bytes} (free : Byte.carriageReturn ∉ text) :
    (pieces language context (withReturns text)).map Piece.withoutReturns = pieces language context text ↔
      ∀ piece ∈ pieces language context text, piece.kind = .string → Byte.lineFeed ∈ piece.text →
        Quoted.spansLines language.tripleQuotes piece.text = true := by
  fun_induction pieces language context text with
  | case1 context =>
      refine ⟨fun _ piece member => absurd member List.not_mem_nil, fun _ => ?_⟩
      rw [show withReturns [] = [] from rfl, pieces_nil]
      rfl
  | case2 context b bs lexeme piece ih =>
      obtain ⟨c, cs, form⟩ : ∃ c cs, withReturns (b :: bs) = c :: cs := by
        by_cases feed : b = Byte.lineFeed
        · exact ⟨_, _, by rw [feed]; exact Bytes.withReturns_lineFeed bs⟩
        · exact ⟨_, _, Bytes.withReturns_cons feed bs⟩
      have later : Byte.carriageReturn ∉ (b :: bs).drop lexeme.length :=
        fun member => free (List.mem_of_mem_drop member)
      have here : Byte.carriageReturn ∉ piece.text := fun member => free (List.mem_of_mem_take member)
      rw [List.forall_mem_cons, ← ih later]
      by_cases fine : piece.kind = .string → Byte.lineFeed ∈ piece.text →
          Quoted.spansLines language.tripleQuotes piece.text = true
      · have first := Lexeme.first_withReturns unbroken free form fine
        have front := Bytes.take_withReturns (b :: bs) lexeme.length
        have behind := Bytes.drop_withReturns (b :: bs) lexeme.length
        rw [form] at front behind ⊢
        have head : Piece.withoutReturns ⟨lexeme.kind, withReturns ((b :: bs).take lexeme.length)⟩ = piece :=
          congrArg (Piece.mk lexeme.kind) (Bytes.withoutReturns_withReturns here)
        rw [pieces_cons first, front, behind, Context.after_withReturns, List.map_cons, head, List.cons.injEq]
        exact and_congr_left fun _ => iff_of_true rfl fine
      · refine ⟨fun same => ?_, fun both => absurd both.1 fine⟩
        simp only [Classical.not_imp, Bool.not_eq_true] at fine
        obtain ⟨string, feed, single⟩ := fine
        have short := Lexeme.first_withReturns_single form string single
        rw [form, pieces, List.map_cons] at same
        have texts := congrArg Piece.text (List.cons.inj same).1
        rw [← texts] at feed
        exact absurd (List.mem_filter.mp feed).1 short

/-- The tokens of a source keep their kinds and, but for the carriage returns, their texts when every
line feed gets a carriage return in front of it, exactly if no string literal that has to stay on one
line goes on over an escaped line end. -/
theorem scan_withReturns_iff {language : Language} (compiled : language.CompiledFrom Spec.Unbroken)
    {source : Bytes} (free : Byte.carriageReturn ∉ source) :
    ((scan language source.withReturns).map (Piece.ofToken source.withReturns)).map Piece.withoutReturns =
        (scan language source).map (Piece.ofToken source) ↔
      ∀ token ∈ scan language source, token.kind = .string → Byte.lineFeed ∈ token.text source →
        Quoted.spansLines language.tripleQuotes (token.text source) = true := by
  rw [scan_pieces, scan_pieces, pieces_withReturns_iff compiled.unbroken _ free]
  rw [← scan_pieces, List.forall_mem_map]
  rfl

/-- A comment that closes at a line start, an open literal and a literal of two lines. -/
theorem scan_withReturns_iff_lines :
    ((scan (.ofSpec { name := "", blockComments := [⟨"=b", "=e", true⟩] })
        (Text.bytes "=b\n=e\n'a\n`\\\n`").withReturns).map
          (Piece.ofToken (Text.bytes "=b\n=e\n'a\n`\\\n`").withReturns)).map Piece.withoutReturns =
      (scan (.ofSpec { name := "", blockComments := [⟨"=b", "=e", true⟩] })
        (Text.bytes "=b\n=e\n'a\n`\\\n`")).map (Piece.ofToken (Text.bytes "=b\n=e\n'a\n`\\\n`")) := by
  have plain : Spec.Unbroken { name := "", blockComments := [⟨"=b", "=e", true⟩] } :=
    ⟨by simp, by simp, by simp [Text.Unbroken], by simp [Text.Unbroken]⟩
  exact (scan_withReturns_iff (.ofSpec _ plain) (by decide +kernel)).mpr (by decide +kernel)

/-- An escaped line feed stays in its literal. With a carriage return the escape takes only that, and
the literal ends between the backslash and the line end. -/
theorem scan_withReturns_escaped :
    scan (.ofSpec { name := "" }) (Text.bytes "'a\\\nb'") = [⟨.string, 0, 6⟩] ∧
      scan (.ofSpec { name := "" }) (Text.bytes "'a\\\nb'").withReturns =
        [⟨.string, 0, 3⟩, ⟨.whitespace, 3, 5⟩, ⟨.ident, 5, 6⟩, ⟨.string, 6, 7⟩] := by
  decide +kernel

end CodeTint
