import CodeTint.Proofs.Indexed

/-!
# Byte strings that start with no character

The bits of a lead say how many bytes follow it, and the bits of all of them
together are a code. `Shaped` is just that, so it holds of overlong sequences, of
surrogates and of codes that are too large as well; `Malformed` lists all that can
be wrong at the front of a byte string. The decoder gives the encoded character
wherever one stands, and fails exactly at the end and at what is malformed. Reading
by a table of lengths and a strict reader of whole texts comes to the same.
-/

namespace CodeTint

namespace Utf8

/-- The least code that takes a sequence of this length. -/
def leastCode : Nat → Nat
  | 2 => 0x80
  | 3 => 0x800
  | 4 => 0x10000
  | _ => 0

/-- How many bytes the bits of a lead announce, and 0 if they announce none. -/
def announced (lead : UInt8) : Nat :=
  if lead.toNat < 0x80 then 1
  else if lead.toNat < 0xC0 then 0
  else if lead.toNat < 0xE0 then 2
  else if lead.toNat < 0xF0 then 3
  else if lead.toNat < 0xF8 then 4
  else 0

/-- A lead with as many continuation bytes as it announces; their bits are those of the code. -/
inductive Shaped : Nat → Bytes → Prop
  | one (lead : UInt8) (led : announced lead = 1) : Shaped lead.toNat [lead]
  | two (lead b₁ : UInt8) (led : announced lead = 2) (first : isContinuation b₁ = true) :
      Shaped (lead.toNat % 32 * 64 + payload b₁) [lead, b₁]
  | three (lead b₁ b₂ : UInt8) (led : announced lead = 3) (first : isContinuation b₁ = true)
      (second : isContinuation b₂ = true) :
      Shaped ((lead.toNat % 16 * 64 + payload b₁) * 64 + payload b₂) [lead, b₁, b₂]
  | four (lead b₁ b₂ b₃ : UInt8) (led : announced lead = 4) (first : isContinuation b₁ = true)
      (second : isContinuation b₂ = true) (third : isContinuation b₃ = true) :
      Shaped (((lead.toNat % 8 * 64 + payload b₁) * 64 + payload b₂) * 64 + payload b₃) [lead, b₁, b₂, b₃]

/-- What keeps a byte string that is not empty from starting with a character. -/
inductive Malformed : Bytes → Prop
  | stray (b : UInt8) (continued : isContinuation b = true) (after : Bytes) : Malformed (b :: after)
  | unused (b : UInt8) (high : 0xF8 ≤ b.toNat) (after : Bytes) : Malformed (b :: after)
  | truncated (lead : UInt8) (tail after : Bytes) (continued : ∀ b ∈ tail, isContinuation b = true)
      (short : tail.length + 1 < announced lead) (cut : ∀ b ∈ after.head?, isContinuation b = false) :
      Malformed (lead :: tail ++ after)
  | overlong {code : Nat} {sequence : Bytes} (shaped : Shaped code sequence)
      (small : code < leastCode sequence.length) (after : Bytes) : Malformed (sequence ++ after)
  | surrogate {code : Nat} {sequence : Bytes} (shaped : Shaped code sequence)
      (half : 0xD800 ≤ code ∧ code ≤ 0xDFFF) (after : Bytes) : Malformed (sequence ++ after)
  | beyond {code : Nat} {sequence : Bytes} (shaped : Shaped code sequence)
      (large : 0x10FFFF < code) (after : Bytes) : Malformed (sequence ++ after)

/-! ## Sequences of the right shape -/

/-- Which leads announce which length. -/
theorem announced_iff (lead : UInt8) :
    (announced lead = 1 ↔ lead.toNat < 0x80) ∧
    (announced lead = 2 ↔ 0xC0 ≤ lead.toNat ∧ lead.toNat < 0xE0) ∧
    (announced lead = 3 ↔ 0xE0 ≤ lead.toNat ∧ lead.toNat < 0xF0) ∧
    (announced lead = 4 ↔ 0xF0 ≤ lead.toNat ∧ lead.toNat < 0xF8) := by
  grind [announced]

/-- The table of lengths leaves out the leads that announce only overlong or too large codes. -/
theorem sequenceLength_eq_announced (lead : UInt8) :
    sequenceLength lead =
      if lead.toNat = 0xC0 ∨ lead.toNat = 0xC1 ∨ 0xF5 ≤ lead.toNat then 0 else announced lead := by
  grind [sequenceLength_eq, announced]

theorem scalar?_eq_none {least code : Nat} (outside : code < least ∨ ¬code.isValidChar) :
    scalar? least code = none := by
  unfold scalar?
  rw [if_neg]
  rintro ⟨long, valid⟩
  rcases outside with small | invalid
  · exact Nat.not_le_of_gt small long
  · exact invalid valid

/-- The decoder reads a sequence of the right shape if its code is that of a character and takes
so many bytes. -/
theorem decode?_shaped_append {code : Nat} {sequence : Bytes} (shaped : Shaped code sequence) (after : Bytes) :
    decode? (sequence ++ after) = (scalar? (leastCode sequence.length) code).map (·, sequence.length) := by
  cases shaped with
  | one lead led =>
      have ascii := (announced_iff lead).1.mp led
      have valid : lead.toNat.isValidChar := Or.inl (by omega)
      have found : scalar? 0 lead.toNat = some (Char.ofNat lead.toNat) := if_pos ⟨Nat.zero_le _, valid⟩
      exact (decode?_ascii ascii after).trans (congrArg (Option.map (·, 1)) found).symm
  | two lead b₁ led first =>
      have bound := payload_lt b₁
      have range := (announced_iff lead).2.1.mp led
      by_cases used : 0xC2 ≤ lead.toNat
      · have length := (sequenceLength_iff lead).2.1.mpr ⟨used, range.2⟩
        simp [decode?, length, first, leastCode]
      · have length : sequenceLength lead = 0 := by
          rw [sequenceLength_eq_announced, if_pos (by omega)]
        have small : scalar? 0x80 (lead.toNat % 32 * 64 + payload b₁) = none := scalar?_eq_none (.inl (by omega))
        simp [decode?, length, leastCode, small]
  | three lead b₁ b₂ led first second =>
      have length := (sequenceLength_iff lead).2.2.1.mpr ((announced_iff lead).2.2.1.mp led)
      simp [decode?, length, first, second, leastCode]
  | four lead b₁ b₂ b₃ led first second third =>
      have range := (announced_iff lead).2.2.2.mp led
      by_cases used : lead.toNat < 0xF5
      · have length := (sequenceLength_iff lead).2.2.2.mpr ⟨range.1, used⟩
        simp [decode?, length, first, second, third, leastCode]
      · have length : sequenceLength lead = 0 := by
          rw [sequenceLength_eq_announced, if_pos (by omega)]
        have large : scalar? 0x10000
            (((lead.toNat % 8 * 64 + payload b₁) * 64 + payload b₂) * 64 + payload b₃) = none := by
          refine scalar?_eq_none (.inr ?_)
          unfold Nat.isValidChar
          omega
        simp [decode?, length, leastCode, large]

theorem announced_cases (lead : UInt8) :
    announced lead = 1 ∨ announced lead = 2 ∨ announced lead = 3 ∨ announced lead = 4 ∨
      isContinuation lead = true ∨ 0xF8 ≤ lead.toNat := by
  obtain ⟨one, two, three, four⟩ := announced_iff lead
  rw [one, two, three, four, isContinuation_iff]
  omega

/-- A lead in front of enough continuation bytes, or one that is none. -/
theorem shaped_or_malformed {lead : UInt8} {tail : Bytes} (continued : ∀ b ∈ tail, isContinuation b = true)
    (enough : announced lead ≤ tail.length + 1) (after : Bytes) :
    (∃ code sequence rest, Shaped code sequence ∧ lead :: tail ++ after = sequence ++ rest) ∨
      Malformed (lead :: tail ++ after) := by
  rcases announced_cases lead with one | two | three | four | stray | unused
  · exact .inl ⟨_, [lead], tail ++ after, .one lead one, rfl⟩
  · obtain ⟨b₁, tail, rfl⟩ := List.exists_cons_of_length_pos (l := tail) (by omega)
    rw [List.forall_mem_cons] at continued
    exact .inl ⟨_, [lead, b₁], tail ++ after, .two lead b₁ two continued.1, rfl⟩
  · obtain ⟨b₁, tail, rfl⟩ := List.exists_cons_of_length_pos (l := tail) (by omega)
    rw [List.length_cons] at enough
    obtain ⟨b₂, tail, rfl⟩ := List.exists_cons_of_length_pos (l := tail) (by omega)
    rw [List.forall_mem_cons, List.forall_mem_cons] at continued
    exact .inl ⟨_, [lead, b₁, b₂], tail ++ after, .three lead b₁ b₂ three continued.1 continued.2.1, rfl⟩
  · obtain ⟨b₁, tail, rfl⟩ := List.exists_cons_of_length_pos (l := tail) (by omega)
    rw [List.length_cons] at enough
    obtain ⟨b₂, tail, rfl⟩ := List.exists_cons_of_length_pos (l := tail) (by omega)
    rw [List.length_cons] at enough
    obtain ⟨b₃, tail, rfl⟩ := List.exists_cons_of_length_pos (l := tail) (by omega)
    rw [List.forall_mem_cons, List.forall_mem_cons, List.forall_mem_cons] at continued
    exact .inl ⟨_, [lead, b₁, b₂, b₃], tail ++ after,
      .four lead b₁ b₂ b₃ four continued.1 continued.2.1 continued.2.2.1, rfl⟩
  · exact .inr (.stray lead stray (tail ++ after))
  · exact .inr (.unused lead unused (tail ++ after))

/-! ## What is malformed -/

/-- A sequence has as many bytes as its lead announces. -/
theorem Sequence.length_eq {c : Char} {lead : UInt8} {tail : Bytes} (shape : Sequence c (lead :: tail)) :
    (lead :: tail).length = sequenceLength lead ∧ sequenceLength lead = announced lead := by
  obtain ⟨one, two, three, four⟩ := sequenceLength_iff lead
  obtain ⟨one', two', three', four'⟩ := announced_iff lead
  cases shape with
  | one _ led code => exact ⟨(one.mpr led).symm, by rw [one.mpr led, one'.mpr led]⟩
  | two _ b₁ led => exact ⟨(two.mpr led).symm, by rw [two.mpr led, two'.mpr (by omega)]⟩
  | three _ b₁ b₂ led => exact ⟨(three.mpr led).symm, by rw [three.mpr led, three'.mpr led]⟩
  | four _ b₁ b₂ b₃ led => exact ⟨(four.mpr led).symm, by rw [four.mpr led, four'.mpr (by omega)]⟩

/-- The table of lengths gives the width of every character that is read. -/
theorem width_of_decode? {lead : UInt8} {rest : Bytes} {c : Char} {width : Nat}
    (found : decode? (lead :: rest) = some (c, width)) :
    width = sequenceLength lead ∧ sequenceLength lead = announced lead := by
  obtain ⟨sequence, after, same, shape, rfl⟩ := sequence_of_decode? found
  obtain ⟨first, tail, rfl, _⟩ := shape.lead_tail
  rw [List.cons_append, List.cons.injEq] at same
  rw [same.1]
  exact shape.length_eq

/-- A character that would be cut off is not read. -/
theorem decode?_truncated {lead : UInt8} {tail after : Bytes} (short : tail.length + 1 < announced lead)
    (cut : ∀ b ∈ after.head?, isContinuation b = false) : decode? (lead :: tail ++ after) = none := by
  cases found : decode? (lead :: tail ++ after) with
  | none => rfl
  | some entry =>
      obtain ⟨c, width⟩ := entry
      obtain ⟨promised, announces⟩ := width_of_decode? found
      have behind : tail.length + 1 < width := by rw [promised, announces]; exact short
      obtain ⟨b, here, continued⟩ := isContinuation_of_decode? found (Nat.succ_pos tail.length) behind
      rw [List.cons_append, List.getElem?_cons_succ, List.getElem?_append_right (Nat.le_refl _), Nat.sub_self,
        ← List.head?_eq_getElem?] at here
      rw [cut b here] at continued
      cases continued

theorem decode?_of_malformed {bytes : Bytes} (malformed : Malformed bytes) : decode? bytes = none := by
  cases malformed with
  | stray b continued after => exact decode?_continuation continued after
  | unused b high after =>
      have length : sequenceLength b = 0 := by
        rw [sequenceLength_eq_announced, if_pos (by omega)]
      simp [decode?, length]
  | truncated lead tail after continued short cut => exact decode?_truncated short cut
  | overlong shaped small after =>
      rw [decode?_shaped_append shaped, scalar?_eq_none (.inl small), Option.map_none]
  | surrogate shaped half after =>
      rw [decode?_shaped_append shaped, scalar?_eq_none (.inr (by unfold Nat.isValidChar; omega)), Option.map_none]
  | beyond shaped large after =>
      rw [decode?_shaped_append shaped, scalar?_eq_none (.inr (by unfold Nat.isValidChar; omega)), Option.map_none]

theorem malformed_of_shaped {code : Nat} {sequence after : Bytes} (shaped : Shaped code sequence)
    (absent : decode? (sequence ++ after) = none) : Malformed (sequence ++ after) := by
  rw [decode?_shaped_append shaped, Option.map_eq_none_iff] at absent
  by_cases small : code < leastCode sequence.length
  · exact .overlong shaped small after
  · by_cases half : 0xD800 ≤ code ∧ code ≤ 0xDFFF
    · exact .surrogate shaped half after
    · by_cases large : 0x10FFFF < code
      · exact .beyond shaped large after
      · have valid : code.isValidChar := by
          unfold Nat.isValidChar
          omega
        rw [scalar?, if_pos ⟨Nat.le_of_not_lt small, valid⟩] at absent
        cases absent

/-- The decoder fails exactly at the end and at what is malformed. -/
theorem decode?_eq_none_iff (bytes : Bytes) : decode? bytes = none ↔ bytes = [] ∨ Malformed bytes := by
  constructor
  · intro absent
    cases bytes with
    | nil => exact .inl rfl
    | cons lead rest =>
        right
        -- What follows the lead is cut behind its continuation bytes.
        have split := List.takeWhile_append_dropWhile (p := isContinuation) (l := rest)
        have continued : ∀ b ∈ rest.takeWhile isContinuation, isContinuation b = true := fun b member =>
          List.mem_takeWhile_imp member
        have cut : ∀ b ∈ (rest.dropWhile isContinuation).head?, isContinuation b = false := fun b first =>
          stopped_of_dropWhile isContinuation rest first
        rw [← split, ← List.cons_append] at absent ⊢
        by_cases short : (rest.takeWhile isContinuation).length + 1 < announced lead
        · exact .truncated lead _ _ continued short cut
        · rcases shaped_or_malformed continued (Nat.le_of_not_lt short) (rest.dropWhile isContinuation) with
            ⟨code, sequence, after, shaped, same⟩ | malformed
          · rw [same] at absent ⊢
            exact malformed_of_shaped shaped absent
          · exact malformed
  · rintro (rfl | malformed)
    · rfl
    · exact decode?_of_malformed malformed

/-- The reader accepts the bytes of every text, with that text, and nothing else. -/
def StrictReader (read : Bytes → Option (List Char)) : Prop :=
  ∀ bytes text, read bytes = some text ↔ bytes = encode text

theorem strictReader_decodeAll? : StrictReader decodeAll? := by
  intro bytes text
  constructor
  · exact encode_of_decodeAll?
  · rintro rfl
    exact decodeAll?_encode text

end Utf8

/-! ## By a table of lengths and a strict reader -/

namespace Indexed

open Utf8

/-- The character at an offset: the lead says how long a slice to take, and the first character of the
text of the slice is the answer. -/
def character? (read : Bytes → Option (List Char)) (source : Bytes) (offset : Nat) : Option (Char × Nat) := do
  let lead ← source[offset]?
  if sequenceLength lead = 0 then none
  else
    let slice ← slice? source offset (offset + sequenceLength lead)
    let text ← read slice
    text.head?.map fun c => (c, sequenceLength lead)

variable {read : Bytes → Option (List Char)} {source : Bytes} {offset : Nat} {lead : UInt8}

theorem character?_of_lead (here : source[offset]? = some lead) (opens : sequenceLength lead ≠ 0) :
    character? read source offset =
      (slice? source offset (offset + sequenceLength lead)).bind fun slice =>
        (read slice).bind fun text => text.head?.map fun c => (c, sequenceLength lead) := by
  rw [character?, here]
  exact if_neg opens

theorem character?_of_decode? (strict : StrictReader read) {c : Char} {width : Nat}
    (here : source[offset]? = some lead) (found : decode? (source.drop offset) = some (c, width)) :
    character? read source offset = some (c, width) := by
  have bound := decode?_width found
  have spelled := take_of_decode? found
  rw [List.length_drop] at bound
  rw [drop_of_getElem? here] at found
  obtain ⟨rfl, _⟩ := width_of_decode? found
  have accepted : read ((source.drop offset).take (sequenceLength lead)) = some [c] := by
    rw [strict, spelled, encode_singleton]
  rw [character?_of_lead here (Nat.ne_of_gt bound.1), slice?_of_le (Nat.le_add_right _ _) (by omega),
    Option.bind_some, Nat.add_sub_cancel_left, accepted, Option.bind_some, List.head?_cons, Option.map_some]

/-- A slice that is a text starts with the character that the decoder finds. -/
theorem decode?_of_slice (strict : StrictReader read) {width : Nat} {slice : Bytes} {text : List Char}
    (positive : 0 < width) (cut : slice? source offset (offset + width) = some slice)
    (accepted : read slice = some text) : ∃ entry, decode? (source.drop offset) = some entry := by
  unfold slice? at cut
  split at cut
  · rename_i fits
    cases cut
    rw [Nat.add_sub_cancel_left, strict] at accepted
    cases text with
    | nil =>
        have empty := congrArg List.length accepted
        rw [List.length_take, List.length_drop] at empty
        change _ = 0 at empty
        omega
    | cons c text =>
        rw [← List.take_append_drop width (source.drop offset), accepted, encode_cons, List.append_assoc]
        exact ⟨_, decode?_encodeChar_append c _⟩
  · cases cut

theorem character?_eq (strict : StrictReader read) (source : Bytes) (offset : Nat) :
    character? read source offset = decode? (source.drop offset) := by
  cases here : source[offset]? with
  | none =>
      rw [List.drop_eq_nil_of_le (List.getElem?_eq_none_iff.mp here), character?, here]
      rfl
  | some lead =>
      cases found : decode? (source.drop offset) with
      | some entry => exact character?_of_decode? strict here found
      | none =>
          refine Option.eq_none_iff_forall_ne_some.mpr fun entry answer => ?_
          by_cases opens : sequenceLength lead = 0
          · rw [character?, here] at answer
            change (if sequenceLength lead = 0 then none else _) = some entry at answer
            rw [if_pos opens] at answer
            cases answer
          · rw [character?_of_lead here opens] at answer
            obtain ⟨slice, cut, answer⟩ := Option.bind_eq_some_iff.mp answer
            obtain ⟨text, accepted, _⟩ := Option.bind_eq_some_iff.mp answer
            obtain ⟨other, same⟩ := decode?_of_slice strict (Nat.pos_of_ne_zero opens) cut accepted
            rw [found] at same
            cases same

end Indexed

namespace Utf8

/-- In any surroundings the decoder reads the bytes of a character as that character, and what it reads
as a character are its bytes. It reads nothing exactly at the end and where a byte is stray or unused,
where a sequence is cut off, and where it is overlong, a surrogate or beyond the last code. A table of
lengths with a strict reader of the slices reads the same. -/
theorem decode_inverts_encoding :
    (∀ (before after : Bytes) (c : Char),
      decode? ((before ++ String.utf8EncodeChar c ++ after).drop before.length) =
        some (c, (String.utf8EncodeChar c).length)) ∧
      (∀ (bytes : Bytes) (position : Nat) (c : Char) (width : Nat),
        decode? (bytes.drop position) = some (c, width) →
          position + width ≤ bytes.length ∧ (bytes.drop position).take width = String.utf8EncodeChar c) ∧
      (∀ (bytes : Bytes) (position : Nat),
        decode? (bytes.drop position) = none ↔ bytes.length ≤ position ∨ Malformed (bytes.drop position)) ∧
      ∀ read, StrictReader read → ∀ (bytes : Bytes) (position : Nat),
        Indexed.character? read bytes position = decode? (bytes.drop position) := by
  refine ⟨?_, ?_, ?_, fun read strict => Indexed.character?_eq strict⟩
  · intro before after c
    rw [List.append_assoc, List.drop_left]
    exact decode?_encodeChar_append c after
  · intro bytes position c width found
    have bound := decode?_width found
    rw [List.length_drop] at bound
    exact ⟨by omega, take_of_decode? found⟩
  · intro bytes position
    rw [decode?_eq_none_iff, List.drop_eq_nil_iff]

/-- A euro sign between a letter and one that lacks its last byte; then a slash in two bytes, a surrogate
and a code that is too large. -/
theorem decode_inverts_encoding_mixed :
    decode? (List.drop 1 [0x61, 0xE2, 0x82, 0xAC, 0xE2, 0x82, 0x41]) = some ('\u20AC', 3) ∧
      1 + 3 ≤ List.length [0x61, 0xE2, 0x82, 0xAC, 0xE2, 0x82, (0x41 : UInt8)] ∧
      List.take 3 (List.drop 1 [0x61, 0xE2, 0x82, 0xAC, 0xE2, 0x82, 0x41]) = String.utf8EncodeChar '\u20AC' ∧
      decode? (List.drop 4 [0x61, 0xE2, 0x82, 0xAC, 0xE2, 0x82, 0x41]) = none ∧
      Malformed (List.drop 4 [0x61, 0xE2, 0x82, 0xAC, 0xE2, 0x82, 0x41]) ∧
      Malformed [0xC0, 0xAF] ∧ Malformed [0xED, 0xA0, 0x80] ∧ Malformed [0xF4, 0x90, 0x80, 0x80] ∧
      StrictReader decodeAll? ∧
      Indexed.character? decodeAll? [0x61, 0xE2, 0x82, 0xAC, 0xE2, 0x82, 0x41] 1 = some ('\u20AC', 3) := by
  obtain ⟨_, spells, fails, agrees⟩ := decode_inverts_encoding
  have found : decode? (List.drop 1 [0x61, 0xE2, 0x82, 0xAC, 0xE2, 0x82, 0x41]) = some ('\u20AC', 3) := by decide
  have cut : decode? (List.drop 4 [0x61, 0xE2, 0x82, 0xAC, 0xE2, 0x82, 0x41]) = none := by decide
  obtain ⟨fits, spelled⟩ := spells [0x61, 0xE2, 0x82, 0xAC, 0xE2, 0x82, 0x41] 1 _ _ found
  refine ⟨found, fits, spelled, cut, ((fails _ 4).mp cut).resolve_left (by decide),
    ((fails [0xC0, 0xAF] 0).mp (by decide)).resolve_left (by decide),
    ((fails [0xED, 0xA0, 0x80] 0).mp (by decide)).resolve_left (by decide),
    ((fails [0xF4, 0x90, 0x80, 0x80] 0).mp (by decide)).resolve_left (by decide), strictReader_decodeAll?, ?_⟩
  exact (agrees decodeAll? strictReader_decodeAll? _ 1).trans found

end Utf8

end CodeTint
