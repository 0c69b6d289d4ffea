import CodeTint.Utf8

/-!
# Where characters lie in a byte string

`Sequence` spells out the byte sequences of a character, one constructor for
each number of bytes. The decoder accepts exactly these and the encoder writes
them, so a text may be cut wherever no sequence is left open: `KeepsWhole` says
that of a cut, and `AsciiEdge` is the case that needs no look at the bytes
before it.
-/

namespace CodeTint.Utf8

theorem sequenceLength_eq (lead : UInt8) :
    sequenceLength lead =
      if lead.toNat < 0x80 then 1
      else if lead.toNat < 0xC2 then 0
      else if lead.toNat < 0xE0 then 2
      else if lead.toNat < 0xF0 then 3
      else if lead.toNat < 0xF5 then 4
      else 0 := rfl

/-- Which leads open a sequence of which length. -/
theorem sequenceLength_iff (lead : UInt8) :
    (sequenceLength lead = 1 ↔ lead.toNat < 0x80) ∧
    (sequenceLength lead = 2 ↔ 0xC2 ≤ lead.toNat ∧ lead.toNat < 0xE0) ∧
    (sequenceLength lead = 3 ↔ 0xE0 ≤ lead.toNat ∧ lead.toNat < 0xF0) ∧
    (sequenceLength lead = 4 ↔ 0xF0 ≤ lead.toNat ∧ lead.toNat < 0xF5) := by
  grind [sequenceLength_eq]

theorem isContinuation_iff (b : UInt8) :
    isContinuation b = true ↔ 0x80 ≤ b.toNat ∧ b.toNat < 0xC0 := by
  simp [isContinuation, UInt8.le_iff_toNat_le, UInt8.lt_iff_toNat_lt]

/-- The first element that a run leaves is not a member of its class. -/
theorem stopped_of_dropWhile {α : Type} (isMember : α → Bool) (text : List α) {c : α}
    (first : (text.dropWhile isMember).head? = some c) : isMember c = false := by
  have stopped := List.head?_dropWhile_not isMember text
  rw [first] at stopped
  exact stopped

theorem scalar?_toNat {least : Nat} {c : Char} (long : least ≤ c.toNat) :
    scalar? least c.toNat = some c := by
  unfold scalar?
  rw [if_pos ⟨long, c.valid⟩, Char.ofNat_toNat]

theorem toNat_of_scalar? {least code : Nat} {c : Char} (found : scalar? least code = some c) :
    c.toNat = code ∧ least ≤ code := by
  unfold scalar? at found
  split at found
  · rename_i fits
    cases found
    refine ⟨?_, fits.1⟩
    unfold Char.ofNat
    rw [dif_pos fits.2]
    rfl
  · cases found

/-- The bytes are the shortest sequence that spells the character. -/
inductive Sequence (c : Char) : Bytes → Prop
  | one (lead : UInt8) (led : lead.toNat < 0x80) (code : c.toNat = lead.toNat) : Sequence c [lead]
  | two (lead b₁ : UInt8) (led : 0xC2 ≤ lead.toNat ∧ lead.toNat < 0xE0)
      (first : isContinuation b₁ = true)
      (code : c.toNat = lead.toNat % 32 * 64 + payload b₁) (long : 0x80 ≤ c.toNat) :
      Sequence c [lead, b₁]
  | three (lead b₁ b₂ : UInt8) (led : 0xE0 ≤ lead.toNat ∧ lead.toNat < 0xF0)
      (first : isContinuation b₁ = true) (second : isContinuation b₂ = true)
      (code : c.toNat = (lead.toNat % 16 * 64 + payload b₁) * 64 + payload b₂)
      (long : 0x800 ≤ c.toNat) : Sequence c [lead, b₁, b₂]
  | four (lead b₁ b₂ b₃ : UInt8) (led : 0xF0 ≤ lead.toNat ∧ lead.toNat < 0xF5)
      (first : isContinuation b₁ = true) (second : isContinuation b₂ = true)
      (third : isContinuation b₃ = true)
      (code : c.toNat =
        ((lead.toNat % 8 * 64 + payload b₁) * 64 + payload b₂) * 64 + payload b₃)
      (long : 0x10000 ≤ c.toNat) : Sequence c [lead, b₁, b₂, b₃]

/-- A lead is no continuation byte, and every byte after it is one. -/
theorem Sequence.lead_tail {c : Char} {sequence : Bytes} (shape : Sequence c sequence) :
    ∃ lead tail, sequence = lead :: tail ∧ isContinuation lead = false ∧
      (∀ b ∈ tail, isContinuation b = true) ∧ (lead.toNat < 0x80 → tail = []) := by
  have open_lead {lead : UInt8} (led : lead.toNat < 0x80 ∨ 0xC0 ≤ lead.toNat) :
      isContinuation lead = false := by
    rw [Bool.eq_false_iff, ne_eq, isContinuation_iff]
    omega
  cases shape with
  | one lead led code =>
      exact ⟨lead, [], rfl, open_lead (.inl led), by simp, fun _ => rfl⟩
  | two lead b₁ led first code long =>
      exact ⟨lead, [b₁], rfl, open_lead (by omega), by simp [first], by omega⟩
  | three lead b₁ b₂ led first second code long =>
      exact ⟨lead, [b₁, b₂], rfl, open_lead (by omega), by simp [first, second], by omega⟩
  | four lead b₁ b₂ b₃ led first second third code long =>
      exact ⟨lead, [b₁, b₂, b₃], rfl, open_lead (by omega), by simp [first, second, third],
        by omega⟩

/-! ## The decoder reads sequences -/

/-- An ASCII byte of a sequence is the code of its character. -/
theorem Sequence.toNat_of_mem {c : Char} {sequence : Bytes} (shape : Sequence c sequence) {b : UInt8}
    (member : b ∈ sequence) (ascii : b.toNat < 0x80) : c.toNat = b.toNat := by
  obtain ⟨lead, tail, rfl, _, continued, alone⟩ := shape.lead_tail
  rcases List.mem_cons.mp member with rfl | behind
  · obtain rfl := alone ascii
    cases shape with
    | one _ _ code => exact code
  · have large := ((isContinuation_iff b).mp (continued b behind)).1
    omega

theorem decode?_sequence_append {c : Char} {sequence : Bytes} (shape : Sequence c sequence)
    (rest : Bytes) : decode? (sequence ++ rest) = some (c, sequence.length) := by
  cases shape with
  | one lead led code =>
      have length := (sequenceLength_iff lead).1.mpr led
      simp [decode?, length, ← code]
  | two lead b₁ led first code long =>
      have length := (sequenceLength_iff lead).2.1.mpr led
      simp [decode?, length, first, ← code, scalar?_toNat long]
  | three lead b₁ b₂ led first second code long =>
      have length := (sequenceLength_iff lead).2.2.1.mpr led
      simp [decode?, length, first, second, ← code, scalar?_toNat long]
  | four lead b₁ b₂ b₃ led first second third code long =>
      have length := (sequenceLength_iff lead).2.2.2.mpr led
      simp [decode?, length, first, second, third, ← code, scalar?_toNat long]

/-- What the decoder finds at the front of a text is a sequence. -/
theorem sequence_of_decode? {bytes : Bytes} {c : Char} {width : Nat}
    (found : decode? bytes = some (c, width)) :
    ∃ sequence rest, bytes = sequence ++ rest ∧ Sequence c sequence ∧ width = sequence.length := by
  unfold decode? at found
  split at found
  · cases found
  · rename_i lead rest
    obtain ⟨one, two, three, four⟩ := sequenceLength_iff lead
    split at found
    · rename_i length
      have led := one.mp length
      have valid : lead.toNat.isValidChar := Or.inl (by omega)
      cases found
      exact ⟨[lead], _, rfl, .one lead led (toNat_of_scalar? (if_pos ⟨Nat.zero_le _, valid⟩)).1, rfl⟩
    · rename_i b₁ rest length
      split at found
      · rename_i first
        obtain ⟨d, scalar, same⟩ := Option.map_eq_some_iff.mp found
        cases same
        obtain ⟨code, long⟩ := toNat_of_scalar? scalar
        exact ⟨[lead, b₁], rest, rfl, .two lead b₁ (two.mp length) first code (code ▸ long), rfl⟩
      · cases found
    · rename_i b₁ b₂ rest length
      split at found
      · rename_i continued
        obtain ⟨first, second⟩ := Bool.and_eq_true_iff.mp continued
        obtain ⟨d, scalar, same⟩ := Option.map_eq_some_iff.mp found
        cases same
        obtain ⟨code, long⟩ := toNat_of_scalar? scalar
        exact ⟨[lead, b₁, b₂], rest, rfl,
          .three lead b₁ b₂ (three.mp length) first second code (code ▸ long), rfl⟩
      · cases found
    · rename_i b₁ b₂ b₃ rest length
      split at found
      · rename_i continued
        obtain ⟨both, third⟩ := Bool.and_eq_true_iff.mp continued
        obtain ⟨first, second⟩ := Bool.and_eq_true_iff.mp both
        obtain ⟨d, scalar, same⟩ := Option.map_eq_some_iff.mp found
        cases same
        obtain ⟨code, long⟩ := toNat_of_scalar? scalar
        exact ⟨[lead, b₁, b₂, b₃], rest, rfl,
          .four lead b₁ b₂ b₃ (four.mp length) first second third code (code ▸ long), rfl⟩
      · cases found
    · cases found

/-- What follows a character does not matter for reading it. -/
theorem decode?_append {bytes : Bytes} {c : Char} {width : Nat}
    (found : decode? bytes = some (c, width)) (more : Bytes) :
    decode? (bytes ++ more) = some (c, width) := by
  obtain ⟨sequence, rest, rfl, shape, rfl⟩ := sequence_of_decode? found
  rw [List.append_assoc]
  exact decode?_sequence_append shape (rest ++ more)

/-- The bytes of a character after its first are continuation bytes. -/
theorem isContinuation_of_decode? {bytes : Bytes} {c : Char} {width offset : Nat}
    (found : decode? bytes = some (c, width)) (inside : 0 < offset) (short : offset < width) :
    ∃ b, bytes[offset]? = some b ∧ isContinuation b = true := by
  obtain ⟨sequence, rest, rfl, shape, rfl⟩ := sequence_of_decode? found
  obtain ⟨lead, tail, rfl, _, continued, _⟩ := shape.lead_tail
  obtain ⟨before, rfl⟩ := Nat.exists_eq_add_one_of_ne_zero (Nat.ne_of_gt inside)
  have bound : before < tail.length := Nat.lt_of_succ_lt_succ short
  refine ⟨tail[before], ?_, continued _ (List.getElem_mem bound)⟩
  rw [List.cons_append, List.getElem?_cons_succ, List.getElem?_append_left bound,
    List.getElem?_eq_getElem bound]

theorem decode?_ascii {b : UInt8} (ascii : b.toNat < 0x80) (rest : Bytes) :
    decode? (b :: rest) = some (Char.ofNat b.toNat, 1) := by
  simp [decode?, (sequenceLength_iff b).1.mpr ascii]

/-- A byte that is not ASCII starts no ASCII character. -/
theorem toNat_of_decode? {b : UInt8} {rest : Bytes} {c : Char} {width : Nat} (high : 0x80 ≤ b.toNat)
    (found : decode? (b :: rest) = some (c, width)) : 0x80 ≤ c.toNat := by
  obtain ⟨sequence, more, same, shape, _⟩ := sequence_of_decode? found
  cases shape with
  | one lead led code =>
      rw [List.cons_append, List.cons.injEq] at same
      rw [same.1] at high
      omega
  | two lead b₁ led first code long => exact long
  | three lead b₁ b₂ led first second code long => omega
  | four lead b₁ b₂ b₃ led first second third code long => omega

theorem runLength_of_decode? {isMember : Char → Bool} {bytes : Bytes} {c : Char} {width : Nat}
    (found : decode? bytes = some (c, width)) :
    runLength isMember bytes =
      if isMember c then width + runLength isMember (bytes.drop width) else 0 := by
  rw [runLength]
  split
  · rename_i found'
    rw [found] at found'
    cases found'
    rfl
  · rename_i absent
    rw [found] at absent
    cases absent

theorem runLength_of_undecodable {isMember : Char → Bool} {bytes : Bytes}
    (absent : decode? bytes = none) : runLength isMember bytes = 0 := by
  rw [runLength]
  split
  · rename_i found
    rw [absent] at found
    cases found
  · rfl

theorem runLength_of_not_startsWith {isMember : Char → Bool} {bytes : Bytes}
    (other : startsWith isMember bytes = false) : runLength isMember bytes = 0 := by
  unfold startsWith at other
  cases found : decode? bytes with
  | none => exact runLength_of_undecodable found
  | some entry =>
      rw [found] at other
      rw [runLength_of_decode? found, if_neg (Bool.eq_false_iff.mp other)]

theorem width_ascii {b : UInt8} (ascii : b.toNat < 0x80) (rest : Bytes) : width (b :: rest) = 1 := by
  unfold width
  rw [decode?_ascii ascii rest]

theorem decode?_continuation {b : UInt8} (continued : isContinuation b = true) (rest : Bytes) :
    decode? (b :: rest) = none := by
  cases found : decode? (b :: rest) with
  | none => rfl
  | some entry =>
      obtain ⟨sequence, more, same, shape, _⟩ := sequence_of_decode? found
      obtain ⟨lead, tail, rfl, led, _⟩ := shape.lead_tail
      rw [List.cons_append, List.cons.injEq] at same
      rw [same.1, led] at continued
      cases continued

/-- A continuation byte is told by its payload. -/
theorem eq_of_payload {a b : UInt8} (first : isContinuation a = true) (second : isContinuation b = true)
    (same : payload a = payload b) : a = b := by
  rw [isContinuation_iff] at first second
  unfold payload at same
  exact UInt8.toNat_inj.mp (by omega)

theorem payload_lt (b : UInt8) : payload b < 64 :=
  Nat.mod_lt _ (by decide)

/-- A character is spelled by one sequence only. -/
theorem Sequence.unique {c : Char} {left right : Bytes} (first : Sequence c left)
    (second : Sequence c right) : left = right := by
  -- The code says how many bytes there are; then each byte is told by its part of the code.
  cases first with
  | one lead led code =>
      cases second with
      | one other _ same => rw [UInt8.toNat_inj.mp (code.symm.trans same)]
      | two | three | four => omega
  | two lead b₁ led one code long =>
      have bound := payload_lt b₁
      cases second with
      | two other d₁ led' one' code' long' =>
          have bound' := payload_lt d₁
          obtain rfl : lead = other := UInt8.toNat_inj.mp (by omega)
          rw [eq_of_payload one one' (by omega)]
      | one | three | four => omega
  | three lead b₁ b₂ led one two code long =>
      have bound₁ := payload_lt b₁
      have bound₂ := payload_lt b₂
      cases second with
      | three other d₁ d₂ led' one' two' code' long' =>
          have bound₁' := payload_lt d₁
          have bound₂' := payload_lt d₂
          obtain rfl : lead = other := UInt8.toNat_inj.mp (by omega)
          rw [eq_of_payload one one' (by omega), eq_of_payload two two' (by omega)]
      | two other d₁ =>
          have bound' := payload_lt d₁
          omega
      | one | four => omega
  | four lead b₁ b₂ b₃ led one two three code long =>
      have bound₁ := payload_lt b₁
      have bound₂ := payload_lt b₂
      have bound₃ := payload_lt b₃
      cases second with
      | four other d₁ d₂ d₃ led' one' two' three' code' long' =>
          have bound₁' := payload_lt d₁
          have bound₂' := payload_lt d₂
          have bound₃' := payload_lt d₃
          obtain rfl : lead = other := UInt8.toNat_inj.mp (by omega)
          rw [eq_of_payload one one' (by omega), eq_of_payload two two' (by omega),
            eq_of_payload three three' (by omega)]
      | two other d₁ =>
          have bound' := payload_lt d₁
          omega
      | three other d₁ d₂ =>
          have bound₁' := payload_lt d₁
          have bound₂' := payload_lt d₂
          omega
      | one => omega

/-! ## The encoder writes sequences -/

theorem toNat_byte {n : Nat} (small : n < 256) : (UInt8.ofNat n).toNat = n := by
  rw [UInt8.toNat_ofNat', Nat.mod_eq_of_lt small]

theorem toNat_char_lt (c : Char) : c.toNat < 0x110000 := by
  have valid : c.toNat.isValidChar := c.valid
  unfold Nat.isValidChar at valid
  omega

theorem sequence_encodeChar (c : Char) : Sequence c (String.utf8EncodeChar c) := by
  have bound := toNat_char_lt c
  have continued (n : Nat) : isContinuation (UInt8.ofNat (n % 0x40 + 0x80)) = true := by
    rw [isContinuation_iff, toNat_byte (by omega)]
    omega
  have kept (n : Nat) : payload (UInt8.ofNat (n % 0x40 + 0x80)) = n % 0x40 := by
    rw [payload, toNat_byte (by omega)]
    omega
  fun_cases String.utf8EncodeChar with
  | case1 v small =>
      have value : v = c.toNat := rfl
      have lead := toNat_byte (n := v) (by omega)
      exact .one _ (by omega) (by omega)
  | case2 v above small =>
      have value : v = c.toNat := rfl
      have lead := toNat_byte (n := v / 64 % 0x20 + 0xc0) (by omega)
      refine .two _ _ (by omega) (continued _) ?_ (by omega)
      rw [kept]
      omega
  | case3 v above above' small =>
      have value : v = c.toNat := rfl
      have lead := toNat_byte (n := v / 4096 % 0x10 + 0xe0) (by omega)
      refine .three _ _ _ (by omega) (continued _) (continued _) ?_ (by omega)
      rw [kept, kept]
      omega
  | case4 v above above' above'' =>
      have value : v = c.toNat := rfl
      have lead := toNat_byte (n := v / 262144 % 0x08 + 0xf0) (by omega)
      refine .four _ _ _ _ (by omega) (continued _) (continued _) (continued _) ?_ (by omega)
      rw [kept, kept, kept]
      omega

theorem decode?_encodeChar_append (c : Char) (rest : Bytes) :
    decode? (String.utf8EncodeChar c ++ rest) = some (c, (String.utf8EncodeChar c).length) :=
  decode?_sequence_append (sequence_encodeChar c) rest

/-- The decoder reads just the bytes that spell the character. -/
theorem take_of_decode? {bytes : Bytes} {c : Char} {width : Nat}
    (found : decode? bytes = some (c, width)) : bytes.take width = String.utf8EncodeChar c := by
  obtain ⟨sequence, rest, rfl, shape, rfl⟩ := sequence_of_decode? found
  rw [List.take_left]
  exact shape.unique (sequence_encodeChar c)

theorem encodeChar_length_pos (c : Char) : 0 < (String.utf8EncodeChar c).length := by
  obtain ⟨lead, tail, same, _⟩ := (sequence_encodeChar c).lead_tail
  rw [same]
  exact Nat.succ_pos _

/-- An ASCII character is written as the byte of its code. -/
theorem toNat_of_mem_encodeChar {c : Char} {b : UInt8} (ascii : c.toNat < 0x80)
    (member : b ∈ String.utf8EncodeChar c) : b.toNat = c.toNat := by
  have shape := sequence_encodeChar c
  generalize String.utf8EncodeChar c = bytes at shape member
  cases shape with
  | one lead led code => rw [List.mem_singleton.mp member, code]
  | two | three | four => omega

theorem encode_cons (c : Char) (text : List Char) :
    encode (c :: text) = String.utf8EncodeChar c ++ encode text :=
  List.flatMap_cons

theorem encode_singleton (c : Char) : encode [c] = String.utf8EncodeChar c :=
  List.flatMap_singleton _ _

theorem encode_append (left right : List Char) : encode (left ++ right) = encode left ++ encode right :=
  List.flatMap_append

theorem encode_cons_ascii {c : Char} (ascii : c.toNat < 0x80) (text : List Char) :
    encode (c :: text) = Byte.ofChar c :: encode text := by
  have single : String.utf8EncodeChar c = [Byte.ofChar c] := by
    fun_cases String.utf8EncodeChar with
    | case1 v small => rfl
    | case2 v above | case3 v above | case4 v above =>
        have value : v = c.toNat := rfl
        omega
  rw [encode_cons, single, List.singleton_append]

theorem encode_ascii {text : List Char} (ascii : ∀ c ∈ text, c.toNat < 0x80) :
    encode text = text.map Byte.ofChar := by
  induction text with
  | nil => rfl
  | cons c text ih =>
      rw [List.forall_mem_cons] at ascii
      rw [encode_cons_ascii ascii.1, ih ascii.2, List.map_cons]

/-- A text that is not empty starts with a byte that no character has inside. -/
theorem encode_head {text : List Char} (nonempty : text ≠ []) :
    ∃ b rest, encode text = b :: rest ∧ isContinuation b = false := by
  obtain ⟨c, text, rfl⟩ := List.exists_cons_of_ne_nil nonempty
  obtain ⟨lead, tail, same, led, _⟩ := (sequence_encodeChar c).lead_tail
  exact ⟨lead, tail ++ encode text, by rw [encode_cons, same, List.cons_append], led⟩

/-- A text that starts with an ASCII byte starts with its character. -/
theorem of_encode_cons_ascii {c : Char} {text : List Char} {b : UInt8} {bs : Bytes}
    (bytes : encode (c :: text) = b :: bs) (ascii : b.toNat < 0x80) :
    c.toNat = b.toNat ∧ bs = encode text := by
  obtain ⟨lead, tail, same, _, _, alone⟩ := (sequence_encodeChar c).lead_tail
  rw [encode_cons, same] at bytes
  cases bytes
  have code := (sequence_encodeChar c).toNat_of_mem (b := b) (by rw [same]; exact List.mem_cons_self) ascii
  obtain rfl := alone ascii
  exact ⟨code, rfl⟩

theorem startsWith_encode_cons (isMember : Char → Bool) (c : Char) (text : List Char) :
    startsWith isMember (encode (c :: text)) = isMember c := by
  rw [encode_cons, startsWith, decode?_encodeChar_append]

theorem width_encode_cons (c : Char) (text : List Char) :
    width (encode (c :: text)) = (String.utf8EncodeChar c).length := by
  rw [encode_cons, width, decode?_encodeChar_append]

/-- The characters of a run are of the class. -/
theorem isMember_of_runLength_encode {isMember : Char → Bool} {run rest : List Char}
    (length : runLength isMember (encode (run ++ rest)) = (encode run).length) :
    ∀ c ∈ run, isMember c = true := by
  induction run with
  | nil =>
      intro c inside
      cases inside
  | cons c run ih =>
      rw [List.cons_append, encode_cons, runLength_of_decode? (decode?_encodeChar_append c _), encode_cons,
        List.length_append, List.drop_left] at length
      have positive := encodeChar_length_pos c
      split at length
      · rename_i member
        exact List.forall_mem_cons.mpr ⟨member, ih (Nat.add_left_cancel length)⟩
      · omega

/-- A run is a text of characters of the class. -/
theorem exists_take_runLength (isMember : Char → Bool) (bytes : Bytes) :
    ∃ run, bytes.take (runLength isMember bytes) = encode run ∧ ∀ c ∈ run, isMember c = true := by
  fun_induction runLength isMember bytes with
  | case1 bytes c width found member ih =>
      obtain ⟨run, spelled, members⟩ := ih
      refine ⟨c :: run, ?_, List.forall_mem_cons.mpr ⟨member, members⟩⟩
      rw [List.take_add, spelled, take_of_decode? found, encode_cons]
  | case2 bytes c width found other => exact ⟨[], rfl, by simp⟩
  | case3 bytes absent => exact ⟨[], rfl, by simp⟩

/-- The strict reader gives back the text whose bytes it reads. -/
theorem decodeAll?_encode (text : List Char) : decodeAll? (encode text) = some text := by
  induction text with
  | nil =>
      rw [decodeAll?]
      rfl
  | cons c text ih =>
      obtain ⟨b, rest, same, _⟩ := encode_head (List.cons_ne_nil c text)
      have found := decode?_encodeChar_append c (encode text)
      rw [← encode_cons] at found
      rw [decodeAll?, if_neg (by rw [same]; exact Bool.false_ne_true)]
      split
      · rename_i found'
        rw [found] at found'
        cases found'
        rw [encode_cons, List.drop_left, ih, Option.map_some]
      · rename_i absent
        rw [found] at absent
        cases absent

/-- What the strict reader accepts are the bytes of the text it gives. -/
theorem encode_of_decodeAll? {bytes : Bytes} {text : List Char} (read : decodeAll? bytes = some text) :
    bytes = encode text := by
  fun_induction decodeAll? bytes generalizing text with
  | case1 bytes empty =>
      cases read
      exact List.isEmpty_iff.mp empty
  | case2 bytes nonempty c width found ih =>
      obtain ⟨rest, restEq, rfl⟩ := Option.map_eq_some_iff.mp read
      rw [encode_cons, ← take_of_decode? found, ← ih restEq, List.take_append_drop]
  | case3 bytes nonempty absent => cases read

theorem decodeLossy_encode_append (text : List Char) (rest : Bytes) :
    decodeLossy (encode text ++ rest) = text ++ decodeLossy rest := by
  induction text with
  | nil => rfl
  | cons c text ih =>
      obtain ⟨b, bytes, same, _⟩ := encode_head (List.cons_ne_nil c text)
      have found := decode?_encodeChar_append c (encode text ++ rest)
      rw [← List.append_assoc, ← encode_cons, same, List.cons_append] at found
      rw [same, List.cons_append, decodeLossy]
      split
      · rename_i found'
        rw [found] at found'
        cases found'
        rw [← List.cons_append, ← same, encode_cons, List.append_assoc, List.drop_left, ih, List.cons_append]
      · rename_i absent
        rw [found] at absent
        cases absent

/-- Reading with replacements changes nothing in a well-formed text. -/
theorem decodeLossy_encode (text : List Char) : decodeLossy (encode text) = text := by
  have whole := decodeLossy_encode_append text []
  rwa [List.append_nil, decodeLossy, List.append_nil] at whole

/-! ## Cuts between characters -/

/-- No character of the text that starts before the cut ends after it. -/
def KeepsWhole (text : Bytes) (cut : Nat) : Prop :=
  ∀ offset c width, decode? (text.drop offset) = some (c, width) → offset < cut → offset + width ≤ cut

/-- The cut is at the end of the text or next to an ASCII byte. -/
def AsciiEdge (text : Bytes) (cut : Nat) : Prop :=
  cut = text.length ∨ (∃ b ∈ text[cut]?, b.toNat < 0x80) ∨
    ∃ before, cut = before + 1 ∧ ∃ b ∈ text[before]?, b.toNat < 0x80

namespace KeepsWhole

theorem zero (text : Bytes) : KeepsWhole text 0 := by
  intro offset c width _ before
  exact absurd before (Nat.not_lt_zero offset)

/-- A cut that is clean behind a clean cut is clean in the whole text. -/
theorem add {text : Bytes} {first second : Nat} (whole : KeepsWhole text first)
    (rest : KeepsWhole (text.drop first) second) : KeepsWhole text (first + second) := by
  intro offset c width found before
  by_cases early : offset < first
  · have bound := whole offset c width found early
    omega
  · obtain ⟨later, rfl⟩ := Nat.exists_eq_add_of_le (Nat.le_of_not_lt early)
    rw [← List.drop_drop] at found
    have bound := rest later c width found (by omega)
    omega

theorem of_not_continuation {text : Bytes} {cut : Nat} {b : UInt8} (here : text[cut]? = some b)
    (led : isContinuation b = false) : KeepsWhole text cut := by
  intro offset c width found before
  by_cases short : offset + width ≤ cut
  · exact short
  · obtain ⟨inner, rfl⟩ := Nat.exists_eq_add_of_lt before
    have later : 0 < inner + 1 := Nat.succ_pos inner
    obtain ⟨other, there, continued⟩ := isContinuation_of_decode? found later (by omega)
    rw [List.getElem?_drop, ← Nat.add_assoc, here] at there
    cases there
    rw [led] at continued
    cases continued

theorem of_asciiEdge {text : Bytes} {cut : Nat} (edge : AsciiEdge text cut) :
    KeepsWhole text cut := by
  have not_continuation {b : UInt8} (ascii : b.toNat < 0x80) : isContinuation b = false := by
    rw [Bool.eq_false_iff, ne_eq, isContinuation_iff]
    omega
  rcases edge with rfl | ⟨b, here, ascii⟩ | ⟨before, rfl, b, here, ascii⟩
  · intro offset c width found before
    have bound := (decode?_width found).2
    rw [List.length_drop] at bound
    omega
  · exact of_not_continuation here (not_continuation ascii)
  · intro offset c width found upTo
    by_cases last : offset = before
    · subst last
      have bound := (List.getElem?_eq_some_iff.mp here)
      obtain ⟨fits, same⟩ := bound
      rw [List.drop_eq_getElem_cons fits, same] at found
      rw [decode?_ascii ascii] at found
      cases found
      omega
    · have bound := of_not_continuation here (not_continuation ascii) offset c width found (by omega)
      omega

theorem of_decode? {text : Bytes} {c : Char} {width : Nat} (found : decode? text = some (c, width)) :
    KeepsWhole text width := by
  intro offset d other found' before
  by_cases first : offset = 0
  · subst first
    rw [List.drop_zero, found] at found'
    cases found'
    omega
  · obtain ⟨b, here, continued⟩ := isContinuation_of_decode? found (Nat.pos_of_ne_zero first) before
    obtain ⟨fits, same⟩ := List.getElem?_eq_some_iff.mp here
    rw [List.drop_eq_getElem_cons fits, same, decode?_continuation continued] at found'
    cases found'

/-- A byte that starts no character stands alone. -/
theorem one_of_undecodable {text : Bytes} (absent : decode? text = none) : KeepsWhole text 1 := by
  intro offset c width found before
  obtain rfl : offset = 0 := by omega
  rw [List.drop_zero, absent] at found
  cases found

theorem encode_append (text : List Char) (rest : Bytes) :
    KeepsWhole (encode text ++ rest) (encode text).length := by
  induction text with
  | nil => exact zero _
  | cons c text ih =>
      rw [encode_cons, List.append_assoc, List.length_append]
      refine add (of_decode? (decode?_encodeChar_append c _)) ?_
      rw [List.drop_left]
      exact ih

/-- A cut stays clean when the text behind it is cut off later. -/
theorem of_append {text more : Bytes} {cut : Nat} (whole : KeepsWhole (text ++ more) cut) :
    KeepsWhole text cut := by
  intro offset c width found before
  have bound := (decode?_width found)
  rw [List.length_drop] at bound
  refine whole offset c width ?_ before
  rw [List.drop_append_of_le_length (by omega)]
  exact decode?_append found more

theorem drop {text : Bytes} {first second : Nat} (whole : KeepsWhole text (first + second)) :
    KeepsWhole (text.drop first) second := by
  intro offset c width found before
  rw [List.drop_drop] at found
  have bound := whole (first + offset) c width found (by omega)
  omega

/-- A clean cut of a well-formed text lies between two of its characters. -/
theorem split_encode {text : List Char} {cut : Nat} (whole : KeepsWhole (encode text) cut)
    (fits : cut ≤ (encode text).length) :
    ∃ left right, text = left ++ right ∧ (encode left).length = cut := by
  induction text generalizing cut with
  | nil => exact ⟨[], [], rfl, (Nat.le_zero.mp fits).symm⟩
  | cons c text ih =>
      by_cases start : cut = 0
      · exact ⟨[], c :: text, rfl, start.symm⟩
      · rw [encode_cons] at whole fits
        have found := decode?_encodeChar_append c (encode text)
        have width := whole 0 c _ found (Nat.pos_of_ne_zero start)
        rw [Nat.zero_add] at width
        obtain ⟨later, rfl⟩ := Nat.exists_eq_add_of_le width
        have tail := whole.drop
        rw [List.drop_left] at tail
        obtain ⟨left, right, rfl, length⟩ := ih tail (by rw [List.length_append] at fits; omega)
        refine ⟨c :: left, right, rfl, ?_⟩
        rw [encode_cons, List.length_append, length]

end KeepsWhole

namespace AsciiEdge

theorem fits {text : Bytes} {cut : Nat} (edge : AsciiEdge text cut) : cut ≤ text.length := by
  rcases edge with rfl | ⟨b, here, _⟩ | ⟨before, rfl, b, here, _⟩
  · exact Nat.le_refl _
  · exact Nat.le_of_lt (List.getElem?_eq_some_iff.mp here).1
  · exact (List.getElem?_eq_some_iff.mp here).1

theorem add {text : Bytes} {first second : Nat} (within : first ≤ text.length)
    (edge : AsciiEdge (text.drop first) second) : AsciiEdge text (first + second) := by
  rcases edge with rfl | ⟨b, here, ascii⟩ | ⟨before, rfl, b, here, ascii⟩
  · rw [List.length_drop]
    exact .inl (by omega)
  · rw [List.getElem?_drop] at here
    exact .inr (.inl ⟨b, here, ascii⟩)
  · rw [List.getElem?_drop] at here
    exact .inr (.inr ⟨first + before, by omega, b, here, ascii⟩)

end AsciiEdge

/-- The cut lies in the text and leaves every character of it whole. -/
structure CleanCut (text : Bytes) (cut : Nat) : Prop where
  fits : cut ≤ text.length
  whole : KeepsWhole text cut

namespace CleanCut

theorem zero (text : Bytes) : CleanCut text 0 :=
  ⟨Nat.zero_le _, .zero text⟩

theorem add {text : Bytes} {first second : Nat} (head : CleanCut text first)
    (tail : CleanCut (text.drop first) second) : CleanCut text (first + second) := by
  refine ⟨?_, head.whole.add tail.whole⟩
  have fits := tail.fits
  rw [List.length_drop] at fits
  have bound := head.fits
  omega

theorem of_decode? {text : Bytes} {c : Char} {width : Nat} (found : decode? text = some (c, width)) :
    CleanCut text width :=
  ⟨(decode?_width found).2, .of_decode? found⟩

theorem of_asciiEdge {text : Bytes} {cut : Nat} (edge : AsciiEdge text cut) : CleanCut text cut :=
  ⟨edge.fits, .of_asciiEdge edge⟩

theorem one_of_ascii {b : UInt8} (ascii : b.toNat < 0x80) (rest : Bytes) : CleanCut (b :: rest) 1 :=
  of_asciiEdge (.inr (.inr ⟨0, rfl, b, rfl, ascii⟩))

theorem encode_append (text : List Char) (rest : Bytes) :
    CleanCut (encode text ++ rest) (encode text).length :=
  ⟨by simp, .encode_append text rest⟩

/-- The longest run of an ASCII class ends at a clean cut. -/
theorem takeWhile {isMember : UInt8 → Bool} (ascii : ∀ b, isMember b = true → b.toNat < 0x80)
    (text : Bytes) : CleanCut text (text.takeWhile isMember).length := by
  induction text with
  | nil => exact zero []
  | cons b rest ih =>
      by_cases member : isMember b = true
      · rw [List.takeWhile_cons_of_pos member, List.length_cons, Nat.add_comm]
        exact (one_of_ascii (ascii b member) rest).add ih
      · rw [List.takeWhile_cons_of_neg member]
        exact zero _

/-- So does the longest run without a byte of an ASCII class. -/
theorem takeWhile_not {isMember : UInt8 → Bool} (ascii : ∀ b, isMember b = true → b.toNat < 0x80)
    (text : Bytes) : CleanCut text (text.takeWhile (!isMember ·)).length := by
  apply of_asciiEdge
  have split := List.takeWhile_append_dropWhile (p := (!isMember ·)) (l := text)
  cases left : text.dropWhile (!isMember ·) with
  | nil =>
      rw [left, List.append_nil] at split
      exact .inl (congrArg List.length split)
  | cons b rest =>
      have stopped := stopped_of_dropWhile (!isMember ·) text (by rw [left, List.head?_cons])
      refine .inr (.inl ⟨b, ?_, ascii b (by simpa using stopped)⟩)
      rw [left] at split
      have here : (text.takeWhile (!isMember ·) ++ b :: rest)[(text.takeWhile (!isMember ·)).length]? =
          some b := by simp
      rw [split] at here
      exact here

/-- A run of characters is cut off behind a character. -/
theorem runLength (isMember : Char → Bool) (text : Bytes) : CleanCut text (runLength isMember text) := by
  fun_induction Utf8.runLength isMember text with
  | case1 text c width found member ih => exact (of_decode? found).add ih
  | case2 text c width found other => exact zero text
  | case3 text absent => exact zero text

theorem width {text : Bytes} (nonempty : text ≠ []) : CleanCut text (width text) := by
  unfold Utf8.width
  split
  · rename_i found
    exact of_decode? found
  · rename_i absent
    exact ⟨List.length_pos_iff.mpr nonempty, .one_of_undecodable absent⟩

end CleanCut

end CodeTint.Utf8
