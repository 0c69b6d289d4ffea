import CodeTint.Byte

/-!
# UTF-8 characters in byte strings

`decode?` reads one character at the front of a byte string and accepts
exactly the well-formed sequences: shortest form, no surrogates, nothing above
`U+10FFFF`. Whole texts are read strictly by `decodeAll?` and, with every
maximal broken piece replaced, by `decodeLossy`.
-/

namespace CodeTint.Utf8

/-- The bytes of a text. -/
def encode (text : List Char) : Bytes :=
  text.flatMap String.utf8EncodeChar

/-- The length of the sequence that `lead` opens, and 0 if it opens none. -/
def sequenceLength (lead : UInt8) : Nat :=
  if lead < 0x80 then 1
  else if lead < 0xC2 then 0
  else if lead < 0xE0 then 2
  else if lead < 0xF0 then 3
  else if lead < 0xF5 then 4
  else 0

def isContinuation (b : UInt8) : Bool :=
  0x80 ≤ b && b < 0xC0

/-- The character with this code, unless a shorter sequence encodes it or there is none. -/
def scalar? (least code : Nat) : Option Char :=
  if least ≤ code ∧ code.isValidChar then some (Char.ofNat code) else none

/-- The low six bits, which a continuation byte adds to a code. -/
def payload (b : UInt8) : Nat :=
  b.toNat % 64

/-- The first character and the number of its bytes. -/
def decode? : Bytes → Option (Char × Nat)
  | [] => none
  | lead :: rest =>
      match sequenceLength lead, rest with
      | 1, _ => some (Char.ofNat lead.toNat, 1)
      | 2, b₁ :: _ =>
          if isContinuation b₁ then
            (scalar? 0x80 (lead.toNat % 32 * 64 + payload b₁)).map (·, 2)
          else none
      | 3, b₁ :: b₂ :: _ =>
          if isContinuation b₁ && isContinuation b₂ then
            (scalar? 0x800 ((lead.toNat % 16 * 64 + payload b₁) * 64 + payload b₂)).map (·, 3)
          else none
      | 4, b₁ :: b₂ :: b₃ :: _ =>
          if isContinuation b₁ && isContinuation b₂ && isContinuation b₃ then
            (scalar? 0x10000
              (((lead.toNat % 8 * 64 + payload b₁) * 64 + payload b₂) * 64 + payload b₃)).map (·, 4)
          else none
      | _, _ => none

theorem decode?_width {bytes : Bytes} {c : Char} {width : Nat}
    (found : decode? bytes = some (c, width)) : 0 < width ∧ width ≤ bytes.length := by
  unfold decode? at found
  split at found
  · cases found
  · split at found
    · cases found
      simp
    · split at found
      · obtain ⟨d, _, same⟩ := Option.map_eq_some_iff.mp found
        cases same
        simp
      · cases found
    · split at found
      · obtain ⟨d, _, same⟩ := Option.map_eq_some_iff.mp found
        cases same
        simp
      · cases found
    · split at found
      · obtain ⟨d, _, same⟩ := Option.map_eq_some_iff.mp found
        cases same
        simp
      · cases found
    · cases found

theorem decode?_drop_lt {bytes : Bytes} {c : Char} {width : Nat}
    (found : decode? bytes = some (c, width)) : (bytes.drop width).length < bytes.length := by
  have bound := decode?_width found
  simp only [List.length_drop]
  omega

/-- The text starts with a character of the class. -/
def startsWith (isMember : Char → Bool) (bytes : Bytes) : Bool :=
  match decode? bytes with
  | some (c, _) => isMember c
  | none => false

/-- The length in bytes of the longest run of characters of the class. -/
def runLength (isMember : Char → Bool) (bytes : Bytes) : Nat :=
  match _ : decode? bytes with
  | some (c, width) =>
      if isMember c then width + runLength isMember (bytes.drop width) else 0
  | none => 0
termination_by bytes.length
decreasing_by exact decode?_drop_lt (by assumption)

theorem runLength_pos {isMember : Char → Bool} {bytes : Bytes}
    (starts : startsWith isMember bytes = true) : 0 < runLength isMember bytes := by
  unfold startsWith at starts
  unfold runLength
  split
  · rename_i c width found
    rw [found] at starts
    have bound := decode?_width found
    simp only at starts
    rw [if_pos starts]
    omega
  · rename_i absent
    rw [absent] at starts
    cases starts

/-- The characters of a well-formed text. -/
def decodeAll? (bytes : Bytes) : Option (List Char) :=
  if bytes.isEmpty then some []
  else
    match _ : decode? bytes with
    | some (c, width) => (decodeAll? (bytes.drop width)).map (c :: ·)
    | none => none
termination_by bytes.length
decreasing_by exact decode?_drop_lt (by assumption)

/-- The least and the greatest byte that may follow a lead of three or four bytes. -/
def secondRange (lead : UInt8) : UInt8 × UInt8 :=
  if lead == 0xE0 then (0xA0, 0xBF)
  else if lead == 0xED then (0x80, 0x9F)
  else if lead == 0xF0 then (0x90, 0xBF)
  else if lead == 0xF4 then (0x80, 0x8F)
  else (0x80, 0xBF)

def isSecond (lead b : UInt8) : Bool :=
  (secondRange lead).1 ≤ b && b ≤ (secondRange lead).2

/-- The length of the longest beginning of a sequence at the front of a text that
does not start with a whole one, and 1 where no sequence begins. -/
def brokenLength : Bytes → Nat
  | lead :: b₁ :: b₂ :: _ =>
      if sequenceLength lead < 3 || !isSecond lead b₁ then 1
      else if sequenceLength lead == 4 && isContinuation b₂ then 3
      else 2
  | lead :: b₁ :: _ => if sequenceLength lead < 3 || !isSecond lead b₁ then 1 else 2
  | _ => 1

theorem brokenLength_pos (bytes : Bytes) : 0 < brokenLength bytes := by
  unfold brokenLength
  split
  · split
    · decide
    · split <;> decide
  · split <;> decide
  · decide

/-- The text of a byte string, with `U+FFFD` for every maximal broken piece. -/
def decodeLossy (bytes : Bytes) : List Char :=
  match bytes with
  | [] => []
  | b :: rest =>
      match _ : decode? (b :: rest) with
      | some (c, width) => c :: decodeLossy ((b :: rest).drop width)
      | none => '\uFFFD' :: decodeLossy ((b :: rest).drop (brokenLength (b :: rest)))
termination_by bytes.length
decreasing_by
  · exact decode?_drop_lt (by assumption)
  · have progress := brokenLength_pos (b :: rest)
    simp only [List.length_drop, List.length_cons]
    omega

/-- The width of the character at the front, and 1 if there is none. -/
def width (bytes : Bytes) : Nat :=
  match decode? bytes with
  | some (_, width) => width
  | none => 1

theorem width_pos (bytes : Bytes) : 0 < width bytes := by
  unfold width
  split
  · rename_i found
    exact (decode?_width found).1
  · decide

end CodeTint.Utf8
