import CodeTint.Proofs.Lexeme

/-!
# Where words end

Some bytes are part of no number and no identifier, and no test within one reads
past them. A word before such a byte is the word that would stand there at the
end of the text, whatever follows the byte. One lemma for each reader of words
says so.
-/

namespace CodeTint

/-- No number and no identifier goes on with this byte. -/
def Byte.endsWord (b : UInt8) : Bool :=
  b < 0x80 && !isIdentContinue b && !isAmong ".+-" b

namespace Bytes

/-- The text is empty, or its first byte ends a word. -/
def EndsWord (text : Bytes) : Prop :=
  ∀ b ∈ text.head?, Byte.endsWord b = true

theorem endsWord_nil : EndsWord [] := by
  intro b member
  cases member

theorem endsWord_cons {b : UInt8} (ends : Byte.endsWord b = true) (rest : Bytes) :
    EndsWord (b :: rest) := by
  intro c member
  cases member
  exact ends

end Bytes

namespace Byte

theorem ascii_of_endsWord {b : UInt8} (ends : endsWord b = true) : b.toNat < 0x80 := by
  simp only [endsWord, Bool.and_eq_true, decide_eq_true_eq, UInt8.lt_iff_toNat_lt] at ends
  exact ends.1.1

theorem not_isIdentContinue_of_endsWord {b : UInt8} (ends : endsWord b = true) :
    isIdentContinue b = false := by
  simp only [endsWord, Bool.and_eq_true, Bool.not_eq_true'] at ends
  exact ends.1.2

theorem not_isSign_of_endsWord {b : UInt8} (ends : endsWord b = true) : isAmong ".+-" b = false := by
  simp only [endsWord, Bool.and_eq_true, Bool.not_eq_true'] at ends
  exact ends.2

theorem not_isSuffix_of_endsWord {b : UInt8} (ends : endsWord b = true) : isSuffix b = false := by
  have other := not_isIdentContinue_of_endsWord ends
  simp only [isIdentContinue, isIdentStart, Bool.or_eq_false_iff] at other
  simp only [isSuffix, other, Bool.or_self]

theorem not_isDigit_of_endsWord {b : UInt8} (ends : endsWord b = true) : isDigit b = false := by
  have other := not_isSuffix_of_endsWord ends
  simp only [isSuffix, Bool.or_eq_false_iff] at other
  exact other.1.2

end Byte

/-- A run stops before the second part if its first element is not of the class. -/
theorem takeWhile_append_of_other {α : Type} {isMember : α → Bool} {second : List α}
    (other : ∀ a ∈ second.head?, isMember a = false) (first : List α) :
    (first ++ second).takeWhile isMember = first.takeWhile isMember := by
  rw [List.takeWhile_append]
  split
  · rename_i all
    have stopped : second.takeWhile isMember = [] := by
      cases second with
      | nil => rfl
      | cons a second => rw [List.takeWhile_cons, other a rfl, if_neg Bool.false_ne_true]
    rw [stopped, List.append_nil, (List.takeWhile_prefix isMember).eq_of_length all]
  · rfl

/-! ## Characters -/

namespace Utf8

variable {word rest : Bytes}

/-- No character reaches from a text into an ASCII byte behind it. -/
theorem decode?_append_of_ascii (nonempty : word ≠ []) (ascii : ∀ b ∈ rest.head?, b.toNat < 0x80) :
    decode? (word ++ rest) = decode? word := by
  cases here : decode? word with
  | some entry => exact decode?_append here rest
  | none =>
      cases found : decode? (word ++ rest) with
      | none => rfl
      | some entry =>
          obtain ⟨sequence, more, same, shape, width⟩ := sequence_of_decode? found
          by_cases short : sequence.length ≤ word.length
          · obtain ⟨tail, rfl⟩ : sequence <+: word :=
              List.prefix_of_prefix_length_le ⟨more, same.symm⟩ (List.prefix_append word rest) short
            rw [decode?_sequence_append shape] at here
            cases here
          · obtain ⟨b, next, continued⟩ := isContinuation_of_decode? found (List.length_pos_iff.mpr nonempty)
              (by omega)
            rw [List.getElem?_append_right (Nat.le_refl _), Nat.sub_self, ← List.head?_eq_getElem?] at next
            rw [isContinuation_iff] at continued
            have small := ascii b next
            omega

theorem ascii_of_endsWord (ends : rest.EndsWord) : ∀ b ∈ rest.head?, b.toNat < 0x80 :=
  fun b member => Byte.ascii_of_endsWord (ends b member)

theorem startsWith_append_of_ascii {isMember : Char → Bool} (nonempty : word ≠ [])
    (ascii : ∀ b ∈ rest.head?, b.toNat < 0x80) :
    startsWith isMember (word ++ rest) = startsWith isMember word := by
  unfold startsWith
  rw [decode?_append_of_ascii nonempty ascii]

theorem width_append_of_ascii (nonempty : word ≠ []) (ascii : ∀ b ∈ rest.head?, b.toNat < 0x80) :
    width (word ++ rest) = width word := by
  unfold width
  rw [decode?_append_of_ascii nonempty ascii]

theorem runLength_append_of_other {isMember : Char → Bool} (ascii : ∀ b ∈ rest.head?, b.toNat < 0x80)
    (other : ∀ b ∈ rest.head?, isMember (Char.ofNat b.toNat) = false) (word : Bytes) :
    runLength isMember (word ++ rest) = runLength isMember word := by
  fun_induction runLength isMember word with
  | case1 word c width found member ih =>
      have bound := (decode?_width found).2
      rw [runLength_of_decode? (decode?_append found rest), if_pos member,
        List.drop_append_of_le_length bound, ih]
  | case2 word c width found outside =>
      rw [runLength_of_decode? (decode?_append found rest), if_neg outside]
  | case3 word absent =>
      cases word with
      | nil =>
          cases rest with
          | nil => exact runLength_of_undecodable rfl
          | cons b rest =>
              rw [List.nil_append, runLength_of_decode? (decode?_ascii (ascii b rfl) rest),
                if_neg (Bool.eq_false_iff.mp (other b rfl))]
      | cons b word =>
          rw [← decode?_append_of_ascii (List.cons_ne_nil b word) ascii] at absent
          exact runLength_of_undecodable absent

end Utf8

/-! ## Numbers -/

/-- The digits of every radix are letters and digits. -/
theorem Radix.isSuffix_of_isDigit {radix : Radix} {b : UInt8} (digit : radix.isDigit b = true) :
    Byte.isSuffix b = true := by
  cases radix with
  | binary =>
      simp only [isDigit, Bool.or_eq_true, beq_iff_eq] at digit
      rcases digit with rfl | rfl
      · decide
      · decide
  | octal =>
      simp only [isDigit, Bool.and_eq_true, decide_eq_true_eq, UInt8.le_iff_toNat_le] at digit
      have low : Byte.isDigit b = true := by
        simp only [Byte.isDigit, Bool.and_eq_true, decide_eq_true_eq, UInt8.le_iff_toNat_le]
        exact ⟨digit.1, Nat.le_trans digit.2 (by decide)⟩
      simp [Byte.isSuffix, low]
  | decimal =>
      have low : Byte.isDigit b = true := digit
      simp [Byte.isSuffix, low]
  | hexadecimal =>
      simp only [isDigit, Byte.isHexDigit, Bool.or_eq_true, Bool.and_eq_true, decide_eq_true_eq,
        UInt8.le_iff_toNat_le] at digit
      simp only [Byte.isSuffix, Byte.isLetter, Bool.or_eq_true, Bool.and_eq_true, decide_eq_true_eq,
        UInt8.le_iff_toNat_le]
      rcases digit with (low | ⟨least, greatest⟩) | ⟨least, greatest⟩
      · exact .inl (.inr low)
      · exact .inl (.inl (.inl ⟨least, Nat.le_trans greatest (by decide)⟩))
      · exact .inl (.inl (.inr ⟨least, Nat.le_trans greatest (by decide)⟩))

namespace Number

variable {radix : Radix} {word rest : Bytes}

theorem not_isDigit_of_endsWord {b : UInt8} (ends : Byte.endsWord b = true) : radix.isDigit b = false := by
  apply Bool.eq_false_iff.mpr
  intro digit
  have other := Byte.not_isSuffix_of_endsWord ends
  rw [Radix.isSuffix_of_isDigit digit] at other
  cases other

theorem digitsLength_append_of_ends (ends : rest.EndsWord) (word : Bytes) :
    digitsLength radix (word ++ rest) = digitsLength radix word := by
  unfold digitsLength
  rw [takeWhile_append_of_other]
  intro b member
  have suffix := Byte.not_isSuffix_of_endsWord (ends b member)
  simp only [Byte.isSuffix, Bool.or_eq_false_iff] at suffix
  rw [not_isDigit_of_endsWord (ends b member), suffix.2, Bool.or_self]

theorem suffixLength_append_of_ends (ends : rest.EndsWord) (word : Bytes) :
    suffixLength (word ++ rest) = suffixLength word := by
  unfold suffixLength
  rw [takeWhile_append_of_other]
  intro b member
  exact Byte.not_isSuffix_of_endsWord (ends b member)

/-- A radix is marked by letters, and no letter ends a word. -/
theorem not_isAmong_of_endsWord {letters : String}
    (all : letters.toList.all (fun c => Byte.isLetter (Byte.ofChar c)) = true) {b : UInt8}
    (ends : Byte.endsWord b = true) : Byte.isAmong letters b = false := by
  have other := Byte.not_isSuffix_of_endsWord ends
  rw [Bool.eq_false_iff]
  intro among
  obtain ⟨c, listed, same⟩ := List.any_eq_true.mp among
  have letter := List.all_eq_true.mp all c listed
  rw [eq_of_beq same] at letter
  simp [Byte.isSuffix, letter] at other

theorem ofFront_append_of_ends (ends : rest.EndsWord) (word : Bytes) :
    Radix.ofFront (word ++ rest) = Radix.ofFront word := by
  match word with
  | [] =>
      cases rest with
      | nil => rfl
      | cons b rest =>
          have zero : (b != 0x30) = true := by
            rw [bne_iff_ne]
            rintro rfl
            exact absurd (ends _ rfl) (by decide)
          cases rest with
          | nil => rfl
          | cons c rest => simp only [List.nil_append, Radix.ofFront, if_pos zero]
  | [zero] =>
      cases rest with
      | nil => rfl
      | cons b rest =>
          have hexadecimal : Byte.isAmong "xX" b = false := not_isAmong_of_endsWord (by decide) (ends b rfl)
          have octal : Byte.isAmong "oO" b = false := not_isAmong_of_endsWord (by decide) (ends b rfl)
          have binary : Byte.isAmong "bB" b = false := not_isAmong_of_endsWord (by decide) (ends b rfl)
          simp only [List.cons_append, List.nil_append, Radix.ofFront, hexadecimal, octal, binary,
            Bool.false_eq_true, if_false, ite_self]
  | zero :: letter :: word => rfl

theorem fractionLength_append_of_ends (ends : rest.EndsWord) (word : Bytes) :
    fractionLength radix (word ++ rest) = fractionLength radix word := by
  match word with
  | [] =>
      match rest with
      | [] | [_] => rfl
      | b :: c :: rest =>
          have dot : (b == Byte.dot) = false := by
            rw [beq_eq_false_iff_ne]
            rintro rfl
            exact absurd (ends _ rfl) (by decide)
          simp only [List.nil_append, fractionLength, dot, Bool.and_false, Bool.false_and,
            Bool.false_eq_true, if_false]
  | [dot] =>
      cases rest with
      | nil => rfl
      | cons b rest =>
          simp only [List.cons_append, List.nil_append, fractionLength, not_isDigit_of_endsWord (ends b rfl),
            Bool.and_false, Bool.false_eq_true, if_false]
  | dot :: digit :: word =>
      simp only [List.cons_append, fractionLength]
      rw [← List.cons_append, digitsLength_append_of_ends ends]

theorem signLength_append_of_ends (ends : rest.EndsWord) (word : Bytes) :
    signLength (word ++ rest) = signLength word := by
  match word with
  | [] =>
      cases rest with
      | nil => rfl
      | cons b rest =>
          have other := Byte.not_isSign_of_endsWord (ends b rfl)
          have sign : Byte.isAmong "+-" b = false := by
            rw [Bool.eq_false_iff] at other ⊢
            intro among
            exact other (Bool.or_eq_true_iff.mpr (.inr among))
          simp only [List.nil_append, signLength, sign, Bool.false_eq_true, if_false]
  | b :: word => rfl

theorem exponentLength_append_of_ends (ends : rest.EndsWord) (word : Bytes) :
    exponentLength radix (word ++ rest) = exponentLength radix word := by
  match word with
  | [] =>
      cases rest with
      | nil => rfl
      | cons b rest =>
          have mark : radix.isExponentMark b = false := by
            cases radix with
            | decimal => exact not_isAmong_of_endsWord (by decide) (ends b rfl)
            | hexadecimal => exact not_isAmong_of_endsWord (by decide) (ends b rfl)
            | binary | octal => rfl
          simp only [List.nil_append, exponentLength, mark, Bool.false_and, Bool.false_eq_true, if_false]
  | mark :: word =>
      have fits := (signLength_cut word).fits
      have digits : ((word ++ rest).drop (signLength word)).head?.any Byte.isDigit =
          (word.drop (signLength word)).head?.any Byte.isDigit := by
        rw [List.drop_append_of_le_length fits]
        cases word.drop (signLength word) with
        | cons b word => rfl
        | nil =>
            cases rest with
            | nil => rfl
            | cons b rest => exact Byte.not_isDigit_of_endsWord (ends b rfl)
      simp only [List.cons_append, exponentLength, signLength_append_of_ends ends, digits]
      rw [List.drop_append_of_le_length fits, digitsLength_append_of_ends ends]

theorem starts_append_of_ends {afterOperand : Bool} (nonempty : word ≠ []) (ends : rest.EndsWord) :
    starts afterOperand (word ++ rest) = starts afterOperand word := by
  match word, nonempty with
  | [b], _ =>
      cases rest with
      | nil => rfl
      | cons c rest =>
          simp only [List.cons_append, List.nil_append, starts, List.head?_cons, Option.any_some,
            List.head?_nil, Option.any_none, Byte.not_isDigit_of_endsWord (ends c rfl)]
  | b :: c :: word, _ => rfl

/-- A number before a byte that ends words is the number at the end of the text. -/
theorem length_append_of_ends (ends : rest.EndsWord) (word : Bytes) :
    length (word ++ rest) = length word := by
  unfold length
  dsimp only
  rw [ofFront_append_of_ends ends]
  generalize radixEq : Radix.ofFront word = radix
  have mark := radixEq ▸ markLength_cut word
  rw [List.drop_append_of_le_length mark.fits, digitsLength_append_of_ends ends]
  have whole := mark.add (digitsLength_cut radix (word.drop radix.markLength))
  generalize radix.markLength + digitsLength radix (word.drop radix.markLength) = wholeLength at whole ⊢
  rw [List.drop_append_of_le_length whole.fits, fractionLength_append_of_ends ends]
  have fraction := whole.add (fractionLength_cut radix (word.drop wholeLength))
  generalize wholeLength + fractionLength radix (word.drop wholeLength) = fractionEnd at fraction ⊢
  rw [List.drop_append_of_le_length fraction.fits, exponentLength_append_of_ends ends]
  have exponent := fraction.add (exponentLength_cut radix (word.drop fractionEnd))
  generalize fractionEnd + exponentLength radix (word.drop fractionEnd) = exponentEnd at exponent ⊢
  rw [List.drop_append_of_le_length exponent.fits, suffixLength_append_of_ends ends]

/-- No byte of a number ends words. -/
theorem not_endsWord_of_mem {text : Bytes} {b : UInt8} (member : b ∈ text.take (length text)) :
    Byte.endsWord b = false := by
  rw [Bool.eq_false_iff]
  intro ends
  obtain ⟨word, more, split⟩ := List.append_of_mem member
  have whole := List.take_append_drop (length text) text
  rw [split, List.append_assoc] at whole
  have same := length_append_of_ends (Bytes.endsWord_cons ends (more ++ text.drop (length text))) word
  rw [← List.cons_append, whole] at same
  have within := (length_cut word).fits
  have taken := congrArg List.length split
  rw [List.length_take, List.length_append, List.length_cons] at taken
  omega

end Number

end CodeTint
