import Mathlib.Data.List.Basic
import CodeTint.Proofs.Kinds
import CodeTint.Proofs.Lookahead
import CodeTint.Proofs.Neighbours
import CodeTint.Proofs.WordEnd

/-!
# The grammar of numbers

A number is read part by part, and a part that is declined leaves its bytes to the
suffix. `IsNumeral` is the grammar of the texts that come out of this. A dot stands
in them only in front of a digit of the radix, and a sign only between an exponent
mark and a digit, so that ranges, members and sums keep their operators; behind a
number that is digits alone no fraction is left.
-/

namespace CodeTint

/-- Of the class the text has one byte, between such a front and such a rest, or none. -/
def Bytes.Sole (isMember : UInt8 → Bool) (Around : Bytes → Bytes → Prop) (text : Bytes) : Prop :=
  ∀ before b after, text = before ++ b :: after → isMember b = true →
    Around before after ∧ ∀ c ∈ before ++ after, isMember c = false

namespace Number

/-- Digits and underscores. -/
def IsRun (radix : Radix) (text : Bytes) : Prop :=
  ∀ b ∈ text, radix.isDigit b = true ∨ b = Byte.underscore

/-- A digit, then digits and underscores. -/
inductive IsDigits (radix : Radix) : Bytes → Prop
  | cons {digit : UInt8} {run : Bytes} (first : radix.isDigit digit = true) (others : IsRun radix run) :
      IsDigits radix (digit :: run)

/-- A dot with digits behind it, or nothing. -/
inductive IsFraction (radix : Radix) : Bytes → Prop
  | absent : IsFraction radix []
  | present {digits : Bytes} (allowed : radix.hasFraction = true) (isDigits : IsDigits radix digits) :
      IsFraction radix (Byte.dot :: digits)

inductive IsSign : Bytes → Prop
  | absent : IsSign []
  | present {b : UInt8} (sign : Byte.isAmong "+-" b = true) : IsSign [b]

/-- A mark, a sign or none, and decimal digits, or nothing. -/
inductive IsExponent (radix : Radix) : Bytes → Prop
  | absent : IsExponent radix []
  | present {mark : UInt8} {sign digits : Bytes} (marked : radix.isExponentMark mark = true)
      (signed : IsSign sign) (isDigits : IsDigits .decimal digits) :
      IsExponent radix (mark :: (sign ++ digits))

/-- Letters, digits and underscores. -/
def IsSuffix (text : Bytes) : Prop :=
  ∀ b ∈ text, Byte.isSuffix b = true

/-- What the text of a number looks like. -/
inductive IsNumeral : Radix → Bytes → Prop
  | hexadecimal {letter : UInt8} {whole fraction exponent suffix : Bytes}
      (marked : Byte.isAmong "xX" letter = true) (isRun : IsRun .hexadecimal whole)
      (isFraction : IsFraction .hexadecimal fraction) (isExponent : IsExponent .hexadecimal exponent)
      (isSuffix : IsSuffix suffix) :
      IsNumeral .hexadecimal (0x30 :: letter :: (whole ++ (fraction ++ (exponent ++ suffix))))
  | octal {letter : UInt8} {suffix : Bytes} (marked : Byte.isAmong "oO" letter = true)
      (isSuffix : IsSuffix suffix) : IsNumeral .octal (0x30 :: letter :: suffix)
  | binary {letter : UInt8} {suffix : Bytes} (marked : Byte.isAmong "bB" letter = true)
      (isSuffix : IsSuffix suffix) : IsNumeral .binary (0x30 :: letter :: suffix)
  | decimal {b : UInt8} {bs whole fraction exponent suffix : Bytes}
      (starts : Byte.isDigit b = true ∨ b = Byte.dot) (isRun : IsRun .decimal whole)
      (isFraction : IsFraction .decimal fraction) (isExponent : IsExponent .decimal exponent)
      (isSuffix : IsSuffix suffix) (parts : b :: bs = whole ++ (fraction ++ (exponent ++ suffix))) :
      IsNumeral .decimal (b :: bs)

/-- The text is a number of the radix that ends before this rest. -/
structure Reads (radix : Radix) (text rest : Bytes) : Prop where
  numeral : IsNumeral radix text
  dots : text.Sole (· == Byte.dot) fun _ after => after.head?.any radix.isDigit = true
  signs : text.Sole (Byte.isAmong "+-") fun before after =>
    before.getLast?.any radix.isExponentMark = true ∧ after.head?.any Byte.isDigit = true
  stops : rest.head?.any Byte.isSuffix = false
  /-- Digits alone, behind the radix mark if there is one, leave no fraction behind them. -/
  whole : radix.hasFraction = true → IsRun radix (text.drop radix.markLength) →
    ∀ digit more, rest = Byte.dot :: digit :: more → radix.isDigit digit = false

end Number

/-! ## One byte of a class -/

namespace Bytes.Sole

variable {isMember : UInt8 → Bool} {Around : Bytes → Bytes → Prop}

theorem none {text : Bytes} (free : ∀ c ∈ text, isMember c = false) : text.Sole isMember Around := by
  rintro before b after rfl member
  rw [free b (List.mem_append_right before List.mem_cons_self)] at member
  cases member

theorem one {left right : Bytes} {mark : UInt8} (around : Around left right)
    (free : ∀ c ∈ left ++ right, isMember c = false) : (left ++ mark :: right).Sole isMember Around := by
  intro before b after same member
  have outside {part : Bytes} (within : ∀ c ∈ part, c ∈ left ++ right) : b ∉ part := by
    intro inside
    rw [free b (within b inside)] at member
    cases member
  obtain ⟨rfl, rfl, rfl⟩ := (List.append_cons_inj_of_notMem
    (outside fun _ => List.mem_append_left right) (outside fun _ => List.mem_append_right left)).mp same
  exact ⟨around, free⟩

end Bytes.Sole

/-! ## The parts of a number -/

namespace Number

variable {radix : Radix}

theorem IsRun.isSuffix {text : Bytes} (isRun : IsRun radix text) : IsSuffix text := by
  intro b member
  rcases isRun b member with digit | rfl
  · exact Radix.isSuffix_of_isDigit digit
  · decide

theorem IsDigits.isRun {text : Bytes} (isDigits : IsDigits radix text) : IsRun radix text := by
  cases isDigits with
  | cons first others => exact List.forall_mem_cons.mpr ⟨.inl first, others⟩

theorem IsSuffix.append {left right : Bytes} (first : IsSuffix left) (second : IsSuffix right) :
    IsSuffix (left ++ right) :=
  List.forall_mem_append.mpr ⟨first, second⟩

theorem isSuffix_of_isAmong {letters : String}
    (all : letters.toList.all (fun c => Byte.isSuffix (Byte.ofChar c)) = true) {b : UInt8}
    (among : Byte.isAmong letters b = true) : Byte.isSuffix b = true := by
  obtain ⟨c, listed, same⟩ := List.any_eq_true.mp among
  rw [← eq_of_beq same]
  exact List.all_eq_true.mp all c listed

theorem isSuffix_of_isExponentMark {b : UInt8} (marked : radix.isExponentMark b = true) :
    Byte.isSuffix b = true := by
  cases radix with
  | decimal => exact isSuffix_of_isAmong (by decide) marked
  | hexadecimal => exact isSuffix_of_isAmong (by decide) marked
  | binary | octal => cases marked

theorem not_isSuffix_of_isSign {b : UInt8} (sign : Byte.isAmong "+-" b = true) : Byte.isSuffix b = false := by
  obtain ⟨c, listed, same⟩ := List.any_eq_true.mp sign
  have all : "+-".toList.all (fun c => !Byte.isSuffix (Byte.ofChar c)) = true := by decide
  have here := List.all_eq_true.mp all c listed
  rw [eq_of_beq same] at here
  simpa using here

/-- A number is words with a fraction and an exponent between them. -/
theorem IsNumeral.parts {text : Bytes} (numeral : IsNumeral radix text) :
    ∃ front fraction exponent suffix, text = front ++ (fraction ++ (exponent ++ suffix)) ∧
      IsSuffix front ∧ IsFraction radix fraction ∧ IsExponent radix exponent ∧ IsSuffix suffix := by
  have marked {letters : String} {letter : UInt8}
      (all : letters.toList.all (fun c => Byte.isSuffix (Byte.ofChar c)) = true)
      (among : Byte.isAmong letters letter = true) : IsSuffix [0x30, letter] := by
    intro b member
    simp only [List.mem_cons, List.not_mem_nil, or_false] at member
    rcases member with rfl | rfl
    · decide
    · exact isSuffix_of_isAmong all among
  cases numeral with
  | @hexadecimal letter whole fraction exponent suffix among isRun isFraction isExponent isSuffix =>
      exact ⟨[0x30, letter] ++ whole, fraction, exponent, suffix, by simp,
        (marked (by decide) among).append isRun.isSuffix, isFraction, isExponent, isSuffix⟩
  | @octal letter suffix among isSuffix =>
      exact ⟨[0x30, letter], [], [], suffix, rfl, marked (by decide) among, .absent, .absent, isSuffix⟩
  | @binary letter suffix among isSuffix =>
      exact ⟨[0x30, letter], [], [], suffix, rfl, marked (by decide) among, .absent, .absent, isSuffix⟩
  | decimal starts isRun isFraction isExponent isSuffix parts =>
      exact ⟨_, _, _, _, parts, isRun.isSuffix, isFraction, isExponent, isSuffix⟩

/-- Bytes that are neither of words nor signs are not in an exponent. -/
theorem IsExponent.mem {exponent : Bytes} (isExponent : IsExponent radix exponent) {b : UInt8}
    (member : b ∈ exponent) : Byte.isSuffix b = true ∨ Byte.isAmong "+-" b = true := by
  cases isExponent with
  | absent => cases member
  | present marked signed isDigits =>
      rcases List.mem_cons.mp member with rfl | behind
      · exact .inl (isSuffix_of_isExponentMark marked)
      · rcases List.mem_append.mp behind with inSign | inDigits
        · cases signed with
          | absent => cases inSign
          | present sign =>
              rw [List.mem_singleton.mp inSign]
              exact .inr sign
        · exact .inl (isDigits.isRun.isSuffix b inDigits)

theorem IsFraction.mem {fraction : Bytes} (isFraction : IsFraction radix fraction) {b : UInt8}
    (member : b ∈ fraction) : Byte.isSuffix b = true ∨ b = Byte.dot := by
  cases isFraction with
  | absent => cases member
  | present _ isDigits =>
      rcases List.mem_cons.mp member with rfl | behind
      · exact .inr rfl
      · exact .inl (isDigits.isRun.isSuffix b behind)

theorem IsSuffix.not_dot {text : Bytes} (isSuffix : IsSuffix text) :
    ∀ b ∈ text, (b == Byte.dot) = false := by
  intro b member
  rw [beq_eq_false_iff_ne]
  rintro rfl
  exact absurd (isSuffix _ member) (by decide)

theorem IsSuffix.not_sign {text : Bytes} (isSuffix : IsSuffix text) :
    ∀ b ∈ text, Byte.isAmong "+-" b = false := by
  intro b member
  apply Bool.eq_false_iff.mpr
  intro sign
  have other := not_isSuffix_of_isSign sign
  rw [isSuffix b member] at other
  cases other

/-- The one dot of a number opens its fraction. -/
theorem IsNumeral.dots {text : Bytes} (numeral : IsNumeral radix text) :
    text.Sole (· == Byte.dot) fun _ after => after.head?.any radix.isDigit = true := by
  obtain ⟨front, fraction, exponent, suffix, rfl, isFront, isFraction, isExponent, isSuffix⟩ := numeral.parts
  have inExponent : ∀ c ∈ exponent, (c == Byte.dot) = false := by
    intro c member
    rw [beq_eq_false_iff_ne]
    rintro rfl
    exact absurd (isExponent.mem member) (by decide)
  have behind := List.forall_mem_append.mpr ⟨inExponent, isSuffix.not_dot⟩
  cases isFraction with
  | absent => exact .none (List.forall_mem_append.mpr ⟨isFront.not_dot, behind⟩)
  | present allowed isDigits =>
      have inDigits := isDigits.isRun.isSuffix.not_dot
      apply Bytes.Sole.one
      · cases isDigits with
        | cons first others => exact first
      · exact List.forall_mem_append.mpr ⟨isFront.not_dot, List.forall_mem_append.mpr ⟨inDigits, behind⟩⟩

/-- The one sign of a number stands in its exponent. -/
theorem IsNumeral.signs {text : Bytes} (numeral : IsNumeral radix text) :
    text.Sole (Byte.isAmong "+-") fun before after =>
      before.getLast?.any radix.isExponentMark = true ∧ after.head?.any Byte.isDigit = true := by
  obtain ⟨front, fraction, exponent, suffix, rfl, isFront, isFraction, isExponent, isSuffix⟩ := numeral.parts
  have inFraction : ∀ c ∈ fraction, Byte.isAmong "+-" c = false := by
    intro c member
    rcases isFraction.mem member with word | rfl
    · apply Bool.eq_false_iff.mpr
      intro sign
      rw [not_isSuffix_of_isSign sign] at word
      cases word
    · decide
  have before := List.forall_mem_append.mpr ⟨isFront.not_sign, inFraction⟩
  cases isExponent with
  | absent =>
      rw [List.nil_append, ← List.append_assoc]
      exact .none (List.forall_mem_append.mpr ⟨before, isSuffix.not_sign⟩)
  | @present mark sign digits marked signed isDigits =>
      have inMark : ∀ c ∈ [mark], Byte.isAmong "+-" c = false := by
        have word : IsSuffix [mark] := List.forall_mem_singleton.mpr (isSuffix_of_isExponentMark marked)
        exact word.not_sign
      have upTo := List.forall_mem_append.mpr ⟨before, inMark⟩
      have behind := List.forall_mem_append.mpr ⟨isDigits.isRun.isSuffix.not_sign, isSuffix.not_sign⟩
      have shape : front ++ (fraction ++ (mark :: (sign ++ digits) ++ suffix)) =
          front ++ fraction ++ [mark] ++ (sign ++ (digits ++ suffix)) := by
        simp
      rw [shape]
      cases signed with
      | absent => exact .none (List.forall_mem_append.mpr ⟨upTo, behind⟩)
      | present sign =>
          apply Bytes.Sole.one
          · constructor
            · simpa using marked
            · cases isDigits with
              | cons first others => exact first
          · exact List.forall_mem_append.mpr ⟨upTo, behind⟩

/-! ## Reading the parts -/

theorem isRun_take (radix : Radix) (rest : Bytes) : IsRun radix (rest.take (digitsLength radix rest)) := by
  have same := List.prefix_iff_eq_take.mp
    (List.takeWhile_prefix (l := rest) fun b => radix.isDigit b || b == Byte.underscore)
  intro b member
  unfold digitsLength at member
  rw [← same] at member
  simpa using List.mem_takeWhile_imp member

theorem isDigits_take {digit : UInt8} (first : radix.isDigit digit = true) (rest : Bytes) :
    IsDigits radix ((digit :: rest).take (digitsLength radix (digit :: rest))) := by
  have positive : 0 < digitsLength radix (digit :: rest) := digitsLength_pos first
  have isRun := isRun_take radix (digit :: rest)
  obtain ⟨count, same⟩ := Nat.exists_eq_add_one_of_ne_zero (Nat.ne_of_gt positive)
  rw [same, List.take_succ_cons] at isRun ⊢
  exact .cons first (List.forall_mem_cons.mp isRun).2

theorem isFraction_take (radix : Radix) (rest : Bytes) :
    IsFraction radix (rest.take (fractionLength radix rest)) := by
  fun_cases fractionLength radix rest with
  | case1 dot digit more starts =>
      simp only [Bool.and_eq_true, beq_iff_eq] at starts
      obtain ⟨⟨allowed, rfl⟩, first⟩ := starts
      rw [Nat.add_comm, List.take_succ_cons]
      exact .present allowed (isDigits_take first more)
  | case2 | case3 => exact .absent

theorem isSign_take (rest : Bytes) : IsSign (rest.take (signLength rest)) := by
  fun_cases signLength rest with
  | case1 b more sign => exact .present sign
  | case2 | case3 => exact .absent

theorem isExponent_take (radix : Radix) (rest : Bytes) :
    IsExponent radix (rest.take (exponentLength radix rest)) := by
  fun_cases exponentLength radix rest with
  | case1 mark more digits starts =>
      obtain ⟨marked, decimal⟩ := Bool.and_eq_true_iff.mp starts
      have isDigits : IsDigits .decimal (digits.take (digitsLength .decimal digits)) := by
        cases here : digits with
        | nil =>
            rw [here] at decimal
            cases decimal
        | cons digit rest =>
            rw [here] at decimal
            have first : Radix.decimal.isDigit digit = true := decimal
            exact isDigits_take first rest
      rw [Nat.add_assoc, Nat.add_comm, List.take_succ_cons, List.take_add]
      exact .present marked (isSign_take more) isDigits
  | case2 | case3 => exact .absent

theorem isSuffix_take (rest : Bytes) : IsSuffix (rest.take (suffixLength rest)) := by
  have same := List.prefix_iff_eq_take.mp (List.takeWhile_prefix (l := rest) Byte.isSuffix)
  intro b member
  unfold suffixLength at member
  rw [← same] at member
  exact List.mem_takeWhile_imp member

/-- Whatever stands at the front of a text is taken part by part. -/
theorem exists_parts (rest : Bytes) :
    ∃ whole fraction exponent suffix,
      rest.take (length rest) =
        rest.take (Radix.ofFront rest).markLength ++ (whole ++ (fraction ++ (exponent ++ suffix))) ∧
      IsRun (Radix.ofFront rest) whole ∧ IsFraction (Radix.ofFront rest) fraction ∧
      IsExponent (Radix.ofFront rest) exponent ∧ IsSuffix suffix := by
  unfold length
  dsimp only
  rw [List.take_add, List.take_add, List.take_add, List.take_add]
  simp only [List.append_assoc]
  exact ⟨_, _, _, _, rfl, isRun_take _ _, isFraction_take _ _, isExponent_take _ _, isSuffix_take _⟩

end Number

/-- The letters that select a radix behind a zero. -/
def Radix.letters : Radix → String
  | binary => "bB"
  | octal => "oO"
  | decimal => ""
  | hexadecimal => "xX"

theorem Radix.ofFront_of_short {text : Bytes} (short : ¬2 ≤ text.length) : ofFront text = .decimal := by
  rcases text with _ | ⟨b, _ | ⟨c, more⟩⟩
  · rfl
  · rfl
  · exact absurd (Nat.le_add_left 2 more.length) short

theorem Radix.take_markLength (rest : Bytes) (marked : ofFront rest ≠ .decimal) :
    ∃ letter, rest.take (ofFront rest).markLength = [0x30, letter] ∧
      Byte.isAmong (ofFront rest).letters letter = true := by
  have front {zero letter : UInt8} {more : Bytes} (starts : ¬(zero != 0x30) = true) :
      (zero :: letter :: more).take 2 = [0x30, letter] := by
    obtain rfl : zero = 0x30 := by simpa using starts
    rfl
  revert marked
  fun_cases ofFront rest with
  | case1 | case5 | case6 => exact fun marked => absurd rfl marked
  | case2 zero letter more starts among => exact fun _ => ⟨letter, front starts, among⟩
  | case3 zero letter more starts _ among => exact fun _ => ⟨letter, front starts, among⟩
  | case4 zero letter more starts _ _ among => exact fun _ => ⟨letter, front starts, among⟩

namespace Number

theorem IsFraction.eq_nil {fraction : Bytes} (isFraction : IsFraction radix fraction)
    (declined : radix.hasFraction = false) : fraction = [] := by
  cases isFraction with
  | absent => rfl
  | present allowed => cases declined.symm.trans allowed

theorem IsExponent.eq_nil {exponent : Bytes} (isExponent : IsExponent radix exponent)
    (declined : radix.hasFraction = false) : exponent = [] := by
  cases isExponent with
  | absent => rfl
  | present marked =>
      cases radix with
      | decimal | hexadecimal => cases declined
      | binary | octal => cases marked

theorem markLength_le (rest : Bytes) : (Radix.ofFront rest).markLength ≤ length rest := by
  unfold length
  dsimp only
  omega

/-- A number and the text it is the front of select the same radix. -/
theorem ofFront_take (rest : Bytes) : Radix.ofFront (rest.take (length rest)) = Radix.ofFront rest := by
  by_cases long : 2 ≤ (rest.take (length rest)).length
  · have same := ofFront_append long (rest.drop (length rest))
    rw [List.take_append_drop] at same
    exact same.symm
  · rw [Radix.ofFront_of_short long]
    by_contra other
    obtain ⟨letter, mark, _⟩ := Radix.take_markLength rest (Ne.symm other)
    have width := congrArg List.length mark
    have within := markLength_le rest
    rw [List.length_take, List.length_cons, List.length_singleton] at width
    rw [List.length_take] at long
    omega

theorem isNumeral_take {afterOperand : Bool} {rest : Bytes} (starts : starts afterOperand rest = true) :
    IsNumeral (Radix.ofFront rest) (rest.take (length rest)) := by
  obtain ⟨whole, fraction, exponent, suffix, parts, isRun, isFraction, isExponent, isSuffix⟩ := exists_parts rest
  have mark := Radix.take_markLength rest
  cases radix : Radix.ofFront rest with
  | decimal =>
      rw [radix] at parts isRun isFraction isExponent
      have positive := length_pos starts
      obtain ⟨count, same⟩ := Nat.exists_eq_add_one_of_ne_zero (Nat.ne_of_gt positive)
      cases rest with
      | nil => cases starts
      | cons b rest =>
          have first : Byte.isDigit b = true ∨ b = Byte.dot := by
            rcases Bool.or_eq_true_iff.mp starts with digit | dotted
            · exact .inl digit
            · simp only [Bool.and_eq_true, beq_iff_eq] at dotted
              exact .inr dotted.1.1
          rw [same, List.take_succ_cons] at parts ⊢
          exact .decimal first isRun isFraction isExponent isSuffix parts
  | hexadecimal =>
      rw [radix] at parts isRun isFraction isExponent mark
      obtain ⟨letter, front, among⟩ := mark (by decide)
      rw [parts, front, List.cons_append, List.singleton_append]
      exact .hexadecimal among isRun isFraction isExponent isSuffix
  | octal =>
      rw [radix] at parts isRun isFraction isExponent mark
      obtain ⟨letter, front, among⟩ := mark (by decide)
      rw [parts, front, isFraction.eq_nil rfl, isExponent.eq_nil rfl]
      exact .octal among (isRun.isSuffix.append isSuffix)
  | binary =>
      rw [radix] at parts isRun isFraction isExponent mark
      obtain ⟨letter, front, among⟩ := mark (by decide)
      rw [parts, front, isFraction.eq_nil rfl, isExponent.eq_nil rfl]
      exact .binary among (isRun.isSuffix.append isSuffix)

/-- A number is at least its whole part and its fraction. -/
theorem whole_le_length (rest : Bytes) {radix : Radix} (front : Radix.ofFront rest = radix) {whole : Nat}
    (run : radix.markLength + digitsLength radix (rest.drop radix.markLength) = whole) :
    whole + fractionLength radix (rest.drop whole) ≤ length rest := by
  unfold length
  dsimp only
  rw [front, run]
  omega

/-- Behind digits alone a dot and a digit would have been taken as a fraction. -/
theorem not_isDigit_behind_run {rest more : Bytes} {digit : UInt8} (front : Radix.ofFront rest = radix)
    (allowed : radix.hasFraction = true)
    (isRun : IsRun radix ((rest.take (length rest)).drop radix.markLength))
    (behind : rest.drop (length rest) = Byte.dot :: digit :: more) : radix.isDigit digit = false := by
  apply Bool.eq_false_iff.mpr
  intro isDigit
  have mark : radix.markLength ≤ length rest := front ▸ markLength_le rest
  have fits : length rest ≤ rest.length := (length_cut rest).fits
  -- The run stops at the dot, so it is the whole part.
  have run : radix.markLength + digitsLength radix (rest.drop radix.markLength) = length rest := by
    have split : rest.drop radix.markLength =
        (rest.take (length rest)).drop radix.markLength ++ Byte.dot :: digit :: more := by
      rw [← behind, ← List.drop_append_of_le_length (by rw [List.length_take]; omega), List.take_append_drop]
    have stopped : ∀ b ∈ (Byte.dot :: digit :: more).head?,
        (radix.isDigit b || b == Byte.underscore) = false := by
      intro b member
      cases member
      cases radix <;> rfl
    have all : ((rest.take (length rest)).drop radix.markLength).takeWhile
        (fun b => radix.isDigit b || b == Byte.underscore) =
          (rest.take (length rest)).drop radix.markLength :=
      List.takeWhile_eq_self_iff.mpr fun b member => by simpa using isRun b member
    rw [digitsLength, split, takeWhile_append_of_other stopped, all, List.length_drop, List.length_take]
    omega
  have bound := whole_le_length rest front run
  rw [behind, fractionLength, allowed, isDigit] at bound
  simp only [BEq.rfl, Bool.and_self, if_true] at bound
  omega

end Number

theorem Lexeme.Leads.length_of_number {language : Language} {context : Context} {b : UInt8} {bs : Bytes}
    {lexeme : Lexeme} (leads : Leads language context b bs lexeme) (number : lexeme.kind = .number) :
    lexeme.length = Number.length (b :: bs) := by
  cases leads with
  | blank | literal | plain => cases number
  | comment visible quote found => cases (comment?_kind found).symm.trans number
  | number => rfl
  | word =>
      rcases identifier_kind language (b :: bs) with kind | kind
      · cases kind.symm.trans number
      · cases kind.symm.trans number
  | mark =>
      rcases mark_kind language (b :: bs) with kind | kind
      · cases kind.symm.trans number
      · cases kind.symm.trans number

/-- Every number of a source is spelled by the grammar of its radix, has a dot only before a digit
and a sign only in its exponent, and ends where neither its suffix nor a fraction could go on. -/
theorem scan_number_grammar {language : Language} {source : Bytes} {token : Token}
    (member : token ∈ scan language source) (number : token.kind = .number) :
    Number.Reads (Radix.ofFront (token.text source)) (token.text source) (source.drop token.stop) := by
  obtain ⟨context, b, bs, lexeme, front, _, leads, kind, stop, text⟩ := scan_reads member
  rw [kind] at number
  have length := leads.length_of_number number
  have numeral := Number.isNumeral_take (leads.begins.number number)
  rw [stop, ← List.drop_drop, front, text, length, Number.ofFront_take]
  exact {
    numeral
    dots := numeral.dots
    signs := numeral.signs
    stops := Number.length_stops (b :: bs)
    whole := fun allowed isRun digit more behind => Number.not_isDigit_behind_run rfl allowed isRun behind }

/-- A hexadecimal number with a fraction, an exponent and a suffix, before a member. -/
theorem scan_number_grammar_hexadecimal :
    ⟨.number, 1, 12⟩ ∈ scan (.ofSpec { name := "" }) (Text.bytes "-0xA_.8p-3fL.e") ∧
      Number.Reads .hexadecimal (Text.bytes "0xA_.8p-3fL") (Text.bytes ".e") := by
  have member : ⟨.number, 1, 12⟩ ∈ scan (.ofSpec { name := "" }) (Text.bytes "-0xA_.8p-3fL.e") := by
    decide +kernel
  exact ⟨member, scan_number_grammar member rfl⟩

example : (scan (.ofSpec { name := "" }) (Text.bytes "1.max 1e+x 0b1.1 0x.8")).map Token.kind =
    [.number, .punctuation, .ident, .whitespace, .number, .punctuation, .ident, .whitespace, .number,
      .punctuation, .number, .whitespace, .number] := by
  decide +kernel

end CodeTint
