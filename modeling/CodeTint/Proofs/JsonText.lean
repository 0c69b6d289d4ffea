import CodeTint.Proofs.Document
import CodeTint.Proofs.JsonScan

/-!
# The symbols of JSON

A symbol of JSON is a structural character, a string, a number or a literal name;
each carries the proof that it is spelled as JSON spells it. The scanner that cuts
settings documents reads every symbol as a piece, or a negative number as two, up
to the text that follows: for a number or a name this has to start with a byte
that ends words.
-/

namespace CodeTint.Jsonc

open Document (piecesFrom cleanPieces closesNext literal)

/-- What may stand between the quotes of a string. -/
inductive Body : List Char → Prop
  | nil : Body []
  | plain {c : Char} {rest : List Char} (visible : 0x20 ≤ c.toNat) (quote : c ≠ '"') (slash : c ≠ '\\') :
      Body rest → Body (c :: rest)
  | escape {c : Char} {rest : List Char} (letter : c ∈ ['"', '\\', '/', 'b', 'f', 'n', 'r', 't']) :
      Body rest → Body ('\\' :: c :: rest)
  | code {digits rest : List Char} (width : digits.length = 4)
      (hexadecimal : ∀ d ∈ digits, (JsonToken.hexDigit? d).isSome = true) :
      Body rest → Body ('\\' :: 'u' :: (digits ++ rest))

/-- One decimal digit or more. -/
structure Digits where
  text : List Char
  nonempty : text ≠ []
  decimal : ∀ c ∈ text, c.isDigit = true

structure Exponent where
  mark : Char
  letter : mark = 'e' ∨ mark = 'E'
  sign : List Char
  signed : sign = [] ∨ sign = ['+'] ∨ sign = ['-']
  digits : Digits

def Exponent.text (exponent : Exponent) : List Char :=
  exponent.mark :: (exponent.sign ++ exponent.digits.text)

structure Numeral where
  negative : Bool
  whole : Digits
  /-- A zero in front stands alone. -/
  zero : whole.text.head? = some '0' → whole.text = ['0']
  fraction : Option Digits
  exponent : Option Exponent

namespace Numeral

def fractionText (numeral : Numeral) : List Char :=
  numeral.fraction.elim [] fun digits => '.' :: digits.text

def exponentText (numeral : Numeral) : List Char :=
  numeral.exponent.elim [] Exponent.text

/-- The number without its sign. -/
def unsigned (numeral : Numeral) : List Char :=
  numeral.whole.text ++ (numeral.fractionText ++ numeral.exponentText)

def text (numeral : Numeral) : List Char :=
  if numeral.negative then '-' :: numeral.unsigned else numeral.unsigned

end Numeral

inductive Symbol
  | openBrace
  | closeBrace
  | openBracket
  | closeBracket
  | colon
  | comma
  | string (body : List Char) (valid : Body body)
  | number (numeral : Numeral)
  | truth (value : Bool)
  | null

namespace Symbol

def text : Symbol → List Char
  | openBrace => ['\x7b']
  | closeBrace => ['\x7d']
  | openBracket => ['[']
  | closeBracket => [']']
  | colon => [':']
  | comma => [',']
  | string body _ => '"' :: (body ++ ['"'])
  | number numeral => numeral.text
  | truth true => ['t', 'r', 'u', 'e']
  | truth false => ['f', 'a', 'l', 's', 'e']
  | null => ['n', 'u', 'l', 'l']

/-- A string, a number or a literal name. -/
def isScalar : Symbol → Bool
  | string _ _ | number _ | truth _ | null => true
  | _ => false

def isClosing : Symbol → Bool
  | closeBrace | closeBracket => true
  | _ => false

def isComma : Symbol → Bool
  | comma => true
  | _ => false

end Symbol

/-! ## Strings -/

theorem not_stops_of_visible {c : Char} (visible : 0x20 ≤ c.toNat) (quote : c ≠ '"') (slash : c ≠ '\\') :
    ∀ b ∈ String.utf8EncodeChar c, literal.stops b = false :=
  Document.not_stops_of_plain quote slash fun feed => by
    rw [feed] at visible
    exact absurd visible (by decide)

theorem extent_body {body : List Char} (valid : Body body) (rest : Bytes) :
    literal.extent (Utf8.encode body ++ 0x22 :: rest) = ⟨(Utf8.encode body).length + 1, false⟩ := by
  induction valid with
  | nil => exact Quoted.extent_stop (by decide) rest
  | plain visible quote slash _ ih =>
      rw [Utf8.encode_cons, List.append_assoc,
        Quoted.extent_append_plain (not_stops_of_visible visible quote slash), ih, Quoted.Extent.after,
        List.length_append, Nat.add_assoc]
  | @escape c body letter _ ih =>
      have ascii : c.toNat < 0x80 := by
        simp only [List.mem_cons, List.not_mem_nil, or_false] at letter
        rcases letter with rfl | rfl | rfl | rfl | rfl | rfl | rfl | rfl <;> decide
      rw [Utf8.encode_cons_ascii (by decide), Utf8.encode_cons_ascii ascii, List.cons_append, List.cons_append]
      change literal.extent (Byte.backslash :: _) = _
      rw [Quoted.extent_escape_cons, ih, Quoted.Extent.after]
      simp only [List.length_cons, Quoted.Extent.mk.injEq, and_true]
      omega
  | @code digits body width hexadecimal _ ih =>
      have plain : ∀ b ∈ Utf8.encode digits, literal.stops b = false := by
        intro b member
        obtain ⟨d, listed, inside⟩ := List.mem_flatMap.mp member
        obtain ⟨visible, quote, slash⟩ := JsonToken.plain_of_hexDigit (hexadecimal d listed)
        exact not_stops_of_visible visible quote slash b inside
      rw [Utf8.encode_cons_ascii (by decide), Utf8.encode_cons_ascii (by decide), Utf8.encode_append,
        List.cons_append, List.cons_append]
      change literal.extent (Byte.backslash :: _) = _
      rw [Quoted.extent_escape_cons, List.append_assoc, Quoted.extent_append_plain plain, ih]
      simp only [Quoted.Extent.after, List.length_cons, List.length_append, Quoted.Extent.mk.injEq, and_true]
      omega

theorem first_string {body : List Char} (valid : Body body) (context : Context) (rest : Bytes) :
    Lexeme.first Document.language context 0x22 (Utf8.encode body ++ 0x22 :: rest) =
      ⟨.string, (Utf8.encode body).length + 2⟩ := by
  rw [Document.first_quote, Document.literal_length, extent_body valid rest]
  simp only [Bool.false_and, Bool.false_eq_true, if_false, Lexeme.mk.injEq, true_and]
  omega

/-! ## Numbers -/

theorem isDigit_ofChar {c : Char} (digit : c.isDigit = true) :
    c.toNat < 0x80 ∧ Byte.isDigit (Byte.ofChar c) = true := by
  simp only [Char.isDigit, Bool.and_eq_true, decide_eq_true_eq] at digit
  have low : 0x30 ≤ c.toNat := digit.1
  have high : c.toNat ≤ 0x39 := digit.2
  have code : (Byte.ofChar c).toNat = c.toNat := Utf8.toNat_byte (by omega)
  refine ⟨by omega, ?_⟩
  simp only [Byte.isDigit, Bool.and_eq_true, decide_eq_true_eq, UInt8.le_iff_toNat_le, code]
  exact ⟨low, high⟩

namespace Digits

def bytes (digits : Digits) : Bytes :=
  digits.text.map Byte.ofChar

theorem encode_text (digits : Digits) : Utf8.encode digits.text = digits.bytes :=
  Utf8.encode_ascii fun c member => (isDigit_ofChar (digits.decimal c member)).1

theorem isDigit_of_mem (digits : Digits) : ∀ b ∈ digits.bytes, Byte.isDigit b = true := by
  intro b member
  obtain ⟨c, listed, rfl⟩ := List.mem_map.mp member
  exact (isDigit_ofChar (digits.decimal c listed)).2

/-- Digits are read up to a byte that is neither a digit nor an underscore. -/
theorem digitsLength_append (digits : Digits) {rest : Bytes}
    (stops : ∀ b ∈ rest.head?, (Radix.decimal.isDigit b || b == Byte.underscore) = false) :
    Number.digitsLength .decimal (digits.bytes ++ rest) = digits.bytes.length := by
  unfold Number.digitsLength
  rw [takeWhile_append_of_other stops, List.takeWhile_eq_self_iff.mpr]
  intro b member
  rw [Bool.or_eq_true]
  exact .inl (digits.isDigit_of_mem b member)

theorem head_bytes (digits : Digits) : ∃ d more, digits.bytes = d :: more ∧ Byte.isDigit d = true := by
  obtain ⟨d, more, same⟩ : ∃ d more, digits.bytes = d :: more :=
    List.exists_cons_of_ne_nil fun empty => digits.nonempty (List.map_eq_nil_iff.mp empty)
  exact ⟨d, more, same, digits.isDigit_of_mem d (same ▸ List.mem_cons_self)⟩

end Digits

theorem not_isSign_of_isDigit {d : UInt8} (digit : Byte.isDigit d = true) : Byte.isAmong "+-" d = false := by
  have all : ∀ n < 0x80, Byte.isDigit (UInt8.ofNat n) = true → Byte.isAmong "+-" (UInt8.ofNat n) = false := by
    decide
  have here := all d.toNat (Byte.ascii_of_isDigit digit)
  rw [UInt8.ofNat_toNat] at here
  exact here digit

/-- The sign of an exponent is taken whole. -/
theorem Exponent.signLength_bytes (exponent : Exponent) :
    Number.signLength (exponent.sign.map Byte.ofChar ++ exponent.digits.bytes) = exponent.sign.length := by
  obtain ⟨d, more, same, digit⟩ := exponent.digits.head_bytes
  rcases exponent.signed with sign | sign | sign
  · rw [sign, same]
    simp only [List.map_nil, List.nil_append, Number.signLength, not_isSign_of_isDigit digit,
      Bool.false_eq_true, if_false, List.length_nil]
  · rw [sign]
    rfl
  · rw [sign]
    rfl

namespace Numeral

variable (numeral : Numeral)

def fractionBytes : Bytes :=
  numeral.fraction.elim [] fun digits => Byte.dot :: digits.bytes

def exponentBytes : Bytes :=
  numeral.exponent.elim [] fun exponent =>
    Byte.ofChar exponent.mark :: (exponent.sign.map Byte.ofChar ++ exponent.digits.bytes)

def bytes : Bytes :=
  numeral.whole.bytes ++ (numeral.fractionBytes ++ numeral.exponentBytes)

theorem encode_unsigned : Utf8.encode numeral.unsigned = numeral.bytes := by
  have fraction : Utf8.encode numeral.fractionText = numeral.fractionBytes := by
    unfold fractionText fractionBytes
    cases numeral.fraction with
    | none => rfl
    | some digits =>
        change Utf8.encode ('.' :: digits.text) = _
        rw [Utf8.encode_cons_ascii (by decide), digits.encode_text]
        rfl
  have exponent : Utf8.encode numeral.exponentText = numeral.exponentBytes := by
    unfold exponentText exponentBytes
    cases numeral.exponent with
    | none => rfl
    | some exponent =>
        have mark : exponent.mark.toNat < 0x80 := by
          rcases exponent.letter with same | same <;> rw [same] <;> decide
        have sign : Utf8.encode exponent.sign = exponent.sign.map Byte.ofChar := by
          rcases exponent.signed with same | same | same <;> rw [same] <;> rfl
        change Utf8.encode (exponent.mark :: (exponent.sign ++ exponent.digits.text)) = _
        rw [Utf8.encode_cons_ascii mark, Utf8.encode_append, sign, exponent.digits.encode_text]
        rfl
  rw [unsigned, bytes, Utf8.encode_append, Utf8.encode_append, numeral.whole.encode_text, fraction, exponent]

/-- An exponent starts with its mark. -/
theorem head_exponentBytes : ∀ b ∈ numeral.exponentBytes.head?, b = 0x65 ∨ b = 0x45 := by
  unfold exponentBytes
  cases numeral.exponent with
  | none => intro b member; cases member
  | some exponent =>
      intro b member
      cases member
      rcases exponent.letter with same | same
      · exact .inl (by rw [same]; rfl)
      · exact .inr (by rw [same]; rfl)

/-- What follows the whole part starts with a dot or a mark. -/
theorem head_after_whole :
    ∀ b ∈ (numeral.fractionBytes ++ numeral.exponentBytes).head?, b = Byte.dot ∨ b = 0x65 ∨ b = 0x45 := by
  have later := numeral.head_exponentBytes
  unfold fractionBytes
  cases numeral.fraction with
  | none => exact fun b member => .inr (later b member)
  | some digits =>
      intro b member
      cases member
      exact .inl rfl

theorem not_digit_of_mark {b : UInt8} (mark : b = Byte.dot ∨ b = 0x65 ∨ b = 0x45) :
    (Radix.decimal.isDigit b || b == Byte.underscore) = false := by
  rcases mark with rfl | rfl | rfl <;> decide

theorem exponentLength_bytes :
    Number.exponentLength .decimal numeral.exponentBytes = numeral.exponentBytes.length := by
  unfold exponentBytes
  cases numeral.exponent with
  | none => rfl
  | some exponent =>
      have mark : Radix.decimal.isExponentMark (Byte.ofChar exponent.mark) = true := by
        rcases exponent.letter with same | same <;> rw [same] <;> decide
      obtain ⟨d, more, same, digit⟩ := exponent.digits.head_bytes
      have width : (exponent.sign.map Byte.ofChar).length = exponent.sign.length := List.length_map _
      have run : Number.digitsLength .decimal (exponent.digits.bytes ++ []) = exponent.digits.bytes.length :=
        exponent.digits.digitsLength_append fun b member => by cases member
      rw [List.append_nil] at run
      simp only [Option.elim_some, Number.exponentLength, exponent.signLength_bytes, ← width, List.drop_left,
        mark, run, Bool.true_and, List.length_cons, List.length_append]
      rw [if_pos]
      · omega
      · rw [same]
        exact digit

theorem fractionLength_bytes :
    Number.fractionLength .decimal (numeral.fractionBytes ++ numeral.exponentBytes) =
      numeral.fractionBytes.length := by
  have later := numeral.head_exponentBytes
  unfold fractionBytes
  cases numeral.fraction with
  | none =>
      change Number.fractionLength .decimal numeral.exponentBytes = 0
      match numeral.exponentBytes, later with
      | [], _ | [_], _ => rfl
      | b :: c :: rest, later =>
          have dot : (b == Byte.dot) = false := by
            rcases later b rfl with rfl | rfl <;> decide
          simp only [Number.fractionLength, dot, Bool.and_false, Bool.false_and, Bool.false_eq_true, if_false]
  | some digits =>
      have run := digits.digitsLength_append
        (fun b member => not_digit_of_mark (.inr (later b member)))
      obtain ⟨d, more, same, digit⟩ := digits.head_bytes
      have first : Radix.decimal.isDigit d = true := digit
      change Number.fractionLength .decimal (Byte.dot :: (digits.bytes ++ numeral.exponentBytes)) = _
      rw [same] at run ⊢
      simp only [List.cons_append, Number.fractionLength, first, Radix.hasFraction, BEq.rfl, Bool.and_self,
        if_true, Option.elim_some, List.length_cons] at run ⊢
      have width := congrArg List.length same
      rw [List.length_cons] at width
      rw [run]
      omega

/-- A zero in front is the whole part. -/
theorem whole_of_zero {more : Bytes} (zero : numeral.whole.bytes = 0x30 :: more) : more = [] := by
  unfold Digits.bytes at zero
  cases textEq : numeral.whole.text with
  | nil => exact absurd textEq numeral.whole.nonempty
  | cons c text =>
      rw [textEq, List.map_cons] at zero
      obtain ⟨head, tail⟩ := List.cons.inj zero
      have digit := numeral.whole.decimal c (by rw [textEq]; exact List.mem_cons_self)
      have code : (Byte.ofChar c).toNat = c.toNat :=
        Utf8.toNat_byte (Nat.lt_trans (isDigit_ofChar digit).1 (by decide))
      have same : c = '0' := by
        rw [head] at code
        exact Char.toNat_inj.mp code.symm
      have alone := numeral.zero (by rw [textEq, same]; rfl)
      rw [textEq] at alone
      rw [← tail, (List.cons.inj alone).2]
      rfl

/-- No number has a radix mark: a zero in front has no letter behind it but that of an exponent. -/
theorem ofFront_bytes : Radix.ofFront numeral.bytes = .decimal := by
  have behind := numeral.head_after_whole
  obtain ⟨d, more, same, digit⟩ := numeral.whole.head_bytes
  by_cases zero : d = 0x30
  · subst zero
    rw [bytes, same, numeral.whole_of_zero same]
    cases rest : numeral.fractionBytes ++ numeral.exponentBytes with
    | nil => rfl
    | cons b rest' =>
        rw [rest] at behind
        rcases behind b rfl with rfl | rfl | rfl <;> rfl
  · rw [bytes, same, List.cons_append]
    cases more ++ (numeral.fractionBytes ++ numeral.exponentBytes) with
    | nil => rfl
    | cons b rest => rw [Radix.ofFront, if_pos (bne_iff_ne.mpr zero)]

/-- The scanner takes the whole number. -/
theorem length_bytes : Number.length numeral.bytes = numeral.bytes.length := by
  have whole : Number.digitsLength .decimal numeral.bytes = numeral.whole.bytes.length :=
    numeral.whole.digitsLength_append fun b member => not_digit_of_mark (numeral.head_after_whole b member)
  unfold Number.length
  dsimp only
  rw [numeral.ofFront_bytes]
  simp only [Radix.markLength, List.drop_zero, Nat.zero_add, whole]
  unfold bytes
  rw [List.drop_left, numeral.fractionLength_bytes, List.drop_length_add_append, List.drop_left,
    numeral.exponentLength_bytes]
  have all : numeral.whole.bytes.length + numeral.fractionBytes.length + numeral.exponentBytes.length =
      (numeral.whole.bytes ++ (numeral.fractionBytes ++ numeral.exponentBytes)).length := by
    simp only [List.length_append]
    omega
  rw [all, List.drop_length]
  rfl

theorem head_bytes (numeral : Numeral) :
    ∃ d more, numeral.bytes = d :: more ∧ Byte.isDigit d = true := by
  obtain ⟨d, more, same, digit⟩ := numeral.whole.head_bytes
  exact ⟨d, more ++ (numeral.fractionBytes ++ numeral.exponentBytes), by rw [bytes, same]; rfl, digit⟩

end Numeral

/-- Digits are neither blank nor a quote or a slash. -/
theorem classes_of_isDigit {d : UInt8} (digit : Byte.isDigit d = true) :
    Byte.isBlank d = false ∧ (d == 0x22) = false ∧ d ≠ 0x2F := by
  have all : ∀ n < 0x80, Byte.isDigit (UInt8.ofNat n) = true →
      Byte.isBlank (UInt8.ofNat n) = false ∧ (UInt8.ofNat n == 0x22) = false ∧ UInt8.ofNat n ≠ 0x2F := by
    decide
  have here := all d.toNat (Byte.ascii_of_isDigit digit)
  rw [UInt8.ofNat_toNat] at here
  exact here digit

theorem piecesFrom_number (numeral : Numeral) {rest : Bytes} (ends : rest.EndsWord) (afterOperand : Bool) :
    piecesFrom afterOperand (numeral.bytes ++ rest) =
      ⟨.number, numeral.bytes⟩ :: piecesFrom true rest := by
  obtain ⟨d, more, same, digit⟩ := numeral.head_bytes
  obtain ⟨blank, quote, slash⟩ := classes_of_isDigit digit
  have ascii := Byte.ascii_of_isDigit digit
  have length : Number.length (d :: (more ++ rest)) = (d :: more).length := by
    rw [← List.cons_append, Number.length_append_of_ends ends, ← same, numeral.length_bytes]
  rw [same]
  refine Document.piecesFrom_append ?_
  rw [← length]
  refine (Lexeme.Leads.number ?_ ?_ ?_ ?_).first_eq
  · rw [Document.startsWith_isWhiteSpace ascii, blank]
  · rw [Document.isQuote_eq, quote]
  · exact (Document.comment?_eq_none_iff _ _).mpr (Document.opensComment_of_ne slash _)
  · rw [Number.starts, digit, Bool.true_or]

/-! ## Names -/

theorem runLength_letters {name : Bytes} (letters : ∀ c ∈ name, Byte.isLetter c = true) :
    Utf8.runLength Lexeme.isIdentContinue name = name.length := by
  induction name with
  | nil => exact Utf8.runLength_of_undecodable rfl
  | cons b name ih =>
      rw [List.forall_mem_cons] at letters
      have ascii := Byte.ascii_of_isLetter letters.1
      have continues : Lexeme.isIdentContinue (Char.ofNat b.toNat) = true := by
        rw [← Indexed.CharClass.identContinue_agrees.byte b ascii]
        simp [Indexed.CharClass.identContinue, Byte.isIdentContinue, Byte.isIdentStart, letters.1]
      rw [Utf8.runLength_of_decode? (Utf8.decode?_ascii ascii name), if_pos continues, List.drop_succ_cons,
        List.drop_zero, ih letters.2, List.length_cons, Nat.add_comm]

/-- Letters are neither blank nor a quote, a slash, a digit or a dot. -/
theorem classes_of_isLetter {b : UInt8} (letter : Byte.isLetter b = true) :
    Byte.isBlank b = false ∧ (b == 0x22) = false ∧ b ≠ 0x2F ∧ Byte.isDigit b = false ∧
      (b == Byte.dot) = false := by
  have all : ∀ n < 0x80, Byte.isLetter (UInt8.ofNat n) = true →
      Byte.isBlank (UInt8.ofNat n) = false ∧ (UInt8.ofNat n == 0x22) = false ∧ UInt8.ofNat n ≠ 0x2F ∧
        Byte.isDigit (UInt8.ofNat n) = false ∧ (UInt8.ofNat n == Byte.dot) = false := by
    decide
  have here := all b.toNat (Byte.ascii_of_isLetter letter)
  rw [UInt8.ofNat_toNat] at here
  exact here letter

/-- A run of ASCII letters is a piece. -/
theorem piecesFrom_name {b : UInt8} {name rest : Bytes} (letters : ∀ c ∈ b :: name, Byte.isLetter c = true)
    (ends : rest.EndsWord) (afterOperand : Bool) :
    piecesFrom afterOperand (b :: name ++ rest) =
      ⟨.ident, b :: name⟩ :: piecesFrom true rest := by
  have letter := letters b List.mem_cons_self
  have ascii := Byte.ascii_of_isLetter letter
  obtain ⟨blank, quote, slash, digit, dot⟩ := classes_of_isLetter letter
  have length : Utf8.runLength Lexeme.isIdentContinue (b :: (name ++ rest)) = (b :: name).length := by
    rw [← List.cons_append, Document.runLength_append_of_ends ends, runLength_letters letters]
  refine Document.piecesFrom_append ?_
  rw [← length, ← Document.identifier_eq]
  refine (Lexeme.Leads.word ?_ ?_ ?_ ?_ ?_).first_eq
  · rw [Document.startsWith_isWhiteSpace ascii, blank]
  · rw [Document.isQuote_eq, quote]
  · exact (Document.comment?_eq_none_iff _ _).mpr (Document.opensComment_of_ne slash _)
  · rw [Number.starts, digit, dot]
    rfl
  · rw [Document.startsWith_isIdentStart ascii, Byte.isIdentStart, letter]
    rfl

/-! ## Symbols -/

theorem piecesFrom_mark {b : UInt8} (mark : Byte.isMark b = true) (slash : b ≠ 0x2F) (dot : b ≠ Byte.dot)
    (afterOperand : Bool) (rest : Bytes) :
    ∃ operand, piecesFrom afterOperand (b :: rest) = ⟨.punctuation, [b]⟩ :: piecesFrom operand rest := by
  have first : Lexeme.first Document.language ⟨afterOperand, true⟩ b ([] ++ rest) = ⟨.punctuation, [b].length⟩ :=
    Document.first_mark mark slash dot ⟨afterOperand, true⟩ rest
  exact ⟨_, Document.piecesFrom_append first⟩

/-- The pieces `longer` are those of the symbol before the pieces `shorter`: cleaning keeps the
symbol, but for a comma before a closing bracket. -/
structure Leads (symbol : Symbol) (longer shorter : List Piece) : Prop where
  cleaned : cleanPieces longer =
    (if symbol.isComma && closesNext shorter then [] else Utf8.encode symbol.text) ++ cleanPieces shorter
  closes : closesNext longer = symbol.isClosing

/-- A symbol that is one piece, or the first of two, and no comma. -/
theorem Leads.of_piece {symbol : Symbol} {kind : Kind} {text more : Bytes} {longer shorter : List Piece}
    (visible : kind.isTrivia = false) (comma : symbol.isComma = false)
    (other : (⟨kind, text⟩ : Piece) ≠ ⟨.punctuation, [0x2C]⟩)
    (closing : (text == [0x7D] || text == [0x5D]) = symbol.isClosing)
    (whole : Utf8.encode symbol.text = text ++ more)
    (rest : cleanPieces longer = more ++ cleanPieces shorter) :
    Leads symbol (⟨kind, text⟩ :: longer) shorter where
  cleaned := by
    have code : kind ≠ .comment := by
      rintro rfl
      cases visible
    rw [Document.cleanPieces_kept code fun same => absurd same other, rest, comma, whole]
    exact (List.append_assoc _ _ _).symm
  closes := by rw [Document.closesNext_visible visible, closing]

theorem leads_mark {symbol : Symbol} {b : UInt8} (text : Utf8.encode symbol.text = [b])
    (mark : Byte.isMark b = true) (slash : b ≠ 0x2F) (dot : b ≠ Byte.dot)
    (comma : symbol.isComma = (b == 0x2C)) (closing : ([b] == [0x7D] || [b] == [0x5D]) = symbol.isClosing)
    (afterOperand : Bool) (rest : Bytes) :
    ∃ operand, Leads symbol (piecesFrom afterOperand (Utf8.encode symbol.text ++ rest))
      (piecesFrom operand rest) := by
  obtain ⟨operand, cut⟩ := piecesFrom_mark mark slash dot afterOperand rest
  refine ⟨operand, ?_, ?_⟩
  · rw [text, List.singleton_append, cut, comma]
    cases same : b == 0x2C with
    | false =>
        rw [Document.cleanPieces_kept Kind.noConfusion]
        · rfl
        · intro piece
          rw [(List.cons.inj (congrArg Piece.text piece)).1] at same
          cases same
    | true =>
        rw [eq_of_beq same]
        cases closes : closesNext (piecesFrom operand rest) with
        | true => exact Document.cleanPieces_dropped closes
        | false => exact Document.cleanPieces_kept Kind.noConfusion fun _ => closes
  · rw [text, List.singleton_append, cut, Document.closesNext_visible rfl, closing]

theorem leads_number (numeral : Numeral) {rest : Bytes} (ends : rest.EndsWord) (afterOperand : Bool) :
    ∃ operand, Leads (.number numeral) (piecesFrom afterOperand (Utf8.encode numeral.text ++ rest))
      (piecesFrom operand rest) := by
  have bare : ∀ bracket : UInt8, Byte.isDigit bracket = false → (numeral.bytes == [bracket]) = false := by
    intro bracket other
    obtain ⟨d, more, same, digit⟩ := numeral.head_bytes
    rw [beq_eq_false_iff_ne, same]
    intro equal
    rw [(List.cons.inj equal).1, other] at digit
    cases digit
  have digits := piecesFrom_number numeral ends
  cases sign : numeral.negative with
  | false =>
      have whole : Utf8.encode numeral.text = numeral.bytes ++ [] := by
        rw [Numeral.text, sign, if_neg Bool.false_ne_true, numeral.encode_unsigned, List.append_nil]
      refine ⟨true, ?_⟩
      rw [whole, List.append_nil, digits]
      refine .of_piece rfl rfl (fun same => ?_) ?_ whole rfl
      · cases congrArg Piece.kind same
      · rw [bare 0x7D rfl, bare 0x5D rfl]
        rfl
  | true =>
      have whole : Utf8.encode numeral.text = [0x2D] ++ numeral.bytes := by
        rw [Numeral.text, sign, if_pos rfl, Utf8.encode_cons_ascii (by decide), numeral.encode_unsigned]
        rfl
      have minus : Byte.isMark 0x2D = true := by decide
      obtain ⟨operand, cut⟩ := piecesFrom_mark minus (by decide) (by decide) afterOperand (numeral.bytes ++ rest)
      refine ⟨true, ?_⟩
      rw [whole, List.append_assoc, List.singleton_append, cut, digits]
      refine .of_piece rfl rfl (by decide) rfl whole ?_
      exact Document.cleanPieces_kept Kind.noConfusion fun same => by cases congrArg Piece.kind same

theorem leads_name {symbol : Symbol} {b : UInt8} {name : Bytes} (text : Utf8.encode symbol.text = b :: name)
    (letters : (b :: name).all Byte.isLetter = true) (comma : symbol.isComma = false)
    (closing : symbol.isClosing = false) {rest : Bytes} (ends : rest.EndsWord) (afterOperand : Bool) :
    ∃ operand, Leads symbol (piecesFrom afterOperand (Utf8.encode symbol.text ++ rest))
      (piecesFrom operand rest) := by
  rw [List.all_eq_true] at letters
  have bare (bracket : UInt8) (other : Byte.isLetter bracket = false) : (b :: name == [bracket]) = false := by
    rw [beq_eq_false_iff_ne]
    intro equal
    have letter := letters b List.mem_cons_self
    rw [(List.cons.inj equal).1, other] at letter
    cases letter
  refine ⟨true, ?_⟩
  rw [text, piecesFrom_name letters ends]
  refine .of_piece rfl comma (fun same => ?_) ?_ (by rw [text, List.append_nil]) rfl
  · cases congrArg Piece.kind same
  · rw [bare 0x7D rfl, bare 0x5D rfl, closing]
    rfl

theorem leads_string {body : List Char} (valid : Body body) (afterOperand : Bool) (rest : Bytes) :
    ∃ operand, Leads (.string body valid)
      (piecesFrom afterOperand (Utf8.encode (Symbol.string body valid).text ++ rest))
      (piecesFrom operand rest) := by
  have text : Utf8.encode (Symbol.string body valid).text = 0x22 :: (Utf8.encode body ++ [0x22]) := by
    rw [Symbol.text, Utf8.encode_cons_ascii (by decide), Utf8.encode_append]
    rfl
  have first := first_string valid ⟨afterOperand, true⟩ rest
  have width : (Utf8.encode body).length + 2 = (0x22 :: (Utf8.encode body ++ [0x22])).length := by
    rw [List.length_cons, List.length_append]
    rfl
  rw [width, List.append_cons] at first
  rw [text, Document.piecesFrom_append first]
  refine ⟨_, .of_piece rfl rfl (fun same => ?_) ?_ (by rw [text, List.append_nil]) rfl⟩
  · cases congrArg Piece.kind same
  · have bare (bracket : UInt8) (other : (0x22 : UInt8) ≠ bracket) :
        (0x22 :: (Utf8.encode body ++ [0x22]) == [bracket]) = false := by
      rw [beq_eq_false_iff_ne]
      exact fun equal => other (List.cons.inj equal).1
    rw [bare 0x7D (by decide), bare 0x5D (by decide)]
    rfl

/-- A symbol before any text, which for a scalar starts with a byte that ends words. -/
theorem leads_symbol (symbol : Symbol) {rest : Bytes} (ends : symbol.isScalar = true → rest.EndsWord)
    (afterOperand : Bool) :
    ∃ operand, Leads symbol (piecesFrom afterOperand (Utf8.encode symbol.text ++ rest))
      (piecesFrom operand rest) := by
  cases symbol with
  | openBrace =>
      exact leads_mark (b := 0x7B) rfl (by decide) (by decide) (by decide) rfl rfl afterOperand rest
  | closeBrace =>
      exact leads_mark (b := 0x7D) rfl (by decide) (by decide) (by decide) rfl rfl afterOperand rest
  | openBracket =>
      exact leads_mark (b := 0x5B) rfl (by decide) (by decide) (by decide) rfl rfl afterOperand rest
  | closeBracket =>
      exact leads_mark (b := 0x5D) rfl (by decide) (by decide) (by decide) rfl rfl afterOperand rest
  | colon =>
      exact leads_mark (b := 0x3A) rfl (by decide) (by decide) (by decide) rfl rfl afterOperand rest
  | comma =>
      exact leads_mark (b := 0x2C) rfl (by decide) (by decide) (by decide) rfl rfl afterOperand rest
  | string body valid => exact leads_string valid afterOperand rest
  | number numeral => exact leads_number numeral (ends rfl) afterOperand
  | truth value =>
      cases value with
      | true => exact leads_name rfl (by decide) rfl rfl (ends rfl) afterOperand
      | false => exact leads_name rfl (by decide) rfl rfl (ends rfl) afterOperand
  | null => exact leads_name rfl (by decide) rfl rfl (ends rfl) afterOperand

end CodeTint.Jsonc
