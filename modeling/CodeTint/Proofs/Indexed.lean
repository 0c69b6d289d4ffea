import CodeTint.Proofs.Scan
import Mathlib.Data.List.TakeWhile

/-!
# Scanning by offsets

The same scan as it runs over one array of bytes: a state holds an offset, and
every byte or slice is read by its offset. A read that does not fit the source
has no result, and then the scan has none either. A step that did not move on
would be forced to take one byte, and one that moved too far would be held at the
end of the source. None of this ever happens: the scan by offsets takes the same
steps as the cursor.
-/

namespace CodeTint.Indexed

open Unicode (isWhiteSpace isXidStart isXidContinue)

/-- The byte before an offset. -/
def byteBefore? (source : Bytes) : Nat → Option UInt8
  | 0 => none
  | offset + 1 => source[offset]?

/-- The source from an offset on. -/
def sliceFrom? (source : Bytes) (offset : Nat) : Option Bytes :=
  if offset ≤ source.length then some (source.drop offset) else none

def slice? (source : Bytes) (start stop : Nat) : Option Bytes :=
  if start ≤ stop ∧ stop ≤ source.length then some ((source.drop start).take (stop - start)) else none

/-- A class of characters, told by the byte if that is ASCII. -/
structure CharClass where
  isByte : UInt8 → Bool
  isChar : Char → Bool

namespace CharClass

def blank : CharClass := ⟨Byte.isBlank, isWhiteSpace⟩

def identStart : CharClass := ⟨Byte.isIdentStart, isXidStart⟩

def identContinue : CharClass := ⟨Byte.isIdentContinue, isXidContinue⟩

/-- A character of the class starts with the byte `b` in front of the text `rest`. -/
def starts (cls : CharClass) (b : UInt8) (rest : Bytes) : Bool :=
  cls.isByte b || (0x80 ≤ b && Utf8.startsWith cls.isChar rest)

/-- Where the run of characters of the class ends that is read up to `offset`. -/
def runEnd? (cls : CharClass) (source : Bytes) (offset : Nat) : Option Nat :=
  if offset < source.length then
    match source[offset]? with
    | none => none
    | some b =>
        if b < 0x80 then
          if cls.isByte b then runEnd? cls source (offset + 1) else some offset
        else
          match _ : Utf8.decode? (source.drop offset) with
          | some (c, width) => if cls.isChar c then runEnd? cls source (offset + width) else some offset
          | none => some offset
  else some offset
termination_by source.length - offset
decreasing_by
  · omega
  · have progress := (Utf8.decode?_width (by assumption)).1
    omega

end CharClass

theorem eq_of_sliceFrom? {source rest : Bytes} {offset : Nat}
    (slice : sliceFrom? source offset = some rest) : rest = source.drop offset := by
  unfold sliceFrom? at slice
  split at slice
  · cases slice
    rfl
  · cases slice

theorem found_lt {isMember : UInt8 → Bool} {source rest : Bytes} {offset found : Nat}
    (slice : sliceFrom? source offset = some rest) (here : rest.findIdx? isMember = some found) :
    offset + found < source.length := by
  obtain rfl := eq_of_sliceFrom? slice
  have bound := (List.findIdx?_eq_some_iff_getElem.mp here).1
  rw [List.length_drop] at bound
  omega

/-- Where the literal that starts at `start` ends; it is read up to `offset`. -/
def literalEnd? (literal : Quoted) (source : Bytes) (start offset : Nat) : Option Nat :=
  match _ : sliceFrom? source offset with
  | none => none
  | some rest =>
      match _ : rest.findIdx? literal.stops with
      | none => some source.length
      | some plain =>
          match source[offset + plain]? with
          | none => none
          | some b =>
              if b == Byte.backslash then
                literalEnd? literal source start (min (offset + plain + 2) source.length)
              else if b == Byte.lineFeed then
                (byteBefore? source (offset + plain)).map fun before =>
                  if before == Byte.carriageReturn && start < offset + plain - 1 then offset + plain - 1
                  else offset + plain
              else if literal.triple then
                match sliceFrom? source (offset + plain) with
                | none => none
                | some tail =>
                    if [literal.quote, literal.quote, literal.quote].isPrefixOf tail then
                      some (offset + plain + 3)
                    else literalEnd? literal source start (offset + plain + 1)
              else some (offset + plain + 1)
termination_by source.length - offset
decreasing_by
  all_goals
    have bound := found_lt (by assumption) (by assumption)
    omega

def literal? (language : Language) (source : Bytes) (quote : UInt8) (offset : Nat) : Option Nat := do
  let rest ← sliceFrom? source offset
  let literal := Quoted.ofFront language.tripleQuotes quote rest
  literalEnd? literal source offset (offset + literal.openLength)

def lineStart? (source : Bytes) (offset : Nat) : Option Bool :=
  if offset = 0 then some true else (byteBefore? source offset).map (· == Byte.lineFeed)

/-- Where the line comment ends that this mark opens at an offset. -/
def lineCommentEnd? (mark : Delimiter) (source : Bytes) (offset : Nat) : Option Nat := do
  let body ← sliceFrom? source (offset + mark.length)
  match body.findIdx? Byte.isLineBreak with
  | some found => return offset + mark.length + found
  | none => return source.length

def blockCommentEnd? (rule : BlockRule) (source : Bytes) (offset : Nat) : Option Nat := do
  let body ← sliceFrom? source (offset + rule.opening.length)
  match Bytes.offsetOf? rule.closing.bytes body with
  | some found => return offset + rule.opening.length + found + rule.closing.length
  | none => return source.length

/-- Where the comment ends that starts at an offset, if one starts there. -/
def comment? (language : Language) (source : Bytes) (offset : Nat) : Option (Option Nat) := do
  let lineStart ← lineStart? source offset
  match language.blockComment? lineStart (source.drop offset) with
  | some rule => return some (← blockCommentEnd? rule source offset)
  | none =>
      match language.lineComment? (source.drop offset) with
      | some mark => return some (← lineCommentEnd? mark source offset)
      | none => return none

def identifier? (language : Language) (source : Bytes) (offset : Nat) : Option (Kind × Nat) := do
  let stop ← CharClass.identContinue.runEnd? source offset
  let lexeme ← slice? source offset stop
  return (if language.isKeyword lexeme then .keyword else .ident, stop)

def mark? (language : Language) (source : Bytes) (offset : Nat) : Option (Kind × Nat) := do
  let rest ← sliceFrom? source offset
  match language.operator? rest with
  | some operator => return (.operator, offset + operator.length)
  | none => return (.punctuation, offset + 1)

/-- What the scan keeps between two tokens. -/
structure State where
  offset : Nat := 0
  lastSignificant : Option Kind := none
  afterOperand : Bool := false
  deriving DecidableEq, Repr

/-- The kind of the next token and the offset behind it. Numbers and plain text look
only at bytes that are there. -/
def token? (language : Language) (source : Bytes) (state : State) : Option (Kind × Nat) := do
  let b ← source[state.offset]?
  let rest := source.drop state.offset
  if CharClass.blank.starts b rest then
    return (.whitespace, ← CharClass.blank.runEnd? source state.offset)
  else if language.isQuote b then
    return (.string, ← literal? language source b state.offset)
  else
    match ← comment? language source state.offset with
    | some stop => return (.comment, stop)
    | none =>
        if Number.starts state.afterOperand rest then
          return (.number, state.offset + Number.length rest)
        else if CharClass.identStart.starts b rest then identifier? language source state.offset
        else if Byte.isMark b then mark? language source state.offset
        else return (.plaintext, state.offset + if 0x80 ≤ b then Utf8.width rest else 1)

/-- A step that does not move on takes one byte as plain text. -/
def forced (start : Nat) (step : Kind × Nat) : Kind × Nat :=
  if step.2 ≤ start then (.plaintext, start + 1) else step

/-- The token can end an operand. -/
def operand? (source : Bytes) (token : Token) : Option Bool :=
  match token.kind with
  | .ident | .number | .string => some true
  | .keyword => some (!isExpressionKeyword (token.text source))
  | .punctuation => (byteBefore? source token.stop).map Byte.isClosingBracket
  | _ => some false

def record? (source : Bytes) (state : State) (token : Token) : Option State :=
  if token.kind.isTrivia then some { state with offset := token.stop }
  else (operand? source token).map fun operand => ⟨token.stop, some token.kind, operand⟩

/-- The next token and the state behind it, unless all is read. -/
def next? (language : Language) (source : Bytes) (state : State) : Option (Option (Token × State)) :=
  if source.length ≤ state.offset then some none
  else do
    let step := forced state.offset (← token? language source state)
    let token : Token := ⟨step.1, state.offset, min step.2 source.length⟩
    return some (token, ← record? source state token)

/-- The tokens that at most so many calls of `next?` give; no result if the source is
not read by then. -/
def run? (language : Language) (source : Bytes) : Nat → State → Option (List Token)
  | 0, _ => none
  | calls + 1, state => do
      match ← next? language source state with
      | none => return []
      | some (token, after) => return token :: (← run? language source calls after)

/-- The states that stepping through a source from its start comes to. -/
inductive Reachable (language : Language) (source : Bytes) : State → Prop
  | start : Reachable language source {}
  | step {state after : State} {token : Token} (reached : Reachable language source state)
      (found : next? language source state = some (some (token, after))) :
      Reachable language source after

/-! ## Reads that fit -/

theorem sliceFrom?_of_le {source : Bytes} {offset : Nat} (within : offset ≤ source.length) :
    sliceFrom? source offset = some (source.drop offset) :=
  if_pos within

theorem slice?_of_le {source : Bytes} {start stop : Nat} (forward : start ≤ stop)
    (within : stop ≤ source.length) :
    slice? source start stop = some ((source.drop start).take (stop - start)) :=
  if_pos ⟨forward, within⟩

theorem byteBefore?_eq {source : Bytes} {offset : Nat} (positive : 0 < offset) :
    byteBefore? source offset = source[offset - 1]? := by
  cases offset with
  | zero => cases positive
  | succ before => rfl

theorem exists_byteBefore? {source : Bytes} {offset : Nat} (positive : 0 < offset)
    (within : offset ≤ source.length) : ∃ b, byteBefore? source offset = some b := by
  rw [byteBefore?_eq positive]
  exact ⟨_, List.getElem?_eq_getElem (by omega)⟩

theorem lineStart?_of_le {source : Bytes} {offset : Nat} (within : offset ≤ source.length) :
    lineStart? source offset = some (Language.isLineStart source offset) := by
  cases offset with
  | zero => rfl
  | succ before =>
      have here := List.getElem?_eq_getElem (l := source) (i := before) within
      rw [lineStart?, if_neg (Nat.succ_ne_zero before), byteBefore?, here, Option.map_some,
        Language.isLineStart, Nat.add_sub_cancel, here]
      rfl

theorem drop_of_getElem? {source : Bytes} {offset : Nat} {b : UInt8} (here : source[offset]? = some b) :
    source.drop offset = b :: source.drop (offset + 1) := by
  obtain ⟨more, rfl⟩ := List.getElem?_eq_some_iff.mp here
  exact List.drop_eq_getElem_cons more

theorem toNat_of_found {source : Bytes} {offset width : Nat} {b : UInt8} {c : Char}
    (here : source[offset]? = some b) (high : ¬b < 0x80)
    (found : Utf8.decode? (source.drop offset) = some (c, width)) : 0x80 ≤ c.toNat := by
  rw [drop_of_getElem? here] at found
  exact Utf8.toNat_of_decode? (Nat.le_of_not_lt fun low => high (UInt8.lt_iff_toNat_lt.mpr low)) found

/-! ## Runs of characters -/

namespace CharClass

/-- The class is that of a predicate on characters. -/
structure Agrees (cls : CharClass) (isMember : Char → Bool) : Prop where
  ascii : ∀ b, cls.isByte b = true → b.toNat < 0x80
  byte : ∀ b : UInt8, b.toNat < 0x80 → cls.isByte b = isMember (Char.ofNat b.toNat)
  char : ∀ c : Char, 0x80 ≤ c.toNat → cls.isChar c = isMember c

theorem starts_eq {cls : CharClass} {isMember : Char → Bool} (agrees : cls.Agrees isMember)
    (b : UInt8) (bs : Bytes) : cls.starts b (b :: bs) = Utf8.startsWith isMember (b :: bs) := by
  unfold starts Utf8.startsWith
  by_cases ascii : b.toNat < 0x80
  · have low : (decide (0x80 ≤ b)) = false := by
      simp [UInt8.le_iff_toNat_le, ascii]
    rw [low, Bool.false_and, Bool.or_false, Utf8.decode?_ascii ascii, agrees.byte b ascii]
  · have high : decide (0x80 ≤ b) = true := by
      simp [UInt8.le_iff_toNat_le]
      omega
    have other : cls.isByte b = false := by
      rw [Bool.eq_false_iff]
      exact fun member => ascii (agrees.ascii b member)
    rw [high, other, Bool.true_and, Bool.false_or]
    split
    · rename_i c width found
      exact agrees.char c (Utf8.toNat_of_decode? (Nat.le_of_not_lt ascii) found)
    · rfl

theorem runEnd?_eq {cls : CharClass} {isMember : Char → Bool} (agrees : cls.Agrees isMember)
    {source : Bytes} {offset : Nat} (within : offset ≤ source.length) :
    cls.runEnd? source offset = some (offset + Utf8.runLength isMember (source.drop offset)) := by
  fun_induction runEnd? cls source offset with
  | case1 offset more absent =>
      rw [List.getElem?_eq_getElem more] at absent
      cases absent
  | case2 offset more b here low member ih =>
      have ascii : b.toNat < 0x80 := UInt8.lt_iff_toNat_lt.mp low
      rw [ih more, drop_of_getElem? here, Utf8.runLength_of_decode? (Utf8.decode?_ascii ascii _),
        if_pos (agrees.byte b ascii ▸ member), List.drop_succ_cons, List.drop_zero, Nat.add_assoc]
  | case3 offset more b here low other =>
      have ascii : b.toNat < 0x80 := UInt8.lt_iff_toNat_lt.mp low
      rw [drop_of_getElem? here, Utf8.runLength_of_decode? (Utf8.decode?_ascii ascii _),
        if_neg (agrees.byte b ascii ▸ other), Nat.add_zero]
  | case4 offset more b here high c width found member ih =>
      have bound := (Utf8.decode?_width found).2
      rw [List.length_drop] at bound
      have large := toNat_of_found here high found
      rw [ih (by omega), Utf8.runLength_of_decode? found, if_pos (agrees.char c large ▸ member),
        List.drop_drop, Nat.add_assoc]
  | case5 offset more b here high c width found other =>
      have large := toNat_of_found here high found
      rw [Utf8.runLength_of_decode? found, if_neg (agrees.char c large ▸ other), Nat.add_zero]
  | case6 offset more b here high absent =>
      rw [Utf8.runLength_of_undecodable absent, Nat.add_zero]
  | case7 offset past =>
      have read : source.drop offset = [] := List.drop_eq_nil_of_le (Nat.le_of_not_lt past)
      rw [read, Utf8.runLength_of_undecodable rfl, Nat.add_zero]

theorem Agrees.of_all {cls : CharClass} {isMember : Char → Bool}
    (ascii : ∀ b, cls.isByte b = true → b.toNat < 0x80)
    (same : ∀ n < 0x80, cls.isByte (UInt8.ofNat n) = isMember (Char.ofNat n))
    (char : ∀ c : Char, 0x80 ≤ c.toNat → cls.isChar c = isMember c) : cls.Agrees isMember := by
  refine ⟨ascii, ?_, char⟩
  intro b low
  have all := same b.toNat low
  rw [UInt8.ofNat_toNat] at all
  exact all

theorem blank_agrees : blank.Agrees isWhiteSpace := by
  refine .of_all ?_ (by decide +kernel) (fun _ _ => rfl)
  intro b member
  simp only [blank, Byte.isBlank, Bool.or_eq_true, beq_iff_eq, Bool.and_eq_true, decide_eq_true_eq,
    UInt8.le_iff_toNat_le] at member
  rcases member with rfl | ⟨_, below⟩
  · decide
  · exact Nat.lt_of_le_of_lt below (by decide)

theorem ascii_of_isIdentStart {b : UInt8} (member : Byte.isIdentStart b = true) : b.toNat < 0x80 := by
  simp only [Byte.isIdentStart, Bool.or_eq_true, beq_iff_eq] at member
  rcases member with (letter | rfl) | rfl
  · exact Byte.ascii_of_isLetter letter
  · decide
  · decide

/-- The two ASCII characters that are no letters belong to no other class. -/
theorem ne_of_large {c d : Char} (large : 0x80 ≤ c.toNat) (small : d.toNat < 0x80) : (c == d) = false := by
  rw [beq_eq_false_iff_ne]
  rintro rfl
  omega

theorem inRanges_ascii {ranges : List (Nat × Nat)} {c : Char}
    (above : ranges.all (fun range => 0x80 ≤ range.1) = true) (small : c.toNat < 0x80) :
    Unicode.inRanges ranges c = false := by
  rw [Bool.eq_false_iff, ne_eq, Unicode.inRanges_iff]
  rintro ⟨range, member, lower, _⟩
  have bound := of_decide_eq_true (List.all_eq_true.mp above range member)
  omega

theorem isXidStart_ascii {c : Char} (small : c.toNat < 0x80) : isXidStart c = c.isAlpha := by
  rw [isXidStart, inRanges_ascii (by decide +kernel) small, Bool.or_false]

theorem isXidContinue_ascii {c : Char} (small : c.toNat < 0x80) :
    isXidContinue c = (c.isAlpha || c.isDigit || c == '_') := by
  rw [isXidContinue, isXidStart_ascii small, inRanges_ascii (by decide +kernel) small, Bool.or_false]

theorem toNat_ofNat_ascii : ∀ n < 0x80, (Char.ofNat n).toNat < 0x80 := by
  decide

theorem identStart_agrees : identStart.Agrees Lexeme.isIdentStart := by
  refine .of_all (fun _ => ascii_of_isIdentStart) ?_ ?_
  · intro n small
    rw [Lexeme.isIdentStart, isXidStart_ascii (toNat_ofNat_ascii n small)]
    revert n
    decide
  · intro c large
    rw [Lexeme.isIdentStart, ne_of_large large (by decide), ne_of_large large (by decide),
      Bool.or_false, Bool.or_false]
    rfl

theorem identContinue_agrees : identContinue.Agrees Lexeme.isIdentContinue := by
  refine .of_all ?_ ?_ ?_
  · intro b member
    rcases Bool.or_eq_true_iff.mp member with starts | digit
    · exact ascii_of_isIdentStart starts
    · exact Byte.ascii_of_isDigit digit
  · intro n small
    rw [Lexeme.isIdentContinue, isXidContinue_ascii (toNat_ofNat_ascii n small)]
    revert n
    decide
  · intro c large
    rw [Lexeme.isIdentContinue, ne_of_large large (by decide), Bool.or_false]
    rfl

end CharClass

/-! ## String literals -/

theorem split_of_findIdx? {isMember : UInt8 → Bool} {text : Bytes} {found : Nat}
    (here : text.findIdx? isMember = some found) :
    (text.takeWhile (!isMember ·)).length = found ∧
      text.dropWhile (!isMember ·) = text.drop found := by
  obtain ⟨bound, rfl⟩ := List.findIdx?_eq_some_iff_findIdx_eq.mp here
  rw [List.takeWhile_eq_take_findIdx_not, List.dropWhile_eq_drop_findIdx_not]
  simp only [Bool.not_not, and_true]
  exact List.length_take_of_le (Nat.le_of_lt bound)

theorem not_isMember_of_findIdx?_none {isMember : UInt8 → Bool} {text : Bytes}
    (absent : text.findIdx? isMember = none) : ∀ b ∈ text, (!isMember b) = true := by
  intro b member
  rw [List.findIdx?_eq_none_iff.mp absent b member]
  rfl

/-- Where a literal ends that is opened in front of `offset`: at the end of its extent, but
before a carriage return that does not open it. -/
def closeOffset (source : Bytes) (start offset : Nat) (extent : Quoted.Extent) : Nat :=
  if extent.beforeLineFeed && byteBefore? source (offset + extent.length) == some Byte.carriageReturn &&
      start < offset + extent.length - 1 then
    offset + extent.length - 1
  else offset + extent.length

theorem closeOffset_after (source : Bytes) (start offset count : Nat) (extent : Quoted.Extent) :
    closeOffset source start offset (extent.after count) =
      closeOffset source start (offset + count) extent := by
  unfold closeOffset Quoted.Extent.after
  dsimp only
  rw [Nat.add_assoc]

/-- A search that stops at an offset has passed the plain bytes in front of it. -/
theorem plain_of_findIdx? {literal : Quoted} {source : Bytes} {offset plain : Nat} {b : UInt8}
    (found : (source.drop offset).findIdx? literal.stops = some plain)
    (here : source[offset + plain]? = some b) :
    ((source.drop offset).takeWhile (!literal.stops ·)).length = plain ∧
      (source.drop offset).dropWhile (!literal.stops ·) = b :: source.drop (offset + plain + 1) := by
  obtain ⟨length, left⟩ := split_of_findIdx? found
  rw [List.drop_drop, drop_of_getElem? here] at left
  exact ⟨length, left⟩

theorem literalEnd?_eq (literal : Quoted) {source : Bytes} {start offset : Nat}
    (began : start < offset) (within : offset ≤ source.length) :
    literalEnd? literal source start offset =
      some (closeOffset source start offset (literal.extent (source.drop offset))) := by
  fun_induction literalEnd? literal source start offset with
  | case1 offset absent =>
      rw [sliceFrom?_of_le within] at absent
      cases absent
  | case2 offset rest slice absent =>
      obtain rfl := eq_of_sliceFrom? slice
      have read := List.dropWhile_eq_nil_iff.mpr (not_isMember_of_findIdx?_none absent)
      rw [Quoted.extent_nil read, closeOffset, List.length_drop, Nat.add_sub_cancel' within]
      rfl
  | case3 offset rest slice plain found absent =>
      have bound := found_lt slice found
      rw [List.getElem?_eq_getElem bound] at absent
      cases absent
  | case4 offset rest slice plain found b here escape ih =>
      have bound := found_lt slice found
      obtain rfl := eq_of_sliceFrom? slice
      obtain ⟨length, left⟩ := plain_of_findIdx? found here
      -- An escape at the very end of the source has no byte to skip.
      have skipped : offset + (plain + 1 + ((source.drop (offset + plain + 1)).take 1).length) =
          min (offset + plain + 2) source.length := by
        rw [List.length_take, List.length_drop]
        omega
      have rest : (source.drop (offset + plain + 1)).drop 1 =
          source.drop (min (offset + plain + 2) source.length) := by
        rw [List.drop_drop]
        exact List.drop_eq_drop_min
      rw [Quoted.extent_cons left, if_pos escape, length, closeOffset_after, skipped, rest,
        ih (by omega) (Nat.min_le_right _ _)]
  | case5 offset rest slice plain found b here _ feed =>
      have bound := found_lt slice found
      obtain rfl := eq_of_sliceFrom? slice
      obtain ⟨length, left⟩ := plain_of_findIdx? found here
      rw [Quoted.extent_cons left, if_neg (by assumption), if_pos feed, length]
      have later : 0 < offset + plain := by omega
      obtain ⟨before, last⟩ := exists_byteBefore? later (Nat.le_of_lt bound)
      rw [last, Option.map_some, closeOffset]
      dsimp only
      rw [last]
      rfl
  | case6 offset rest slice plain found b here _ _ triple absent =>
      have bound := found_lt slice found
      rw [sliceFrom?_of_le (Nat.le_of_lt bound)] at absent
      cases absent
  | case7 offset rest slice plain found b here _ _ triple tail behind closed =>
      have bound := found_lt slice found
      obtain rfl := eq_of_sliceFrom? slice
      obtain rfl := eq_of_sliceFrom? behind
      obtain ⟨length, left⟩ := plain_of_findIdx? found here
      rw [drop_of_getElem? here] at closed
      rw [Quoted.extent_cons left, if_neg (by assumption), if_neg (by assumption), if_pos triple,
        if_pos closed, length]
      rfl
  | case8 offset rest slice plain found b here _ _ triple tail behind opened ih =>
      have bound := found_lt slice found
      obtain rfl := eq_of_sliceFrom? slice
      obtain rfl := eq_of_sliceFrom? behind
      obtain ⟨length, left⟩ := plain_of_findIdx? found here
      rw [drop_of_getElem? here] at opened
      rw [Quoted.extent_cons left, if_neg (by assumption), if_neg (by assumption), if_pos triple,
        if_neg opened, length, closeOffset_after, ih (by omega) bound]
      rfl
  | case9 offset rest slice plain found b here _ _ single =>
      obtain rfl := eq_of_sliceFrom? slice
      obtain ⟨length, left⟩ := plain_of_findIdx? found here
      rw [Quoted.extent_cons left, if_neg (by assumption), if_neg (by assumption), if_neg single,
        length]
      rfl

/-- The byte in front of the part after the opening quotes is a quote. -/
theorem getLast?_opening (tripleQuotes : Bool) (quote : UInt8) (rest : Bytes) :
    ((quote :: rest).take (Quoted.ofFront tripleQuotes quote (quote :: rest)).openLength).getLast? =
      some quote := by
  unfold Quoted.openLength
  split
  · rename_i triple
    obtain ⟨after, same⟩ := List.isPrefixOf_iff_prefix.mp (Bool.and_eq_true_iff.mp triple).2
    rw [← same]
    rfl
  · rfl

theorem ne_carriageReturn_of_isQuote {language : Language} {b : UInt8}
    (quote : language.isQuote b = true) : b ≠ Byte.carriageReturn := by
  rintro rfl
  have punctuation := language.quotes_punctuation _ (List.contains_iff_mem.mp quote)
  exact absurd punctuation (by decide)

theorem closeOffset_eq {source : Bytes} {literal : Quoted} {offset : Nat} {quote : UInt8}
    (opens : byteBefore? source (offset + literal.openLength) = some quote)
    (other : quote ≠ Byte.carriageReturn)
    (fits : offset + literal.openLength +
      (literal.extent ((source.drop offset).drop literal.openLength)).length ≤ source.length) :
    closeOffset source offset (offset + literal.openLength)
        (literal.extent ((source.drop offset).drop literal.openLength)) =
      offset + literal.length (source.drop offset) := by
  have opened := literal.openLength_pos
  unfold Quoted.length closeOffset
  dsimp only
  generalize literal.extent ((source.drop offset).drop literal.openLength) = extent at fits ⊢
  obtain ⟨length, beforeLineFeed⟩ := extent
  dsimp only at fits ⊢
  cases length with
  | zero =>
      rw [Nat.add_zero, opens, List.take_zero, List.getLast?_nil]
      simp [other]
  | succ before =>
      rw [List.drop_drop, Bytes.getLast?_read (Nat.succ_pos before) fits,
        byteBefore?_eq (Nat.add_pos_right _ (Nat.succ_pos before))]
      have behind : offset < offset + literal.openLength + (before + 1) - 1 := by omega
      rw [decide_eq_true behind, Bool.and_true]
      split
      · omega
      · omega

theorem literal?_eq {language : Language} {source : Bytes} {quote : UInt8} {offset : Nat}
    (here : source[offset]? = some quote) (isQuote : language.isQuote quote = true) :
    literal? language source quote offset =
      some (offset +
        (Quoted.ofFront language.tripleQuotes quote (source.drop offset)).length (source.drop offset)) := by
  have ascii := Lexeme.ascii_of_isQuote isQuote
  have within := (List.getElem?_eq_some_iff.mp here).1
  have front := drop_of_getElem? here
  have opened := (Quoted.openLength_edge language.tripleQuotes ascii (source.drop (offset + 1))).fits
  have last := getLast?_opening language.tripleQuotes quote (source.drop (offset + 1))
  rw [← front] at opened last
  unfold literal?
  rw [sliceFrom?_of_le (Nat.le_of_lt within)]
  change literalEnd? (Quoted.ofFront language.tripleQuotes quote (source.drop offset)) _ _ _ = _
  have same : (Quoted.ofFront language.tripleQuotes quote (source.drop offset)).quote = quote := rfl
  generalize Quoted.ofFront language.tripleQuotes quote (source.drop offset) = literal at same opened last ⊢
  have positive := literal.openLength_pos
  rw [List.length_drop] at opened
  have fits : offset + literal.openLength ≤ source.length := by omega
  have edge := Quoted.extent_edge (same ▸ ascii) ((source.drop offset).drop literal.openLength)
  have inside := edge.fits
  rw [List.length_drop, List.length_drop] at inside
  rw [Bytes.getLast?_read positive fits] at last
  rw [literalEnd?_eq literal (by omega) fits, ← List.drop_drop]
  refine congrArg some (closeOffset_eq ?_ (ne_carriageReturn_of_isQuote isQuote) (by omega))
  rw [byteBefore?_eq (by omega)]
  exact last

/-! ## Comments, identifiers and operators -/

theorem fits_of_opens {source : Bytes} {offset : Nat} {delimiter : Delimiter}
    (within : offset ≤ source.length) (starts : delimiter.opens (source.drop offset) = true) :
    offset + delimiter.length ≤ source.length := by
  have inside := (Delimiter.cut_of_opens starts).fits
  rw [List.length_drop] at inside
  omega

theorem lineCommentEnd?_eq {mark : Delimiter} {source : Bytes} {offset : Nat}
    (within : offset ≤ source.length) (starts : mark.opens (source.drop offset) = true) :
    lineCommentEnd? mark source offset =
      some (offset + Comment.lineLength mark (source.drop offset)) := by
  have fits := fits_of_opens within starts
  unfold lineCommentEnd?
  rw [sliceFrom?_of_le fits, Comment.lineLength, List.drop_drop]
  dsimp only [bind, Option.bind]
  split
  · rename_i found here
    rw [(split_of_findIdx? here).1, Nat.add_assoc]
    rfl
  · rename_i absent
    rw [List.takeWhile_eq_self_iff.mpr (not_isMember_of_findIdx?_none absent), List.length_drop,
      ← Nat.add_assoc, Nat.add_sub_cancel' fits]
    rfl

theorem blockCommentEnd?_eq {rule : BlockRule} {source : Bytes} {offset : Nat}
    (within : offset ≤ source.length) (starts : rule.opening.opens (source.drop offset) = true) :
    blockCommentEnd? rule source offset =
      some (offset + Comment.blockLength rule (source.drop offset)) := by
  have fits := fits_of_opens within starts
  unfold blockCommentEnd? Comment.blockLength
  rw [sliceFrom?_of_le fits, List.drop_drop]
  dsimp only [bind, Option.bind]
  cases Bytes.offsetOf? rule.closing.bytes (source.drop (offset + rule.opening.length)) with
  | some found =>
      dsimp only
      rw [← Nat.add_assoc, ← Nat.add_assoc]
      rfl
  | none =>
      dsimp only
      rw [List.length_drop, ← Nat.add_assoc, Nat.add_sub_cancel' fits]
      rfl

theorem comment?_kind {language : Language} {lineStart : Bool} {rest : Bytes} {lexeme : Lexeme}
    (found : Lexeme.comment? language lineStart rest = some lexeme) : lexeme.kind = .comment := by
  unfold Lexeme.comment? at found
  split at found
  · cases found
    rfl
  · obtain ⟨mark, _, rfl⟩ := Option.map_eq_some_iff.mp found
    rfl

theorem comment?_eq (language : Language) {source : Bytes} {offset : Nat}
    (within : offset ≤ source.length) :
    comment? language source offset =
      some ((Lexeme.comment? language (Language.isLineStart source offset) (source.drop offset)).map
        (offset + ·.length)) := by
  unfold comment? Lexeme.comment?
  rw [lineStart?_of_le within]
  dsimp only [bind, Option.bind]
  cases block : language.blockComment? (Language.isLineStart source offset) (source.drop offset) with
  | some rule =>
      have starts := List.find?_some block
      dsimp only
      rw [blockCommentEnd?_eq within (Bool.and_eq_true_iff.mp starts).2]
      rfl
  | none =>
      dsimp only
      cases line : language.lineComment? (source.drop offset) with
      | some mark =>
          dsimp only
          rw [lineCommentEnd?_eq within (List.find?_some line)]
          rfl
      | none => rfl

/-- The kind of a lexeme that starts at an offset, and the offset behind it. -/
def placed (offset : Nat) (lexeme : Lexeme) : Kind × Nat :=
  (lexeme.kind, offset + lexeme.length)

theorem identifier?_eq (language : Language) {source : Bytes} {offset : Nat}
    (within : offset ≤ source.length) :
    identifier? language source offset =
      some (placed offset (Lexeme.identifier language (source.drop offset))) := by
  have inside := (Utf8.CleanCut.runLength Lexeme.isIdentContinue (source.drop offset)).fits
  rw [List.length_drop] at inside
  unfold identifier?
  rw [CharClass.runEnd?_eq CharClass.identContinue_agrees within]
  dsimp only [bind, Option.bind]
  rw [slice?_of_le (Nat.le_add_right _ _) (by omega), Nat.add_sub_cancel_left]
  rfl

theorem mark?_eq (language : Language) {source : Bytes} {offset : Nat}
    (within : offset ≤ source.length) :
    mark? language source offset = some (placed offset (Lexeme.mark language (source.drop offset))) := by
  unfold mark? Lexeme.mark
  rw [sliceFrom?_of_le within]
  dsimp only [bind, Option.bind]
  cases language.operator? (source.drop offset) with
  | some operator => rfl
  | none => rfl

/-- Only a character that is not ASCII has more than one byte. -/
theorem width_eq {source : Bytes} {offset : Nat} {b : UInt8} (here : source[offset]? = some b) :
    (if 0x80 ≤ b then Utf8.width (source.drop offset) else 1) = Utf8.width (source.drop offset) := by
  split
  · rfl
  · rename_i low
    have ascii : b.toNat < 0x80 := Nat.lt_of_not_le fun high => low (UInt8.le_iff_toNat_le.mpr high)
    rw [drop_of_getElem? here, Utf8.width_ascii ascii]

/-! ## Steps and runs -/

theorem token?_eq (language : Language) {source : Bytes} {state : State} {b : UInt8}
    (here : source[state.offset]? = some b) :
    token? language source state =
      some (placed state.offset
        (Lexeme.first language ⟨state.afterOperand, Language.isLineStart source state.offset⟩ b
          (source.drop (state.offset + 1)))) := by
  have within := Nat.le_of_lt (List.getElem?_eq_some_iff.mp here).1
  have front := drop_of_getElem? here
  unfold token? Lexeme.first
  rw [here]
  dsimp only [bind, Option.bind]
  rw [front, CharClass.starts_eq CharClass.blank_agrees, CharClass.starts_eq CharClass.identStart_agrees,
    ← front]
  by_cases blank : Utf8.startsWith isWhiteSpace (source.drop state.offset) = true
  · rw [if_pos blank, if_pos blank, CharClass.runEnd?_eq CharClass.blank_agrees within]
    rfl
  rw [if_neg blank, if_neg blank]
  by_cases quote : language.isQuote b = true
  · rw [if_pos quote, if_pos quote, literal?_eq here quote]
    rfl
  rw [if_neg quote, if_neg quote, comment?_eq language within]
  dsimp only
  cases found : Lexeme.comment? language (Language.isLineStart source state.offset)
      (source.drop state.offset) with
  | some comment =>
      rw [placed, comment?_kind found]
      rfl
  | none =>
      dsimp only [Option.map_none]
      by_cases number : Number.starts state.afterOperand (source.drop state.offset) = true
      · rw [if_pos number, if_pos number]
        rfl
      rw [if_neg number, if_neg number]
      by_cases starts : Utf8.startsWith Lexeme.isIdentStart (source.drop state.offset) = true
      · rw [if_pos starts, if_pos starts]
        exact identifier?_eq language within
      rw [if_neg starts, if_neg starts]
      by_cases mark : Byte.isMark b = true
      · rw [if_pos mark, if_pos mark]
        exact mark?_eq language within
      rw [if_neg mark, if_neg mark, width_eq here]
      rfl

/-- What is kept of a cursor. -/
def State.ofCursor (cursor : Cursor) : State :=
  ⟨cursor.offset, cursor.lastSignificant, cursor.afterOperand⟩

theorem operand?_eq {source : Bytes} {offset length : Nat} (kind : Kind) (positive : 0 < length)
    (fits : offset + length ≤ source.length) :
    operand? source ⟨kind, offset, offset + length⟩ =
      some (endsOperand kind ((source.drop offset).take length)) := by
  have text : Token.text ⟨kind, offset, offset + length⟩ source = (source.drop offset).take length := by
    rw [Token.text, if_pos ⟨Nat.le_add_right _ _, fits⟩, Token.length, Nat.add_sub_cancel_left]
  obtain ⟨last, before⟩ := exists_byteBefore? (Nat.add_pos_right offset positive) fits
  have same : ((source.drop offset).take length).getLast? = some last := by
    rw [Bytes.getLast?_read positive fits, ← before, byteBefore?_eq (Nat.add_pos_right offset positive)]
  cases kind with
  | keyword => rw [operand?, endsOperand, text]
  | punctuation =>
      rw [operand?, endsOperand, before, same]
      rfl
  | _ => rfl

theorem record?_eq {source : Bytes} {cursor : Cursor} {lexeme : Lexeme} (stands : cursor.Stands source)
    (positive : 0 < lexeme.length) (fits : cursor.offset + lexeme.length ≤ source.length) :
    record? source (.ofCursor cursor) ⟨lexeme.kind, cursor.offset, cursor.offset + lexeme.length⟩ =
      some (.ofCursor (cursor.advance lexeme)) := by
  unfold record? State.ofCursor Cursor.advance
  dsimp only
  split
  · rfl
  · rw [operand?_eq lexeme.kind positive fits, stands.rest]
    rfl

/-- Neither the guard nor the bound changes a step that moves on and stays in the source. -/
theorem next?_of_token? {language : Language} {source : Bytes} {state : State} {kind : Kind} {stop : Nat}
    (found : token? language source state = some (kind, stop)) (progress : state.offset < stop)
    (fits : stop ≤ source.length) :
    next? language source state =
      (record? source state ⟨kind, state.offset, stop⟩).map
        (fun after => some (⟨kind, state.offset, stop⟩, after)) := by
  have kept : forced state.offset (kind, stop) = (kind, stop) := if_neg (Nat.not_le.mpr progress)
  unfold next?
  rw [if_neg (by omega), found]
  dsimp only [bind, Option.bind]
  rw [kept, Nat.min_eq_left fits]
  cases record? source state ⟨kind, state.offset, stop⟩ with
  | none => rfl
  | some after => rfl

/-- A state in the middle of a source takes the step of its cursor. -/
theorem next?_of_lt (language : Language) {source : Bytes} {cursor : Cursor}
    (stands : cursor.Stands source) (more : cursor.offset < source.length) :
    ∃ kind stop after, token? language source (.ofCursor cursor) = some (kind, stop) ∧
      cursor.offset < stop ∧ stop ≤ source.length ∧
      cursor.next? language = some (⟨kind, cursor.offset, stop⟩, after) ∧
      next? language source (.ofCursor cursor) =
        some (some (⟨kind, cursor.offset, stop⟩, .ofCursor after)) := by
  have here : source[cursor.offset]? = some source[cursor.offset] := List.getElem?_eq_getElem more
  generalize source[cursor.offset] = b at here
  have step := Cursor.next?_cons language (stands.rest.trans (drop_of_getElem? here))
  have positive := Lexeme.first_length_pos language cursor.context b (source.drop (cursor.offset + 1))
  have token : token? language source (.ofCursor cursor) =
      some (placed cursor.offset
        (Lexeme.first language cursor.context b (source.drop (cursor.offset + 1)))) := by
    rw [Cursor.context, stands.lineStart]
    exact token?_eq language here
  generalize Lexeme.first language cursor.context b (source.drop (cursor.offset + 1)) = lexeme
    at step positive token
  have progress := Nat.lt_add_of_pos_right (n := cursor.offset) positive
  have fits : cursor.offset + lexeme.length ≤ source.length := (stands.next? step).2.2.2.within
  refine ⟨lexeme.kind, _, _, token, progress, fits, step, ?_⟩
  rw [next?_of_token? token progress fits]
  exact congrArg (Option.map _) (record?_eq stands positive fits)

theorem next?_of_read {language : Language} {source : Bytes} {cursor : Cursor}
    (read : source.length ≤ cursor.offset) :
    next? language source (.ofCursor cursor) = some none :=
  if_pos read

/-- Every state on the way is that of a cursor that stands in the source, and of which every
step keeps what holds at the start. -/
theorem Reachable.exists_kept_cursor {language : Language} {source : Bytes} {state : State}
    (reached : Reachable language source state) (Kept : Cursor → Prop) (start : Kept (.start source))
    (step : ∀ {cursor after : Cursor} {token : Token}, cursor.Stands source → Kept cursor →
      cursor.next? language = some (token, after) → Kept after) :
    ∃ cursor : Cursor, cursor.Stands source ∧ Kept cursor ∧ state = .ofCursor cursor := by
  induction reached with
  | start => exact ⟨.start source, .start source, start, rfl⟩
  | step _ found ih =>
      obtain ⟨cursor, stands, kept, rfl⟩ := ih
      by_cases more : cursor.offset < source.length
      · obtain ⟨kind, stop, next, _, _, _, moves, same⟩ := next?_of_lt language stands more
        rw [found] at same
        cases same
        exact ⟨next, (stands.next? moves).2.2.2, step stands kept moves, rfl⟩
      · rw [next?_of_read (Nat.le_of_not_lt more)] at found
        cases found

theorem Reachable.exists_cursor {language : Language} {source : Bytes} {state : State}
    (reached : Reachable language source state) :
    ∃ cursor : Cursor, cursor.Stands source ∧ state = .ofCursor cursor := by
  obtain ⟨cursor, stands, _, same⟩ :=
    reached.exists_kept_cursor (fun _ => True) trivial fun _ _ _ => trivial
  exact ⟨cursor, stands, same⟩

/-- Enough calls read the source to its end, and give the tokens of the cursor's run. -/
theorem run?_eq {language : Language} {source : Bytes} {cursor : Cursor} {calls : Nat}
    (stands : cursor.Stands source) (enough : source.length - cursor.offset < calls) :
    run? language source calls (.ofCursor cursor) = some ((cursor.run language).map Prod.fst) := by
  induction calls generalizing cursor with
  | zero => cases enough
  | succ calls ih =>
      unfold run?
      by_cases more : cursor.offset < source.length
      · obtain ⟨kind, stop, next, _, progress, _, step, same⟩ := next?_of_lt language stands more
        obtain ⟨_, stops, _, after⟩ := stands.next? step
        have fewer : source.length - next.offset < calls := by
          rw [← stops]
          dsimp only
          omega
        rw [same, Cursor.run_of_some step, List.map_cons]
        dsimp only [bind, Option.bind]
        rw [ih after fewer]
        rfl
      · have read := Nat.le_of_not_lt more
        have empty : cursor.rest = [] := stands.rest.trans (List.drop_eq_nil_of_le read)
        rw [next?_of_read read, Cursor.run_of_none (Cursor.next?_nil empty)]
        rfl

/-- Wherever stepping through a source comes to, unless all of it is read, every read of the
next step fits the source, and the step moves on and stays in it, so that neither the guard nor
the bound changes it. The steps end, and their tokens cover the source. -/
theorem scan_by_offsets_progress (language : Language) (source : Bytes) :
    (∀ state, Reachable language source state → state.offset < source.length →
      ∃ kind stop after, token? language source state = some (kind, stop) ∧
        state.offset < stop ∧ stop ≤ source.length ∧
        next? language source state = some (some (⟨kind, state.offset, stop⟩, after)) ∧
        after.offset = stop) ∧
      run? language source (source.length + 1) {} = some (scan language source) ∧
      checkPartition (scan language source) source.length = .ok () ∧
      (scan language source).IsChain (fun before after => before.stop = after.start) ∧
      (∀ token ∈ scan language source, token.start < token.stop ∧ token.stop ≤ source.length) ∧
      (scan language source).flatMap (fun token => token.text source) = source := by
  have covers := scan_covers language source
  refine ⟨?_, ?_, covers, isChain_of_covers covers, fits_of_covers covers, texts_join covers⟩
  · intro state reached more
    obtain ⟨cursor, stands, rfl⟩ := reached.exists_cursor
    obtain ⟨kind, stop, next, token, progress, fits, step, same⟩ := next?_of_lt language stands more
    obtain ⟨_, stops, _, _⟩ := stands.next? step
    exact ⟨kind, stop, .ofCursor next, token, progress, fits, same, stops.symm⟩
  · exact run?_eq (.start source) (Nat.lt_succ_self _)

end CodeTint.Indexed
