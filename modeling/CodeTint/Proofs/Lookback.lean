import CodeTint.Proofs.Indexed

/-!
# What reaches a token from before it

A scan over one array of bytes could look back at anything it has passed. It
does not: of the text before an offset the tokens from there on depend on two
bits, whether an operand has just ended and whether a line starts there. Two
scans that agree on these and on the text to come take the same steps, each at
its own distance from the start.
-/

namespace CodeTint

/-- The token as it lies so many bytes further on. -/
def Token.moved (distance : Nat) (token : Token) : Token :=
  ⟨token.kind, token.start + distance, token.stop + distance⟩

/-- What is seen of a step: its token, and whether an operand has ended behind it. -/
structure Seen where
  token : Token
  afterOperand : Bool
  deriving DecidableEq, Repr

def Seen.moved (distance : Nat) (step : Seen) : Seen :=
  ⟨step.token.moved distance, step.afterOperand⟩

namespace Cursor

/-- The left cursor stands so many bytes further on than the right one, with the same bytes
to read and the same two bits; the last kind before them may differ. -/
structure Displaced (distance : Nat) (left right : Cursor) : Prop where
  offset : left.offset = right.offset + distance
  rest : left.rest = right.rest
  lineStart : left.lineStart = right.lineStart
  afterOperand : left.afterOperand = right.afterOperand

/-- The cursor at the start of a text of which this is known before it. -/
def resumed (context : Context) (text : Bytes) : Cursor :=
  ⟨0, text, context.lineStart, none, context.afterOperand⟩

/-- What is seen of the steps from the cursor on. -/
def seen (language : Language) (cursor : Cursor) : List Seen :=
  (cursor.run language).map fun step => ⟨step.1, step.2.afterOperand⟩

theorem seen_token (language : Language) (cursor : Cursor) :
    (cursor.seen language).map Seen.token = (cursor.run language).map Prod.fst :=
  List.map_map

namespace Displaced

variable {language : Language} {distance : Nat} {left right : Cursor}

theorem context (displaced : Displaced distance left right) : left.context = right.context := by
  unfold Cursor.context
  rw [displaced.afterOperand, displaced.lineStart]

theorem advance (displaced : Displaced distance left right) (lexeme : Lexeme) :
    Displaced distance (left.advance lexeme) (right.advance lexeme) := by
  refine ⟨?_, ?_, ?_, ?_⟩
  · simp only [Cursor.advance, displaced.offset]
    omega
  · simp only [Cursor.advance, displaced.rest]
  · simp only [Cursor.advance, displaced.rest]
  · simp only [Cursor.advance, displaced.rest, displaced.afterOperand]

theorem next?_none (displaced : Displaced distance left right) (read : left.next? language = none) :
    right.next? language = none := by
  cases here : right.rest with
  | nil => exact next?_nil here
  | cons b bs =>
      rw [next?_cons language (displaced.rest.trans here)] at read
      cases read

/-- The right cursor takes the step of the left one, at its own distance. -/
theorem next?_some (displaced : Displaced distance left right) {token : Token} {after : Cursor}
    (found : left.next? language = some (token, after)) :
    ∃ nearer next, right.next? language = some (nearer, next) ∧ token = nearer.moved distance ∧
      Displaced distance after next := by
  obtain ⟨b, bs, lexeme, here, lexemeEq, rfl, rfl⟩ := next?_eq_some found
  have step := next?_cons language (displaced.rest.symm.trans here)
  rw [← displaced.context, ← lexemeEq] at step
  refine ⟨_, _, step, ?_, displaced.advance lexeme⟩
  rw [Token.moved, displaced.offset]
  dsimp only
  rw [Nat.add_right_comm]

/-- So it does to the end of the text. -/
theorem seen (displaced : Displaced distance left right) :
    left.seen language = (right.seen language).map (Seen.moved distance) := by
  unfold Cursor.seen
  fun_induction Cursor.run language left generalizing right with
  | case1 left read =>
      rw [run_of_none (displaced.next?_none read)]
      rfl
  | case2 left token after found ih =>
      obtain ⟨nearer, next, step, moved, later⟩ := displaced.next?_some found
      rw [run_of_some step, List.map_cons, List.map_cons, List.map_cons, ih later, Seen.moved, moved,
        later.afterOperand]

end Displaced

end Cursor

namespace Indexed

/-- The steps that read a source from a state on to its end. -/
inductive Remaining (language : Language) (source : Bytes) : State → List Seen → Prop
  | read {state : State} (done : next? language source state = some none) :
      Remaining language source state []
  | step {state after : State} {token : Token} {rest : List Seen}
      (found : next? language source state = some (some (token, after)))
      (later : Remaining language source after rest) :
      Remaining language source state (⟨token, after.afterOperand⟩ :: rest)

/-- The steps from the state of a cursor are those of its run. -/
theorem Remaining.of_cursor (language : Language) {source : Bytes} {cursor : Cursor}
    (stands : cursor.Stands source) :
    Remaining language source (.ofCursor cursor) (cursor.seen language) := by
  unfold Cursor.seen
  fun_induction Cursor.run language cursor with
  | case1 cursor read =>
      refine .read (next?_of_read (Nat.le_of_not_lt fun more => ?_))
      obtain ⟨_, _, _, _, _, _, step, _⟩ := next?_of_lt language stands more
      rw [read] at step
      cases step
  | case2 cursor token after found ih =>
      obtain ⟨_, _, progress, next⟩ := stands.next? found
      have more : cursor.offset < source.length := Nat.lt_of_lt_of_le progress next.within
      obtain ⟨_, _, _, _, _, _, step, same⟩ := next?_of_lt language stands more
      rw [found] at step
      cases step
      exact .step same (ih next)

/-- A state on the way is that of a cursor whose run gives the last tokens of the scan. -/
theorem Reachable.exists_run {language : Language} {source : Bytes} {state : State}
    (reached : Reachable language source state) :
    ∃ cursor : Cursor, cursor.Stands source ∧
      (cursor.run language).map Prod.fst <:+ scan language source ∧ state = .ofCursor cursor := by
  refine reached.exists_kept_cursor
    (fun cursor => (cursor.run language).map Prod.fst <:+ scan language source) (List.suffix_refl _) ?_
  intro cursor after token _ ends found
  rw [Cursor.run_of_some found, List.map_cons] at ends
  exact (List.suffix_cons _ _).trans ends

/-- A line starts behind a text that is empty or ends in a line feed. -/
theorem isLineStart_append (text tail : Bytes) :
    Language.isLineStart (text ++ tail) text.length = true ↔
      text = [] ∨ text.getLast? = some Byte.lineFeed := by
  unfold Language.isLineStart
  cases text using List.reverseRecOn with
  | nil => simp
  | append_singleton text last => simp

/-- A state behind the first part of a text takes the steps of a cursor that starts with the
second part, knowing the same two bits. -/
theorem Reachable.remaining {language : Language} {text tail : Bytes} {state : State}
    (reached : Reachable language (text ++ tail) state) (here : state.offset = text.length) :
    ∃ steps, steps = (Cursor.resumed
          ⟨state.afterOperand, Language.isLineStart (text ++ tail) text.length⟩ tail).seen language ∧
      Remaining language (text ++ tail) state (steps.map (Seen.moved text.length)) ∧
      (steps.map (Seen.moved text.length)).map Seen.token <:+ scan language (text ++ tail) := by
  obtain ⟨cursor, stands, ends, rfl⟩ := reached.exists_run
  change cursor.offset = text.length at here
  have displaced : Cursor.Displaced text.length cursor
      (.resumed ⟨cursor.afterOperand, Language.isLineStart (text ++ tail) text.length⟩ tail) := by
    refine ⟨?_, ?_, ?_, rfl⟩
    · rw [here, Cursor.resumed, Nat.zero_add]
    · rw [stands.rest, here, List.drop_left, Cursor.resumed]
    · rw [stands.lineStart, here, Cursor.resumed]
  have steps := Remaining.of_cursor language stands
  rw [← Cursor.seen_token] at ends
  rw [displaced.seen] at steps ends
  exact ⟨_, rfl, steps, ends⟩

/-- Two scans of texts with the same last part come to its start. If they agree there on whether
an operand has just ended and on whether a line starts, they take the same steps from there to
the end, each at its own distance, and so the last tokens of their sources are the same. -/
theorem scan_lookback {language : Language} {first second tail : Bytes} {left right : State}
    (leftReached : Reachable language (first ++ tail) left) (leftHere : left.offset = first.length)
    (rightReached : Reachable language (second ++ tail) right) (rightHere : right.offset = second.length)
    (operand : left.afterOperand = right.afterOperand)
    (line : (first = [] ∨ first.getLast? = some Byte.lineFeed) ↔
      (second = [] ∨ second.getLast? = some Byte.lineFeed)) :
    ∃ steps : List Seen,
      Remaining language (first ++ tail) left (steps.map (Seen.moved first.length)) ∧
      Remaining language (second ++ tail) right (steps.map (Seen.moved second.length)) ∧
      (steps.map (Seen.moved first.length)).map Seen.token <:+ scan language (first ++ tail) ∧
      (steps.map (Seen.moved second.length)).map Seen.token <:+ scan language (second ++ tail) := by
  rw [← isLineStart_append first tail, ← isLineStart_append second tail, ← Bool.eq_iff_iff] at line
  obtain ⟨steps, stepsEq, leftSteps, leftEnds⟩ := leftReached.remaining leftHere
  obtain ⟨others, othersEq, rightSteps, rightEnds⟩ := rightReached.remaining rightHere
  obtain rfl : steps = others := by rw [stepsEq, othersEq, operand, line]
  exact ⟨steps, leftSteps, rightSteps, leftEnds, rightEnds⟩

/-- Behind an identifier and behind brackets the dot of `.5` is no part of the number. -/
theorem scan_lookback_member :
    ∃ left right : State, ∃ steps : List Seen,
      Reachable (.ofSpec { name := "" }) ([0x61] ++ [0x2E, 0x35]) left ∧ left.offset = 1 ∧
      Reachable (.ofSpec { name := "" }) ([0x28, 0x29] ++ [0x2E, 0x35]) right ∧ right.offset = 2 ∧
      left.afterOperand = right.afterOperand ∧
      Remaining (.ofSpec { name := "" }) ([0x61] ++ [0x2E, 0x35]) left (steps.map (Seen.moved 1)) ∧
      Remaining (.ofSpec { name := "" }) ([0x28, 0x29] ++ [0x2E, 0x35]) right
        (steps.map (Seen.moved 2)) ∧
      (steps.map (Seen.moved 1)).map Seen.token <:+
        scan (.ofSpec { name := "" }) ([0x61] ++ [0x2E, 0x35]) ∧
      (steps.map (Seen.moved 2)).map Seen.token <:+
        scan (.ofSpec { name := "" }) ([0x28, 0x29] ++ [0x2E, 0x35]) := by
  have name : next? (.ofSpec { name := "" }) ([0x61] ++ [0x2E, 0x35]) {} =
      some (some (⟨.ident, 0, 1⟩, ⟨1, some .ident, true⟩)) := by decide +kernel
  have opening : next? (.ofSpec { name := "" }) ([0x28, 0x29] ++ [0x2E, 0x35]) {} =
      some (some (⟨.punctuation, 0, 1⟩, ⟨1, some .punctuation, false⟩)) := by decide +kernel
  have closing : next? (.ofSpec { name := "" }) ([0x28, 0x29] ++ [0x2E, 0x35])
      ⟨1, some .punctuation, false⟩ =
      some (some (⟨.punctuation, 1, 2⟩, ⟨2, some .punctuation, true⟩)) := by decide +kernel
  have left := Reachable.start.step name
  have right := (Reachable.start.step opening).step closing
  obtain ⟨steps, ends⟩ := scan_lookback left rfl right rfl rfl (by decide)
  exact ⟨_, _, steps, left, rfl, right, rfl, rfl, ends⟩

end Indexed

end CodeTint
