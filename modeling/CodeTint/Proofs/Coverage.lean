import CodeTint.Proofs.Partition

/-!
# The first token that breaks a cover

Tokens cover a source if there are rising offsets from 0 to the length of the
source such that each token reaches from one offset to the next. The check accepts
just these lists. Of any other list it names the first token with which the tokens
so far cover no beginning of the source, and what is wrong with it; if there is no
such token, it says how much is covered. Offsets are compared and never added, so
nothing depends on how large they are.
-/

namespace CodeTint

/-- Rising offsets between two places, such that each token reaches from one to the next. -/
structure Offsets (start : Nat) (tokens : List Token) (stop : Nat) (offset : Nat → Nat) : Prop where
  first : offset 0 = start
  last : offset tokens.length = stop
  rising : ∀ index < tokens.length, offset index < offset (index + 1)
  reaches : ∀ index token, tokens[index]? = some token →
    token.start = offset index ∧ token.stop = offset (index + 1)

/-- The tokens cover a source of this length. -/
def Covers (tokens : List Token) (length : Nat) : Prop :=
  ∃ offset, Offsets 0 tokens length offset

/-- The tokens cover a beginning of a source of this length. -/
def CoversBeginning (tokens : List Token) (length : Nat) : Prop :=
  ∃ covered ≤ length, Covers tokens covered

/-- The token of this number is the first with which the tokens cover no beginning of the source. -/
structure FirstBad (tokens : List Token) (length index : Nat) (token : Token) : Prop where
  here : tokens[index]? = some token
  bad : ¬CoversBeginning (tokens.take (index + 1)) length
  least : ∀ earlier < index, CoversBeginning (tokens.take (earlier + 1)) length

/-- Where the token before this number stops. -/
def stopBefore (tokens : List Token) : Nat → Nat
  | 0 => 0
  | index + 1 => (tokens[index]?.map Token.stop).getD 0

/-- The error tells what is wrong with the tokens. -/
inductive PartitionFault (tokens : List Token) (length : Nat) : PartitionError → Prop
  | gap {index : Nat} {token : Token} (first : FirstBad tokens length index token)
      (apart : token.start ≠ stopBefore tokens index) :
      PartitionFault tokens length (.gap index (stopBefore tokens index) token.start)
  | empty {index : Nat} {token : Token} (first : FirstBad tokens length index token)
      (meets : token.start = stopBefore tokens index) (backward : token.stop ≤ token.start) :
      PartitionFault tokens length (.empty index)
  | outOfBounds {index : Nat} {token : Token} (first : FirstBad tokens length index token)
      (meets : token.start = stopBefore tokens index) (forward : token.start < token.stop) :
      PartitionFault tokens length (.outOfBounds index token.stop length)
  | incomplete {covered : Nat} (covers : Covers tokens covered) (short : covered < length) :
      PartitionFault tokens length (.incomplete covered length)

/-! ## Covers token by token -/

/-- The tokens follow one another from one place to another. -/
inductive Spans : Nat → List Token → Nat → Prop
  | nil (place : Nat) : Spans place [] place
  | cons {start stop : Nat} {token : Token} {rest : List Token} (meets : token.start = start)
      (forward : token.start < token.stop) (later : Spans token.stop rest stop) : Spans start (token :: rest) stop

namespace Spans

variable {start middle stop : Nat} {tokens before after : List Token} {token : Token}

theorem le (spans : Spans start tokens stop) : start ≤ stop := by
  induction spans with
  | nil place => exact Nat.le_refl place
  | cons meets forward later ih =>
      rw [← meets]
      exact Nat.le_trans (Nat.le_of_lt forward) ih

theorem append (first : Spans start before middle) (second : Spans middle after stop) :
    Spans start (before ++ after) stop := by
  induction first with
  | nil place => exact second
  | cons meets forward later ih => exact .cons meets forward (ih second)

theorem split (spans : Spans start (before ++ after) stop) :
    ∃ middle, Spans start before middle ∧ Spans middle after stop := by
  induction before generalizing start with
  | nil => exact ⟨start, .nil start, spans⟩
  | cons token before ih =>
      cases spans with
      | cons meets forward later =>
          obtain ⟨middle, first, second⟩ := ih later
          exact ⟨middle, .cons meets forward first, second⟩

theorem nil_iff : Spans start [] stop ↔ start = stop := by
  constructor
  · intro spans
    cases spans
    rfl
  · rintro rfl
    exact .nil start

theorem singleton_iff :
    Spans start [token] stop ↔ token.start = start ∧ token.start < token.stop ∧ token.stop = stop := by
  constructor
  · intro spans
    cases spans with
    | cons meets forward later => exact ⟨meets, forward, nil_iff.mp later⟩
  · rintro ⟨meets, forward, rfl⟩
    exact .cons meets forward (.nil token.stop)

end Spans

/-- The offsets with one more in front. -/
def offsetsFrom (start : Nat) (offset : Nat → Nat) : Nat → Nat
  | 0 => start
  | index + 1 => offset index

theorem Offsets.spans {start stop : Nat} {tokens : List Token} {offset : Nat → Nat}
    (offsets : Offsets start tokens stop offset) : Spans start tokens stop := by
  induction tokens generalizing start offset with
  | nil =>
      rw [← offsets.first, ← offsets.last]
      exact .nil (offset 0)
  | cons token rest ih =>
      obtain ⟨starts, stops⟩ := offsets.reaches 0 token rfl
      have forward : token.start < token.stop := by
        rw [starts, stops]
        exact offsets.rising 0 (Nat.succ_pos _)
      have shifted : Offsets token.stop rest stop fun index => offset (index + 1) := by
        refine ⟨stops.symm, offsets.last, ?_, ?_⟩
        · intro index inside
          exact offsets.rising (index + 1) (Nat.succ_lt_succ inside)
        · intro index next found
          exact offsets.reaches (index + 1) next found
      exact .cons (starts.trans offsets.first) forward (ih shifted)

theorem Spans.exists_offsets {start stop : Nat} {tokens : List Token} (spans : Spans start tokens stop) :
    ∃ offset, Offsets start tokens stop offset := by
  induction spans with
  | nil place =>
      refine ⟨fun _ => place, rfl, rfl, ?_, ?_⟩
      · intro index inside
        cases inside
      · intro index token found
        cases found
  | @cons start stop token rest meets forward later ih =>
      obtain ⟨offset, offsets⟩ := ih
      refine ⟨offsetsFrom start offset, rfl, offsets.last, ?_, ?_⟩
      · intro index inside
        cases index with
        | zero =>
            change start < offset 0
            rw [offsets.first, ← meets]
            exact forward
        | succ index => exact offsets.rising index (Nat.lt_of_succ_lt_succ inside)
      · intro index next found
        cases index with
        | zero =>
            cases found
            exact ⟨meets, offsets.first.symm⟩
        | succ index => exact offsets.reaches index next found

theorem covers_iff_spans {tokens : List Token} {length : Nat} : Covers tokens length ↔ Spans 0 tokens length := by
  constructor
  · rintro ⟨offset, offsets⟩
    exact offsets.spans
  · exact Spans.exists_offsets

/-! ## What the check does with a covered beginning -/

/-- Tokens that follow one another inside the source are passed over. -/
theorem checkPartitionFrom_append {length expected covered : Nat} {before : List Token}
    (spans : Spans expected before covered) (fits : covered ≤ length) (index : Nat) (rest : List Token) :
    checkPartitionFrom length index expected (before ++ rest) =
      checkPartitionFrom length (index + before.length) covered rest := by
  induction spans generalizing index with
  | nil place => rfl
  | @cons expected covered token later meets forward spans ih =>
      have nonempty : ¬token.isEmpty = true := by
        rw [Token.isEmpty_iff]
        exact Nat.not_le_of_gt forward
      have inside : ¬length < token.stop := Nat.not_lt.mpr (Nat.le_trans spans.le fits)
      rw [List.cons_append, checkPartitionFrom, if_neg (not_not_intro meets), if_neg nonempty, if_neg inside,
        ih fits, List.length_cons, Nat.add_assoc, Nat.add_comm 1]

theorem checkPartition_of_spans {tokens : List Token} {length covered : Nat} (spans : Spans 0 tokens covered)
    (fits : covered ≤ length) :
    checkPartition tokens length = if covered = length then .ok () else .error (.incomplete covered length) := by
  have passed := checkPartitionFrom_append spans fits 0 []
  rw [List.append_nil] at passed
  exact passed

/-- A covered beginning ends where its last token stops. -/
theorem stopBefore_of_spans {tokens : List Token} {index covered : Nat} (inside : index ≤ tokens.length)
    (spans : Spans 0 (tokens.take index) covered) : stopBefore tokens index = covered := by
  cases index with
  | zero =>
      rw [List.take_zero] at spans
      exact Spans.nil_iff.mp spans
  | succ index =>
      rw [List.take_succ_eq_append_getElem inside] at spans
      obtain ⟨middle, _, last⟩ := spans.split
      rw [stopBefore, List.getElem?_eq_getElem inside]
      exact (Spans.singleton_iff.mp last).2.2

namespace FirstBad

variable {tokens : List Token} {length index : Nat} {token : Token}

theorem inside (first : FirstBad tokens length index token) : index < tokens.length :=
  (List.getElem?_eq_some_iff.mp first.here).1

theorem spans_before (first : FirstBad tokens length index token) :
    Spans 0 (tokens.take index) (stopBefore tokens index) ∧ stopBefore tokens index ≤ length := by
  obtain ⟨covered, fits, spans⟩ : ∃ covered ≤ length, Spans 0 (tokens.take index) covered := by
    cases index with
    | zero => exact ⟨0, Nat.zero_le length, .nil 0⟩
    | succ index =>
        obtain ⟨covered, fits, covers⟩ := first.least index (Nat.lt_succ_self index)
        exact ⟨covered, fits, covers_iff_spans.mp covers⟩
  rw [stopBefore_of_spans (Nat.le_of_lt first.inside) spans]
  exact ⟨spans, fits⟩

/-- The check comes to the first bad token and expects it where the token before it stops. -/
theorem check (first : FirstBad tokens length index token) :
    checkPartition tokens length =
      checkPartitionFrom length index (stopBefore tokens index) (token :: tokens.drop (index + 1)) := by
  obtain ⟨spans, fits⟩ := first.spans_before
  obtain ⟨inside, same⟩ := List.getElem?_eq_some_iff.mp first.here
  have passed := checkPartitionFrom_append spans fits 0 (tokens.drop index)
  rw [List.take_append_drop, List.length_take_of_le (Nat.le_of_lt inside), Nat.zero_add,
    List.drop_eq_getElem_cons inside, same] at passed
  exact passed

/-- A bad token that starts where it should and is not empty runs out of the source. -/
theorem lt_stop (first : FirstBad tokens length index token) (meets : token.start = stopBefore tokens index)
    (forward : token.start < token.stop) : length < token.stop := by
  obtain ⟨inside, same⟩ := List.getElem?_eq_some_iff.mp first.here
  refine Nat.lt_of_not_le fun fits => first.bad ⟨token.stop, fits, covers_iff_spans.mpr ?_⟩
  rw [List.take_succ_eq_append_getElem inside, same]
  exact first.spans_before.1.append (Spans.singleton_iff.mpr ⟨meets, forward, rfl⟩)

end FirstBad

/-! ## What the check says -/

theorem checkPartition_of_fault {tokens : List Token} {length : Nat} {error : PartitionError}
    (fault : PartitionFault tokens length error) : checkPartition tokens length = .error error := by
  cases fault with
  | gap first apart => rw [first.check, checkPartitionFrom, if_pos apart]
  | empty first meets backward =>
      rw [first.check, checkPartitionFrom, if_neg (not_not_intro meets), if_pos (Token.isEmpty_iff.mpr backward)]
  | outOfBounds first meets forward =>
      have nonempty := mt Token.isEmpty_iff.mp (Nat.not_le_of_gt forward)
      rw [first.check, checkPartitionFrom, if_neg (not_not_intro meets), if_neg nonempty,
        if_pos (first.lt_stop meets forward)]
  | incomplete covers short =>
      rw [checkPartition_of_spans (covers_iff_spans.mp covers) (Nat.le_of_lt short), if_neg (Nat.ne_of_lt short)]

theorem FirstBad.exists_fault {tokens : List Token} {length index : Nat} {token : Token}
    (first : FirstBad tokens length index token) : ∃ error, PartitionFault tokens length error := by
  by_cases meets : token.start = stopBefore tokens index
  · by_cases backward : token.stop ≤ token.start
    · exact ⟨_, .empty first meets backward⟩
    · exact ⟨_, .outOfBounds first meets (Nat.lt_of_not_le backward)⟩
  · exact ⟨_, .gap first meets⟩

/-- Up to any number the tokens cover a beginning of the source, or there is a first that is bad. -/
theorem coversBeginning_or_firstBad (tokens : List Token) (length count : Nat) (inside : count ≤ tokens.length) :
    (∀ index ≤ count, CoversBeginning (tokens.take index) length) ∨
      ∃ index token, FirstBad tokens length index token := by
  induction count with
  | zero =>
      refine .inl fun index none => ?_
      rw [Nat.le_zero.mp none]
      exact ⟨0, Nat.zero_le length, covers_iff_spans.mpr (.nil 0)⟩
  | succ count ih =>
      rcases ih (Nat.le_of_succ_le inside) with covered | found
      · by_cases next : CoversBeginning (tokens.take (count + 1)) length
        · refine .inl fun index upTo => ?_
          rcases Nat.le_succ_iff.mp upTo with earlier | rfl
          · exact covered index earlier
          · exact next
        · refine .inr ⟨count, tokens[count], List.getElem?_eq_getElem inside, next, ?_⟩
          intro earlier before
          exact covered (earlier + 1) before
      · exact .inr found

theorem covers_or_fault (tokens : List Token) (length : Nat) :
    Covers tokens length ∨ ∃ error, PartitionFault tokens length error := by
  rcases coversBeginning_or_firstBad tokens length tokens.length (Nat.le_refl _) with good | ⟨index, token, first⟩
  · have all := good tokens.length (Nat.le_refl _)
    rw [List.take_length] at all
    obtain ⟨covered, fits, covers⟩ := all
    rcases Nat.eq_or_lt_of_le fits with rfl | short
    · exact .inl covers
    · exact .inr ⟨_, .incomplete covers short⟩
  · exact .inr first.exists_fault

theorem checkPartition_of_covers {tokens : List Token} {length : Nat} (covers : Covers tokens length) :
    checkPartition tokens length = .ok () := by
  rw [checkPartition_of_spans (covers_iff_spans.mp covers) (Nat.le_refl length), if_pos rfl]

/-- The check accepts just the tokens that cover a source of the length, and the texts of these join
to the source. What it says of other tokens is what is wrong with the first bad one, or how much they
cover if none is bad. -/
theorem checkPartition_finds_fault (tokens : List Token) (length : Nat) :
    (checkPartition tokens length = .ok () ↔ Covers tokens length) ∧
      (Covers tokens length → ∀ source : Bytes, source.length = length →
        tokens.flatMap (fun token => token.text source) = source) ∧
      (∀ error, checkPartition tokens length = .error error ↔ PartitionFault tokens length error) ∧
      ∀ index token, FirstBad tokens length index token →
        checkPartition tokens length = .error
          (if token.start ≠ stopBefore tokens index then .gap index (stopBefore tokens index) token.start
          else if token.stop ≤ token.start then .empty index
          else .outOfBounds index token.stop length) := by
  refine ⟨⟨fun accepted => ?_, checkPartition_of_covers⟩, ?_,
    fun error => ⟨fun refused => ?_, checkPartition_of_fault⟩, ?_⟩
  · rcases covers_or_fault tokens length with covers | ⟨error, fault⟩
    · exact covers
    · rw [checkPartition_of_fault fault] at accepted
      cases accepted
  · rintro covers source rfl
    exact texts_join (checkPartition_of_covers covers)
  · rcases covers_or_fault tokens length with covers | ⟨other, fault⟩
    · rw [checkPartition_of_covers covers] at refused
      cases refused
    · rw [checkPartition_of_fault fault] at refused
      cases refused
      exact fault
  · intro index token first
    apply checkPartition_of_fault
    split
    · rename_i apart
      exact .gap first apart
    · rename_i meets
      rw [ne_eq, Decidable.not_not] at meets
      split
      · rename_i backward
        exact .empty first meets backward
      · rename_i forward
        exact .outOfBounds first meets (Nat.lt_of_not_le forward)

/-- The second token starts in the wrong place and runs backwards, and of two that go up to the
greatest 64-bit offset the first is out of bounds. -/
theorem checkPartition_finds_fault_twice :
    checkPartition [⟨.ident, 0, 2⟩, ⟨.whitespace, 2, 3⟩] 3 = .ok () ∧
      Covers [⟨.ident, 0, 2⟩, ⟨.whitespace, 2, 3⟩] 3 ∧
      [(⟨.ident, 0, 2⟩ : Token), ⟨.whitespace, 2, 3⟩].flatMap (fun token => token.text [0x69, 0x66, 0x20]) =
        [0x69, 0x66, 0x20] ∧
      FirstBad [⟨.ident, 0, 2⟩, ⟨.whitespace, 3, 1⟩] 2 1 ⟨.whitespace, 3, 1⟩ ∧
      checkPartition [⟨.ident, 0, 2⟩, ⟨.whitespace, 3, 1⟩] 2 = .error (.gap 1 2 3) ∧
      FirstBad [⟨.number, 0, 18446744073709551615⟩, ⟨.number, 1, 18446744073709551615⟩] 4 0
        ⟨.number, 0, 18446744073709551615⟩ ∧
      checkPartition [⟨.number, 0, 18446744073709551615⟩, ⟨.number, 1, 18446744073709551615⟩] 4 =
        .error (.outOfBounds 0 18446744073709551615 4) := by
  obtain ⟨accepts, joins, _⟩ := checkPartition_finds_fault [⟨.ident, 0, 2⟩, ⟨.whitespace, 2, 3⟩] 3
  obtain ⟨_, _, _, reported⟩ := checkPartition_finds_fault [⟨.ident, 0, 2⟩, ⟨.whitespace, 3, 1⟩] 2
  obtain ⟨_, _, _, reportedHuge⟩ := checkPartition_finds_fault
    [⟨.number, 0, 18446744073709551615⟩, ⟨.number, 1, 18446744073709551615⟩] 4
  have covers := accepts.mp rfl
  have second : FirstBad [⟨.ident, 0, 2⟩, ⟨.whitespace, 3, 1⟩] 2 1 ⟨.whitespace, 3, 1⟩ := by
    refine ⟨rfl, ?_, ?_⟩
    · rintro ⟨covered, _, covering⟩
      cases covers_iff_spans.mp covering with
      | cons _ _ later =>
          cases later with
          | cons meets => cases meets
    · intro earlier before
      obtain rfl : earlier = 0 := Nat.lt_one_iff.mp before
      exact ⟨2, Nat.le_refl 2, covers_iff_spans.mpr (.cons rfl (by decide) (.nil 2))⟩
  have first : FirstBad [⟨.number, 0, 18446744073709551615⟩, ⟨.number, 1, 18446744073709551615⟩] 4 0
      ⟨.number, 0, 18446744073709551615⟩ := by
    refine ⟨rfl, ?_, ?_⟩
    · rintro ⟨covered, fits, covering⟩
      obtain ⟨_, _, stops⟩ := Spans.singleton_iff.mp (covers_iff_spans.mp covering)
      rw [← stops] at fits
      exact absurd fits (by decide)
    · intro earlier before
      exact absurd before (Nat.not_lt_zero earlier)
  exact ⟨accepts.mpr covers, covers, joins covers [0x69, 0x66, 0x20] rfl, second, reported 1 _ second, first,
    reportedHuge 0 _ first⟩

end CodeTint
