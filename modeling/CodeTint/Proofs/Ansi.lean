import CodeTint.Markup.Ansi
import CodeTint.Proofs.Utf8

/-!
# Pictures and control sequences

How one picture is read, whatever follows it; and that an escaped text holds
nothing a terminal would act on, so that the control sequences around it are
found again and left out.
-/

namespace CodeTint.Ansi

/-! ## Pictures -/

/-- The third bytes of pictures. -/
def IsThird (third : UInt8) : Prop :=
  0x80 ≤ third.toNat ∧ third.toNat ≤ 0xA6

instance (third : UInt8) : Decidable (IsThird third) :=
  inferInstanceAs (Decidable (_ ∧ _))

theorem picture?_eq_some_iff {bytes : Bytes} {third : UInt8} :
    picture? bytes = some third ↔ IsThird third ∧ ∃ rest, bytes = picture third ++ rest := by
  unfold picture? IsThird
  split
  · rename_i first second other rest
    simp only [Option.ite_none_right_eq_some, Option.some.injEq, Bool.and_eq_true, beq_iff_eq,
      decide_eq_true_eq, UInt8.le_iff_toNat_le, picture, List.cons_append, List.nil_append,
      List.cons.injEq]
    constructor
    · rintro ⟨⟨⟨⟨rfl, rfl⟩, above⟩, below⟩, rfl⟩
      exact ⟨⟨above, below⟩, rest, rfl, rfl, rfl, rfl⟩
    · rintro ⟨⟨above, below⟩, rest, rfl, rfl, rfl, rfl⟩
      exact ⟨⟨⟨⟨rfl, rfl⟩, above⟩, below⟩, rfl⟩
  · rename_i short
    constructor
    · intro found
      cases found
    · rintro ⟨_, rest, rfl⟩
      exact absurd rfl (short 0xE2 0x90 third rest)

theorem picture?_picture {third : UInt8} (isThird : IsThird third) (rest : Bytes) :
    picture? (picture third ++ rest) = some third :=
  picture?_eq_some_iff.mpr ⟨isThird, rest, rfl⟩

theorem picture?_of_ne {b : UInt8} (other : b ≠ 0xE2) (rest : Bytes) : picture? (b :: rest) = none := by
  rw [Option.eq_none_iff_forall_ne_some]
  intro third found
  obtain ⟨_, after, same⟩ := picture?_eq_some_iff.mp found
  exact other (List.cons.inj same).1

/-- A third byte starts no picture itself. -/
theorem IsThird.ne {third : UInt8} (isThird : IsThird third) : third ≠ 0xE2 := by
  rintro rfl
  exact absurd isThird.2 (by decide)

/-- No picture of the text that starts before the cut ends after it. -/
def KeepsPictures (text : Bytes) (cut : Nat) : Prop :=
  ∀ offset third, picture? (text.drop offset) = some third → offset < cut → offset + 3 ≤ cut

theorem KeepsPictures.behind (first : Bytes) {rest more : Bytes}
    (kept : KeepsPictures (first ++ rest ++ more) (first ++ rest).length) :
    KeepsPictures (rest ++ more) rest.length := by
  intro offset third found before
  have later : ((first ++ rest ++ more).drop (first.length + offset)) = (rest ++ more).drop offset := by
    rw [List.append_assoc, ← List.drop_drop, List.drop_left]
  rw [← later] at found
  rw [List.length_append] at kept
  have bound := kept (first.length + offset) third found (by omega)
  omega

/-- A picture is a character of three bytes. -/
theorem decode?_of_picture? {text : Bytes} {third : UInt8} (found : picture? text = some third) :
    ∃ c, Utf8.decode? text = some (c, 3) := by
  obtain ⟨⟨above, below⟩, rest, rfl⟩ := picture?_eq_some_iff.mp found
  have continued : Utf8.isContinuation third = true := by
    rw [Utf8.isContinuation_iff]
    omega
  have small := Utf8.payload_lt third
  have valid : (0x2400 + Utf8.payload third).isValidChar := .inl (by omega)
  have scalar : Utf8.scalar? 0x800 (0x2400 + Utf8.payload third) =
      some (Char.ofNat (0x2400 + Utf8.payload third)) := if_pos ⟨by omega, valid⟩
  obtain ⟨code, long⟩ := Utf8.toNat_of_scalar? scalar
  have shape := Utf8.Sequence.three 0xE2 0x90 third (by decide) (by decide) continued code
    (Nat.le_trans long (Nat.le_of_eq code.symm))
  exact ⟨_, Utf8.decode?_sequence_append shape rest⟩

/-- A cut between characters is a cut between pictures. -/
theorem keepsPictures_of_keepsWhole {text : Bytes} {cut : Nat} (whole : Utf8.KeepsWhole text cut) :
    KeepsPictures text cut := by
  intro offset third found before
  obtain ⟨c, decoded⟩ := decode?_of_picture? found
  exact whole offset c 3 decoded before

/-! ## Writing -/

theorem escape_nil : escape [] = [] := by
  rw [escape]

theorem escape_hidden {b : UInt8} (hidden : isHidden b = true) (rest : Bytes) :
    escape (b :: rest) = pictureOf b ++ escape rest := by
  rw [escape, hidden]
  rfl

theorem escape_of_picture? {b third : UInt8} {rest : Bytes} (visible : isHidden b = false)
    (found : picture? (b :: rest) = some third) :
    escape (b :: rest) = picture literalMark ++ picture third ++ escape (rest.drop 2) := by
  rw [escape, visible, found]
  rfl

theorem escape_plain {b : UInt8} {rest : Bytes} (visible : isHidden b = false)
    (absent : picture? (b :: rest) = none) : escape (b :: rest) = b :: escape rest := by
  rw [escape, visible, absent]
  rfl

/-! ## Reading -/

theorem restore_nil : restore [] = [] := by
  rw [restore]

theorem restore_other {b : UInt8} {rest : Bytes} (other : picture? (b :: rest) = none) :
    restore (b :: rest) = b :: restore rest := by
  rw [restore]
  split
  · rfl
  · rename_i found
    rw [other] at found
    cases found

/-- Bytes inside a picture are read one by one if the picture is not read as such. -/
theorem restore_inside {third : UInt8} (isThird : IsThird third) (rest : Bytes) :
    restore (0x90 :: third :: rest) = 0x90 :: third :: restore rest := by
  rw [restore_other (picture?_of_ne (by decide) _), restore_other (picture?_of_ne isThird.ne _)]

theorem restore_picture {third : UInt8} (isThird : IsThird third) (rest : Bytes) :
    restore (picture third ++ rest) =
      if third == literalMark && 3 ≤ rest.length then rest.take 3 ++ restore (rest.drop 3)
      else if third ≤ 0x9F then (third - 0x80) :: restore rest
      else if third == delPicture then del :: restore rest
      else picture third ++ restore rest := by
  have found := picture?_picture isThird rest
  change restore (0xE2 :: 0x90 :: third :: rest) = _
  rw [restore]
  split
  · rename_i absent
    cases absent.symm.trans found
  · rename_i other found'
    cases found'.symm.trans found
    rw [restore_inside isThird]
    rfl

/-- The mark keeps the three bytes behind it. -/
theorem restore_mark {rest : Bytes} (enough : 3 ≤ rest.length) :
    restore (picture literalMark ++ rest) = rest.take 3 ++ restore (rest.drop 3) := by
  have isThird : IsThird literalMark := by decide
  rw [restore_picture isThird, if_pos (by simp [enough])]

theorem small_of_isHidden {b : UInt8} (hidden : isHidden b = true) : b = del ∨ b.toNat < 0x20 := by
  simp only [isHidden, Bool.or_eq_true, Bool.and_eq_true, decide_eq_true_eq, beq_iff_eq,
    UInt8.lt_iff_toNat_lt] at hidden
  rcases hidden with ⟨⟨⟨small, _⟩, _⟩, _⟩ | same
  · exact .inr small
  · exact .inl same

theorem ascii_of_isHidden {b : UInt8} (hidden : isHidden b = true) : b.toNat < 0x80 := by
  rcases small_of_isHidden hidden with rfl | small
  · decide
  · omega

/-- The picture of a control byte tells that byte, and is not the mark. -/
theorem pictureOf_eq {b : UInt8} (hidden : isHidden b = true) :
    ∃ third, IsThird third ∧ pictureOf b = picture third ∧ third ≠ literalMark ∧
      (third = delPicture ∧ b = del ∨ third ≤ 0x9F ∧ third - 0x80 = b) := by
  unfold pictureOf
  by_cases last : b = del
  · subst last
    exact ⟨delPicture, by decide, rfl, by decide, .inl ⟨rfl, rfl⟩⟩
  · have small := (small_of_isHidden hidden).resolve_left last
    have code : (0x80 + b).toNat = 0x80 + b.toNat := by
      rw [UInt8.toNat_add]
      exact Nat.mod_eq_of_lt (Nat.lt_of_lt_of_le (Nat.add_lt_add_left small _) (by decide))
    have control : (0x80 + b).toNat ≤ 0x9F := by
      rw [code]
      exact Nat.add_le_add_left (Nat.le_of_lt_succ small) 0x80
    refine ⟨0x80 + b, ⟨by omega, by omega⟩, by rw [if_neg (mt eq_of_beq last)], ?_, .inr ⟨?_, ?_⟩⟩
    · intro same
      rw [same] at control
      exact absurd control (by decide)
    · exact UInt8.le_iff_toNat_le.mpr control
    · rw [UInt8.add_comm, UInt8.add_sub_cancel]

/-- The picture of a control byte is read as that byte. -/
theorem restore_pictureOf {b : UInt8} (hidden : isHidden b = true) (rest : Bytes) :
    restore (pictureOf b ++ rest) = b :: restore rest := by
  obtain ⟨third, isThird, same, unmarked, meaning⟩ := pictureOf_eq hidden
  rw [same, restore_picture isThird, beq_eq_false_iff_ne.mpr unmarked, Bool.false_and,
    if_neg (by decide)]
  rcases meaning with ⟨rfl, rfl⟩ | ⟨control, rfl⟩
  · rfl
  · rw [if_pos control]

/-- A picture read as something else than itself gives one byte. -/
theorem restore_control {third : UInt8} (isThird : IsThird third)
    (control : third ≤ 0x9F ∨ third = delPicture) (rest : Bytes) :
    ∃ b, restore (picture third ++ rest) = b :: restore rest := by
  have unmarked : (third == literalMark) = false := by
    rw [beq_eq_false_iff_ne]
    rintro rfl
    revert control
    decide
  rw [restore_picture isThird, unmarked, Bool.false_and, if_neg (by decide)]
  rcases control with low | rfl
  · rw [if_pos low]
    exact ⟨_, rfl⟩
  · exact ⟨del, rfl⟩

theorem restore_stays {third : UInt8} (isThird : IsThird third) {rest : Bytes}
    (unmarked : third = literalMark → rest.length < 3) (high : ¬third ≤ 0x9F)
    (other : third ≠ delPicture) :
    restore (picture third ++ rest) = picture third ++ restore rest := by
  rw [restore_picture isThird, if_neg, if_neg high, if_neg (mt eq_of_beq other)]
  simp only [Bool.and_eq_true, beq_iff_eq, decide_eq_true_eq, not_and]
  intro mark enough
  exact absurd enough (Nat.not_le.mpr (unmarked mark))

/-- Bytes left of a picture are read one by one. -/
theorem restore_drop_picture {third : UInt8} (isThird : IsThird third) (rest : Bytes) {skipped : Nat}
    (some : 0 < skipped) (within : skipped ≤ 3) :
    (restore ((picture third ++ rest).drop skipped)).length = 3 - skipped + (restore rest).length := by
  match skipped with
  | 1 =>
      change (restore (0x90 :: third :: rest)).length = _
      rw [restore_inside isThird]
      simp only [List.length_cons]
      omega
  | 2 =>
      change (restore (third :: rest)).length = _
      rw [restore_other (picture?_of_ne isThird.ne _), List.length_cons]
      omega
  | 3 => exact (Nat.zero_add _).symm

theorem restore_of_not_hasPicture {escaped : Bytes} (none : hasPicture escaped = false) :
    restore escaped = escaped := by
  induction escaped with
  | nil => exact restore_nil
  | cons b rest ih =>
      obtain ⟨here, later⟩ := Bool.or_eq_false_iff.mp none
      rw [restore_other (Option.isNone_iff_eq_none.mp (Option.isSome_eq_false_iff.mp here)), ih later]

/-- The short cut for texts without pictures changes nothing. -/
theorem unescape_eq_restore (escaped : Bytes) : unescape escaped = restore escaped := by
  unfold unescape
  split
  · rfl
  · rename_i none
    exact (restore_of_not_hasPicture (Bool.eq_false_iff.mpr none)).symm

/-! ## Control sequences -/

theorem not_isHidden_of_large {b : UInt8} (large : 0x80 ≤ b.toNat) : isHidden b = false := by
  rw [Bool.eq_false_iff]
  intro hidden
  rcases small_of_isHidden hidden with rfl | small
  · exact absurd large (by decide)
  · omega

/-- The control bytes that are not hidden are tabs and line breaks. -/
theorem control_of_not_isHidden {b : UInt8} (visible : isHidden b = false) (small : b < 0x20) :
    b = 0x09 ∨ b = Byte.lineFeed ∨ b = Byte.carriageReturn := by
  simp only [isHidden, Bool.or_eq_false_iff, Bool.and_eq_false_iff, decide_eq_false_iff_not,
    bne_eq_false_iff_eq] at visible
  rcases visible.1 with ((large | tab) | feed) | carriage
  · exact absurd small large
  · exact .inl tab
  · exact .inr (.inl feed)
  · exact .inr (.inr carriage)

theorem not_isHidden_of_mem_picture {b third : UInt8} (isThird : IsThird third)
    (member : b ∈ picture third) : isHidden b = false := by
  simp only [picture, List.mem_cons, List.not_mem_nil, or_false] at member
  rcases member with rfl | rfl | rfl
  · rfl
  · rfl
  · exact not_isHidden_of_large isThird.1

/-- An escaped text holds no byte that a terminal would act on. -/
theorem not_isHidden_of_mem_escape {text : Bytes} {b : UInt8} (member : b ∈ escape text) :
    isHidden b = false := by
  fun_induction escape text with
  | case1 => cases member
  | case2 c rest hidden ih =>
      obtain ⟨third, isThird, same, _⟩ := pictureOf_eq hidden
      rw [same, List.mem_append] at member
      rcases member with here | later
      · exact not_isHidden_of_mem_picture isThird here
      · exact ih later
  | case3 c rest visible third found ih =>
      have isThird := (picture?_eq_some_iff.mp found).1
      simp only [List.mem_append] at member
      rcases member with (mark | here) | later
      · exact not_isHidden_of_mem_picture (by decide) mark
      · exact not_isHidden_of_mem_picture isThird here
      · exact ih later
  | case4 c rest visible absent ih =>
      rcases List.mem_cons.mp member with rfl | later
      · exact Bool.eq_false_iff.mpr visible
      · exact ih later

theorem esc_not_mem_escape (text : Bytes) : esc ∉ escape text := by
  intro member
  have visible := not_isHidden_of_mem_escape member
  exact absurd visible (by decide)

theorem stripSgr_plain {text : Bytes} (plain : esc ∉ text) (rest : Bytes) :
    stripSgr (text ++ rest) = text ++ stripSgr rest := by
  induction text with
  | nil => rfl
  | cons b text ih =>
      rw [List.mem_cons, not_or] at plain
      obtain ⟨other, plain⟩ := plain
      rw [List.cons_append, stripSgr, if_neg (mt eq_of_beq (Ne.symm other)), ih plain]
      rfl

theorem stripSgr_sequence {body : Bytes} (inside : 0x6D ∉ body) (rest : Bytes) :
    stripSgr (esc :: (body ++ 0x6D :: rest)) = stripSgr rest := by
  have passed : ∀ b ∈ body, (b != 0x6D) = true := by
    intro b member
    rw [bne_iff_ne]
    rintro rfl
    exact inside member
  rw [stripSgr, if_pos (beq_self_eq_true esc), List.dropWhile_append_of_pos passed]
  rfl

theorem stripSgr_openSequence {style : String} (plain : 0x6D ∉ Text.bytes style) (rest : Bytes) :
    stripSgr (openSequence style ++ rest) = stripSgr rest := by
  have inside : 0x6D ∉ 0x5B :: Text.bytes style := by
    rw [List.mem_cons, not_or]
    exact ⟨by decide, plain⟩
  have shape : openSequence style ++ rest = esc :: ((0x5B :: Text.bytes style) ++ 0x6D :: rest) := by
    simp only [openSequence, List.append_assoc]
    rfl
  rw [shape, stripSgr_sequence inside]

theorem stripSgr_reset (rest : Bytes) : stripSgr (reset ++ rest) = stripSgr rest := by
  have inside : (0x6D : UInt8) ∉ [0x5B, 0x30] := by decide
  exact stripSgr_sequence inside rest

end CodeTint.Ansi
