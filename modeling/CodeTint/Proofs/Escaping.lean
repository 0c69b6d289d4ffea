import CodeTint.Proofs.Glyph

/-!
# Cuts in escaped texts

The parts of a text may be escaped one by one, unless the text is cut inside a picture:
the two halves of a picture are no pictures, and only the whole one is written with a
mark. Beside this stand the other laws of escaping: it is undone, and leaves no control
byte but tabs and line breaks.
-/

namespace CodeTint.Ansi

/-! ## Cuts -/

namespace KeepsPictures

theorem append {first rest : Bytes} {cut : Nat} (front : KeepsPictures (first ++ rest) first.length)
    (tail : KeepsPictures rest cut) : KeepsPictures (first ++ rest) (first.length + cut) := by
  intro offset third found before
  by_cases inside : offset < first.length
  · have bound := front offset third found inside
    omega
  · obtain ⟨later, rfl⟩ := Nat.exists_eq_add_of_le (Nat.le_of_not_lt inside)
    rw [← List.drop_drop, List.drop_left] at found
    have bound := tail later third found (by omega)
    omega

theorem of_other {b : UInt8} {rest : Bytes} (other : picture? (b :: rest) = none) :
    KeepsPictures ([b] ++ rest) 1 := by
  intro offset third found before
  obtain rfl : offset = 0 := by omega
  cases other.symm.trans found

/-- No picture starts inside another one. -/
theorem of_picture {third : UInt8} (isThird : IsThird third) (rest : Bytes) :
    KeepsPictures (picture third ++ rest) 3 := by
  intro offset other found before
  rcases offset with _ | _ | _ | offset
  · exact Nat.le_refl 3
  · cases (picture?_of_ne (by decide) (third :: rest)).symm.trans found
  · cases (picture?_of_ne isThird.ne rest).symm.trans found
  · omega

end KeepsPictures

theorem picture?_append {left : Bytes} (long : 3 ≤ left.length) (right : Bytes) :
    picture? (left ++ right) = picture? left := by
  rcases left with _ | ⟨first, _ | ⟨second, _ | ⟨third, rest⟩⟩⟩
  · exact absurd long (Nat.not_succ_le_zero 2)
  · simp at long
  · simp at long
  · rfl

/-! ## Escaping across a cut -/

theorem escape_picture {third : UInt8} (isThird : IsThird third) (rest : Bytes) :
    escape (picture third ++ rest) = picture literalMark ++ picture third ++ escape rest :=
  escape_of_picture? (by decide) (picture?_picture isThird rest)

theorem escape_third {third : UInt8} (isThird : IsThird third) (rest : Bytes) :
    escape (third :: rest) = third :: escape rest :=
  escape_plain (not_isHidden_of_large isThird.1) (picture?_of_ne isThird.ne rest)

theorem escape_inside {third : UInt8} (isThird : IsThird third) (rest : Bytes) :
    escape (0x90 :: third :: rest) = 0x90 :: third :: escape rest := by
  rw [escape_plain (by decide) (picture?_of_ne (by decide) _), escape_third isThird]

/-- A picture that is cut stays as it is. -/
theorem escape_cut_picture {third : UInt8} (isThird : IsThird third) {left right after : Bytes}
    (same : left ++ right = picture third ++ after) (nonempty : left ≠ []) (short : left.length < 3) :
    escape left ++ escape right = picture third ++ escape after := by
  rcases left with _ | ⟨first, _ | ⟨second, _ | ⟨last, rest⟩⟩⟩
  · exact absurd rfl nonempty
  · obtain ⟨rfl, rfl⟩ := List.cons.inj same
    change escape [0xE2] ++ escape (0x90 :: third :: after) = _
    rw [escape_inside isThird, escape_plain (by decide) rfl, escape_nil]
    rfl
  · obtain ⟨rfl, behind⟩ := List.cons.inj same
    obtain ⟨rfl, rfl⟩ := List.cons.inj behind
    change escape [0xE2, 0x90] ++ escape (third :: after) = _
    rw [escape_third isThird, escape_plain (by decide) rfl, escape_plain (by decide) rfl, escape_nil]
    rfl
  · simp only [List.length_cons] at short
    omega

theorem keepsPictures_of_escape_append {left right : Bytes}
    (same : escape (left ++ right) = escape left ++ escape right) :
    KeepsPictures (left ++ right) left.length := by
  -- The first glyph is the same on both sides, and the induction goes on behind it.
  fun_induction escape left with
  | case1 =>
      intro offset third found before
      cases before
  | case2 b rest hidden ih =>
      have other : picture? (b :: (rest ++ right)) = none := by
        apply picture?_of_ne
        rintro rfl
        cases hidden
      rw [List.cons_append, escape_hidden hidden, List.append_assoc] at same
      rw [List.length_cons, Nat.add_comm]
      exact (KeepsPictures.of_other other).append (ih (List.append_cancel_left same))
  | case3 b rest visible third found ih =>
      obtain ⟨isThird, after, here⟩ := picture?_eq_some_iff.mp found
      obtain ⟨rfl, rfl⟩ := List.cons.inj here
      have marked : picture literalMark ++ picture third ++ escape (after ++ right) =
          picture literalMark ++ picture third ++ (escape after ++ escape right) := by
        rw [← escape_picture isThird, ← List.append_assoc]
        exact same
      have kept := (KeepsPictures.of_picture isThird (after ++ right)).append (ih (List.append_cancel_left marked))
      rw [Nat.add_comm] at kept
      exact kept
  | case4 b rest visible absent ih =>
      have visible := Bool.eq_false_iff.mpr visible
      cases front : picture? (b :: (rest ++ right)) with
      | none =>
          rw [List.cons_append, escape_plain visible front] at same
          rw [List.length_cons, Nat.add_comm]
          exact (KeepsPictures.of_other front).append (ih (List.cons.inj same).2)
      | some third =>
          -- Here a picture is cut, and only the whole text has a mark before it.
          obtain ⟨isThird, after, here⟩ := picture?_eq_some_iff.mp front
          have short : (b :: rest).length < 3 := by
            apply Nat.lt_of_not_le
            intro long
            rw [← List.cons_append, picture?_append long, absent] at front
            cases front
          have parts := escape_cut_picture isThird here (List.cons_ne_nil b rest) short
          rw [escape_plain visible absent] at parts
          rw [parts, List.cons_append, here, escape_picture isThird] at same
          have lengths := congrArg List.length same
          rw [List.append_assoc, length_picture_append] at lengths
          omega

/-- Escaping a text part by part gives the same as escaping it at once exactly if no picture is cut. -/
theorem escape_append_iff {left right : Bytes} :
    escape (left ++ right) = escape left ++ escape right ↔ KeepsPictures (left ++ right) left.length :=
  ⟨keepsPictures_of_escape_append, escape_append⟩

/-- Escaping is undone; it leaves no control byte but tabs and line breaks; it may be done part by
part, exactly if no picture is cut; and reading back is the same with the short cut for texts
without pictures as without it. -/
theorem escape_laws (text : Bytes) :
    unescape (escape text) = text ∧
      (∀ b ∈ escape text, b ≠ del ∧
        (b < 0x20 → b = 0x09 ∨ b = Byte.lineFeed ∨ b = Byte.carriageReturn)) ∧
      (∀ left right, escape (left ++ right) = escape left ++ escape right ↔
        KeepsPictures (left ++ right) left.length) ∧
      unescape text = restore text := by
  refine ⟨unescape_escape text, ?_, ?_, unescape_eq_restore text⟩
  · intro b member
    have visible := not_isHidden_of_mem_escape member
    constructor
    · rintro rfl
      cases visible
    · exact control_of_not_isHidden visible
  · intro left right
    exact escape_append_iff

end CodeTint.Ansi
