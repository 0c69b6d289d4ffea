import CodeTint.Proofs.Ansi

/-!
# Glyphs of terminal markup

Escaping takes a text apart into glyphs: control bytes, pictures and all other
bytes. What is written for a list of glyphs is read back glyph by glyph, unless
the bytes of a picture stand in it one by one, as they do where a text is cut
inside a picture and its parts are escaped apart. The glyphs of one text never
stand like that.
-/

namespace CodeTint.Ansi

/-! ## Glyphs -/

/-- What a text is taken apart into. -/
inductive Glyph
  | plain (b : UInt8)
  | control (b : UInt8) (hidden : isHidden b = true)
  | picture (third : UInt8)

namespace Glyph

def text : Glyph → Bytes
  | plain b => [b]
  | control b _ => [b]
  | picture third => Ansi.picture third

def escaped : Glyph → Bytes
  | plain b => [b]
  | control b _ => pictureOf b
  | picture third => Ansi.picture literalMark ++ Ansi.picture third

end Glyph

/-- The glyphs of a text. -/
def glyphs : Bytes → List Glyph
  | [] => []
  | b :: rest =>
      if hidden : isHidden b then .control b hidden :: glyphs rest
      else
        match picture? (b :: rest) with
        | some third => .picture third :: glyphs (rest.drop 2)
        | none => .plain b :: glyphs rest
termination_by text => text.length

/-- What is written for a list of glyphs. -/
def content (list : List Glyph) : Bytes :=
  list.flatMap Glyph.escaped

/-- The text a list of glyphs stands for. -/
def plainText (list : List Glyph) : Bytes :=
  list.flatMap Glyph.text

@[simp]
theorem content_cons (glyph : Glyph) (rest : List Glyph) :
    content (glyph :: rest) = glyph.escaped ++ content rest := rfl

@[simp]
theorem plainText_cons (glyph : Glyph) (rest : List Glyph) :
    plainText (glyph :: rest) = glyph.text ++ plainText rest := rfl

theorem content_glyphs (text : Bytes) : content (glyphs text) = escape text := by
  fun_induction glyphs text with
  | case1 => rw [escape]; rfl
  | case2 b rest hidden ih =>
      rw [escape, if_pos hidden, ← ih]
      rfl
  | case3 b rest visible third found ih =>
      rw [escape, if_neg visible, found, ← ih]
      rfl
  | case4 b rest visible absent ih =>
      rw [escape, if_neg visible, absent, ← ih]
      rfl

theorem plainText_glyphs (text : Bytes) : plainText (glyphs text) = text := by
  fun_induction glyphs text with
  | case1 => rfl
  | case2 b rest hidden ih =>
      exact congrArg (b :: ·) ih
  | case3 b rest visible third found ih =>
      obtain ⟨_, after, same⟩ := picture?_eq_some_iff.mp found
      obtain ⟨rfl, rfl⟩ := List.cons.inj same
      exact congrArg (picture third ++ ·) ih
  | case4 b rest visible absent ih => exact congrArg (b :: ·) ih

/-- What is written for glyphs starts with an ordinary byte only if they do. -/
theorem plain_of_content {list : List Glyph} {b : UInt8} {more : Bytes} (other : b ≠ 0xE2)
    (written : content list = b :: more) : ∃ rest, list = .plain b :: rest ∧ more = content rest := by
  cases list with
  | nil => cases written
  | cons glyph rest =>
      cases glyph with
      | plain c =>
          obtain ⟨rfl, same⟩ := List.cons.inj written
          exact ⟨rest, rfl, same.symm⟩
      | control c hidden => exact absurd (List.cons.inj written).1.symm other
      | picture third => exact absurd (List.cons.inj written).1.symm other

/-! ## Bare pictures -/

/-- The bytes of a picture one by one. -/
def bare (third : UInt8) (after : List Glyph) : List Glyph :=
  .plain 0xE2 :: .plain 0x90 :: .plain third :: after

@[simp]
theorem content_bare (third : UInt8) (after : List Glyph) :
    content (bare third after) = picture third ++ content after := rfl

@[simp]
theorem plainText_bare (third : UInt8) (after : List Glyph) :
    plainText (bare third after) = picture third ++ plainText after := rfl

theorem length_picture_append (third : UInt8) (rest : Bytes) :
    (picture third ++ rest).length = rest.length + 3 := rfl

/-- The picture whose bytes stand one by one at the front, with what follows it. -/
def bare? : List Glyph → Option (UInt8 × List Glyph)
  | .plain first :: .plain second :: .plain third :: rest =>
      (picture? [first, second, third]).map fun found => (found, rest)
  | _ => none

theorem bare?_eq_some {list after : List Glyph} {third : UInt8} (found : bare? list = some (third, after)) :
    IsThird third ∧ list = bare third after := by
  unfold bare? at found
  split at found
  · obtain ⟨_, front, same⟩ := Option.map_eq_some_iff.mp found
    cases same
    obtain ⟨isThird, rest, same⟩ := picture?_eq_some_iff.mp front
    cases same
    exact ⟨isThird, rfl⟩
  · cases found

theorem bare?_bare {third : UInt8} (isThird : IsThird third) (after : List Glyph) :
    bare? (bare third after) = some (third, after) := by
  have found : picture? [0xE2, 0x90, third] = some third := picture?_picture isThird []
  rw [bare, bare?, found]
  rfl

/-- A glyph that starts no bare picture is read back. -/
theorem restore_glyph {glyph : Glyph} {rest : List Glyph} (covered : bare? (glyph :: rest) = none) :
    restore (content (glyph :: rest)) = glyph.text ++ restore (content rest) := by
  cases glyph with
  | plain b =>
      -- A picture here would have its other two bytes in the next two glyphs.
      have none : picture? (b :: content rest) = none := by
        rw [Option.eq_none_iff_forall_ne_some]
        intro third found
        obtain ⟨isThird, after, same⟩ := picture?_eq_some_iff.mp found
        obtain ⟨rfl, second⟩ := List.cons.inj same
        obtain ⟨rest, rfl, third⟩ := plain_of_content (by decide) second
        obtain ⟨rest, rfl, _⟩ := plain_of_content isThird.ne third.symm
        cases covered.symm.trans (bare?_bare isThird rest)
      exact restore_other none
  | control b hidden => exact restore_pictureOf hidden (content rest)
  | picture third =>
      have enough : 3 ≤ (picture third ++ content rest).length := Nat.le_add_left 3 _
      change restore (picture literalMark ++ (picture third ++ content rest)) = _
      rw [restore_mark enough]
      rfl

theorem length_of_bare? {list after : List Glyph} {third : UInt8}
    (found : bare? list = some (third, after)) : list.length = after.length + 3 := by
  obtain ⟨_, rfl⟩ := bare?_eq_some found
  rfl

/-- What is written for the glyphs is read back as their text: a bare picture is none of those
that stand for a control byte, and a bare mark has too little behind it to act on, or acts on
the mark of a picture, which then is bare itself. -/
def readable : List Glyph → Bool
  | [] => true
  | glyph :: rest =>
      match _ : bare? (glyph :: rest) with
      | none => readable rest
      | some (third, after) =>
          if third = literalMark then
            match after with
            | .picture next :: more => readable (bare next more)
            | _ => (content after).length < 3
          else 0x9F < third && third != delPicture && readable after
termination_by list => list.length
decreasing_by
  · exact Nat.lt_succ_self _
  · have shorter := length_of_bare? (by assumption)
    simp only [bare, List.length_cons] at shorter ⊢
    omega
  · have shorter := length_of_bare? (by assumption)
    simp only [List.length_cons] at shorter ⊢
    omega

/-- Reading from the middle of what is written gives at most the bytes left out more. -/
theorem restore_drop_length (list : List Glyph) {skipped : Nat} (within : skipped ≤ 3)
    (aligned : ∀ shorter, (content shorter).length ≤ (content list).length →
      (restore (content shorter)).length ≤ (plainText shorter).length) :
    (restore ((content list).drop skipped)).length ≤ (plainText list).length + (3 - skipped) := by
  induction list generalizing skipped with
  | nil =>
      change (restore ([].drop skipped)).length ≤ _
      rw [List.drop_nil, restore_nil]
      exact Nat.zero_le _
  | cons glyph rest ih =>
      have longer : (content (glyph :: rest)).length = glyph.escaped.length + (content rest).length := by
        rw [content_cons, List.length_append]
      by_cases some : 0 < skipped
      · cases glyph with
        | plain b =>
            obtain ⟨before, rfl⟩ := Nat.exists_eq_add_one_of_ne_zero (Nat.ne_of_gt some)
            have within : before ≤ 3 := by omega
            have bound := ih within fun shorter fits => aligned shorter (by omega)
            change (restore ((content rest).drop before)).length ≤ (plainText rest).length + 1 + _
            omega
        | control b hidden =>
            obtain ⟨third, isThird, same, _⟩ := pictureOf_eq hidden
            have tail := aligned rest (by omega)
            have left := restore_drop_picture isThird (content rest) some within
            change (restore ((pictureOf b ++ content rest).drop skipped)).length ≤
              (plainText rest).length + 1 + _
            rw [same]
            omega
        | picture third =>
            have isThird : IsThird literalMark := by decide
            have tail := aligned (bare third rest) (Nat.le_add_right ((content rest).length + 3) 3)
            have left := restore_drop_picture isThird (picture third ++ content rest) some within
            change (restore ((picture literalMark ++ (picture third ++ content rest)).drop skipped)).length ≤
              (plainText rest).length + 3 + _
            rw [content_bare, plainText_bare, length_picture_append] at tail
            omega
      · obtain rfl : skipped = 0 := by omega
        exact Nat.le_trans (aligned _ (Nat.le_refl _)) (Nat.le_add_right _ _)

/-- A bare picture and the glyphs behind it give no more than their text, if the same holds of
every list whose content is at most as long as that of those glyphs. -/
theorem restore_bare_length {third : UInt8} (isThird : IsThird third) (after : List Glyph)
    (aligned : ∀ shorter, (content shorter).length ≤ (content after).length →
      (restore (content shorter)).length ≤ (plainText shorter).length) :
    (restore (content (bare third after))).length ≤ (plainText (bare third after)).length := by
  have tail := aligned after (Nat.le_refl _)
  rw [content_bare, plainText_bare, length_picture_append]
  by_cases marked : third = literalMark ∧ 3 ≤ (content after).length
  · obtain ⟨rfl, enough⟩ := marked
    have rest := restore_drop_length after (Nat.le_refl 3) aligned
    rw [restore_mark enough, List.length_append, List.length_take_of_le enough]
    omega
  · by_cases control : third ≤ 0x9F ∨ third = delPicture
    · obtain ⟨b, read⟩ := restore_control isThird control (content after)
      rw [read, List.length_cons]
      omega
    · rw [not_or] at control
      have unmarked (mark : third = literalMark) : (content after).length < 3 :=
        Nat.lt_of_not_le fun enough => marked ⟨mark, enough⟩
      rw [restore_stays isThird unmarked control.1 control.2, length_picture_append]
      omega

/-- Reading never gives more than the text. -/
theorem restore_content_length (list : List Glyph) :
    (restore (content list)).length ≤ (plainText list).length := by
  -- The induction is on what is written: a bare mark leaves the glyphs in the middle of one.
  have shorter (other : List Glyph) (_fewer : (content other).length < (content list).length) :
      (restore (content other)).length ≤ (plainText other).length := restore_content_length other
  cases list with
  | nil => exact Nat.le_of_eq (congrArg List.length restore_nil)
  | cons glyph rest =>
      cases front : bare? (glyph :: rest) with
      | none =>
          have written : 0 < glyph.escaped.length := by
            cases glyph <;> exact Nat.succ_pos _
          have tail := shorter rest (by rw [content_cons, List.length_append]; omega)
          rw [restore_glyph front, plainText_cons, List.length_append, List.length_append]
          omega
      | some found =>
          obtain ⟨third, after⟩ := found
          obtain ⟨isThird, same⟩ := bare?_eq_some front
          rw [same] at shorter ⊢
          refine restore_bare_length isThird after fun other fits => shorter other ?_
          rw [content_bare, length_picture_append]
          omega
termination_by (content list).length

theorem restore_short {list : List Glyph} (short : (content list).length < 3) :
    restore (content list) = plainText list := by
  induction list with
  | nil => exact restore_nil
  | cons glyph rest ih =>
      rw [content_cons, List.length_append] at short
      have covered : bare? (glyph :: rest) = none := by
        rw [Option.eq_none_iff_forall_ne_some]
        rintro ⟨third, after⟩ found
        obtain ⟨_, same⟩ := bare?_eq_some found
        rw [← List.length_append, ← content_cons, same, content_bare, length_picture_append] at short
        omega
      rw [restore_glyph covered, ih (by omega), plainText_cons]

/-- What is written for glyphs that start with no picture starts with a mark only if its
bytes stand there one by one. -/
theorem bare_of_content {list : List Glyph} {rest : Bytes} (unmarked : ∀ third more, list ≠ .picture third :: more)
    (written : content list = picture literalMark ++ rest) :
    ∃ after, list = bare literalMark after ∧ rest = content after := by
  cases list with
  | nil => cases written
  | cons glyph more =>
      cases glyph with
      | plain b =>
          obtain ⟨rfl, second⟩ := List.cons.inj written
          obtain ⟨more, rfl, third⟩ := plain_of_content (by decide) second
          obtain ⟨after, rfl, same⟩ := plain_of_content (by decide) third.symm
          exact ⟨after, rfl, same⟩
      | control b hidden =>
          obtain ⟨third, _, same, other, _⟩ := pictureOf_eq hidden
          have front : picture third ++ content more = picture literalMark ++ rest := same ▸ written
          cases front
          exact absurd rfl other
      | picture third => exact absurd rfl (unmarked third more)

/-- A bare mark that no picture follows stays only if it cannot act: else it would have to act
on another bare mark, and the text would lose three bytes. -/
theorem restore_bare_mark_iff {after : List Glyph} (unmarked : ∀ next more, after ≠ .picture next :: more) :
    restore (content (bare literalMark after)) = plainText (bare literalMark after) ↔
      (content after).length < 3 := by
  rw [content_bare, plainText_bare]
  constructor
  · intro read
    apply Nat.lt_of_not_le
    intro enough
    rw [restore_mark enough] at read
    obtain ⟨front, behind⟩ := List.append_inj read (List.length_take_of_le enough)
    have written := (List.take_append_drop 3 (content after)).symm
    rw [front] at written
    obtain ⟨more, rfl, rest⟩ := bare_of_content unmarked written
    rw [rest, plainText_bare] at behind
    have bound := restore_content_length more
    rw [behind, length_picture_append] at bound
    omega
  · intro short
    have isThird : IsThird literalMark := by decide
    rw [restore_stays isThird (fun _ => short) (by decide) (by decide), restore_short short]

/-- Any other bare picture stays if it stands for no control byte. -/
theorem restore_bare_iff {third : UInt8} (isThird : IsThird third) (other : third ≠ literalMark)
    (after : List Glyph) :
    restore (content (bare third after)) = plainText (bare third after) ↔
      (0x9F < third ∧ third ≠ delPicture) ∧ restore (content after) = plainText after := by
  rw [content_bare, plainText_bare]
  by_cases control : third ≤ 0x9F ∨ third = delPicture
  · obtain ⟨b, read⟩ := restore_control isThird control (content after)
    constructor
    · intro same
      have bound := restore_content_length after
      have lengths := congrArg List.length (read.symm.trans same)
      rw [List.length_cons, length_picture_append] at lengths
      omega
    · rintro ⟨⟨high, other⟩, _⟩
      rcases control with low | same
      · exact absurd low (UInt8.not_le.mpr high)
      · exact absurd same other
  · rw [not_or] at control
    rw [restore_stays isThird (fun mark => absurd mark other) control.1 control.2, List.append_right_inj]
    constructor
    · intro read
      exact ⟨⟨UInt8.not_le.mp control.1, control.2⟩, read⟩
    · rintro ⟨_, read⟩
      exact read

/-- What is written for glyphs is read back exactly if they are readable. -/
theorem restore_content_iff (list : List Glyph) :
    restore (content list) = plainText list ↔ readable list = true := by
  fun_induction readable list with
  | case1 => exact iff_of_true restore_nil rfl
  | case2 glyph rest covered ih =>
      rw [restore_glyph covered, plainText_cons, List.append_right_inj]
      exact ih
  | case3 glyph rest next more _ front ih =>
      obtain ⟨_, same⟩ := bare?_eq_some front
      have enough : 3 ≤ (content (.picture next :: more)).length :=
        Nat.le_trans (by decide) (Nat.le_add_left 6 (content more).length)
      rw [same, content_bare, restore_mark enough, plainText_bare, ← ih]
      exact List.append_right_inj (picture literalMark)
  | case4 glyph rest after front _ others =>
      have unmarked : ∀ next more, after ≠ .picture next :: more := by
        rintro next more rfl
        exact others next more front rfl HEq.rfl
      obtain ⟨_, same⟩ := bare?_eq_some front
      rw [same, decide_eq_true_iff]
      exact restore_bare_mark_iff unmarked
  | case5 glyph rest third after front other ih =>
      obtain ⟨isThird, same⟩ := bare?_eq_some front
      rw [same, Bool.and_eq_true, Bool.and_eq_true, decide_eq_true_iff, bne_iff_ne, ← ih]
      exact restore_bare_iff isThird other after

/-! ## Escaped texts -/

theorem readable_of_covered {glyph : Glyph} {rest : List Glyph} (covered : bare? (glyph :: rest) = none) :
    readable (glyph :: rest) = readable rest := by
  rw [readable]
  split
  · rfl
  · rename_i found
    cases covered.symm.trans found

theorem plain_of_glyphs {text : Bytes} {b : UInt8} {list : List Glyph}
    (same : glyphs text = .plain b :: list) : ∃ rest, text = b :: rest ∧ list = glyphs rest := by
  unfold glyphs at same
  split at same
  · cases same
  · split at same
    · cases same
    · split at same
      · cases same
      · cases same
        exact ⟨_, rfl, rfl⟩

/-- The bytes of a picture never stand one by one in the glyphs of one text. -/
theorem readable_glyphs (text : Bytes) : readable (glyphs text) = true := by
  fun_induction glyphs text with
  | case1 => rw [readable]
  | case2 b rest hidden ih => rw [readable_of_covered rfl, ih]
  | case3 b rest visible third found ih => rw [readable_of_covered rfl, ih]
  | case4 b rest visible absent ih =>
      have covered : bare? (.plain b :: glyphs rest) = none := by
        rw [Option.eq_none_iff_forall_ne_some]
        rintro ⟨third, after⟩ found
        obtain ⟨isThird, same⟩ := bare?_eq_some found
        obtain ⟨first, second⟩ := List.cons.inj same
        cases first
        obtain ⟨rest, rfl, last⟩ := plain_of_glyphs second
        obtain ⟨rest, rfl, _⟩ := plain_of_glyphs last.symm
        cases absent.symm.trans (picture?_picture isThird rest)
      rw [readable_of_covered covered, ih]

/-- Undoing the escaping of a text gives the text back. -/
theorem unescape_escape (text : Bytes) : unescape (escape text) = text := by
  rw [unescape_eq_restore, ← content_glyphs, (restore_content_iff _).mpr (readable_glyphs text),
    plainText_glyphs]

theorem glyphs_picture {third : UInt8} (isThird : IsThird third) (rest : Bytes) :
    glyphs (picture third ++ rest) = .picture third :: glyphs rest := by
  change glyphs (0xE2 :: (0x90 :: third :: rest)) = _
  rw [glyphs, dif_neg (by decide)]
  split
  · rename_i found
    cases found.symm.trans (picture?_picture isThird rest)
    rfl
  · rename_i absent
    cases absent.symm.trans (picture?_picture isThird rest)

/-- A text cut between its pictures is taken apart at the cut. -/
theorem glyphs_append {left right : Bytes} (kept : KeepsPictures (left ++ right) left.length) :
    glyphs (left ++ right) = glyphs left ++ glyphs right := by
  fun_induction glyphs left with
  | case1 => rfl
  | case2 b rest hidden ih =>
      have tail : KeepsPictures (rest ++ right) rest.length := .behind [b] kept
      rw [List.cons_append, glyphs, dif_pos hidden, ih tail]
      rfl
  | case3 b rest visible third found ih =>
      obtain ⟨isThird, after, same⟩ := picture?_eq_some_iff.mp found
      obtain ⟨rfl, rfl⟩ := List.cons.inj same
      have tail : KeepsPictures (after ++ right) after.length :=
        .behind (picture third) kept
      change glyphs (picture third ++ (after ++ right)) = _
      rw [glyphs_picture isThird]
      exact congrArg (Glyph.picture third :: ·) (ih tail)
  | case4 b rest visible absent ih =>
      have tail : KeepsPictures (rest ++ right) rest.length := .behind [b] kept
      have still : picture? (b :: (rest ++ right)) = none := by
        rw [Option.eq_none_iff_forall_ne_some]
        intro third found
        have bound := kept 0 third found (Nat.succ_pos _)
        obtain ⟨isThird, after, same⟩ := picture?_eq_some_iff.mp found
        match rest, bound with
        | second :: last :: rest, _ =>
            cases same
            cases absent.symm.trans (picture?_picture isThird rest)
      rw [List.cons_append, glyphs, dif_neg visible, still, ih tail]
      rfl

theorem escape_append {left right : Bytes} (kept : KeepsPictures (left ++ right) left.length) :
    escape (left ++ right) = escape left ++ escape right := by
  rw [← content_glyphs, glyphs_append kept, content, List.flatMap_append]
  exact congr (congrArg _ (content_glyphs left)) (content_glyphs right)

end CodeTint.Ansi
