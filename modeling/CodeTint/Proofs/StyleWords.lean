import CodeTint.Proofs.Overrides
import Mathlib.Data.List.DropRight

/-!
# Styles by their words

What a terminal style means depends on its words alone: not on the white space
around them, and not on where the modifiers stand among the words of the colour.
The parameters that a style comes to are themselves a style, with the same meaning.
-/

namespace CodeTint

/-! ## Words -/

namespace Text

open Unicode (isWhiteSpace)

theorem wordsOf_of_blank {text : List Char} (blank : ∀ c ∈ text, isWhiteSpace c = true) : wordsOf text = [] := by
  rw [wordsOf]
  split
  · rfl
  · rename_i read
    rw [List.dropWhile_eq_nil_iff.mpr blank] at read
    cases read

theorem wordsOf_of_dropWhile {text rest : List Char} {c : Char} (left : text.dropWhile isWhiteSpace = c :: rest) :
    wordsOf text = (c :: rest.takeWhile (!isWhiteSpace ·)) :: wordsOf (rest.dropWhile (!isWhiteSpace ·)) := by
  rw [wordsOf]
  split
  · rename_i read
    rw [left] at read
    cases read
  · rename_i read
    rw [left] at read
    cases read
    rfl

theorem blank_of_wordsOf {text : List Char} (none : wordsOf text = []) : ∀ c ∈ text, isWhiteSpace c = true := by
  cases left : text.dropWhile isWhiteSpace with
  | nil => exact List.dropWhile_eq_nil_iff.mp left
  | cons c rest =>
      rw [wordsOf_of_dropWhile left] at none
      cases none

/-- White space in front adds no word. -/
theorem wordsOf_dropWhile (text : List Char) : wordsOf (text.dropWhile isWhiteSpace) = wordsOf text := by
  cases left : text.dropWhile isWhiteSpace with
  | nil => rw [wordsOf_of_blank (List.dropWhile_eq_nil_iff.mp left), wordsOf_of_blank (by simp)]
  | cons c rest =>
      have again : (c :: rest).dropWhile isWhiteSpace = c :: rest := by
        rw [← left, List.dropWhile_idempotent]
      rw [wordsOf_of_dropWhile left, wordsOf_of_dropWhile again]

/-- A run is cut off alike whether or not white space follows the text. -/
theorem cut_append_blank {blank : List Char} (white : ∀ c ∈ blank, isWhiteSpace c = true) (text : List Char) :
    (text ++ blank).takeWhile (!isWhiteSpace ·) = text.takeWhile (!isWhiteSpace ·) ∧
      (text ++ blank).dropWhile (!isWhiteSpace ·) = text.dropWhile (!isWhiteSpace ·) ++ blank := by
  induction text with
  | nil =>
      cases blank with
      | nil => exact ⟨rfl, rfl⟩
      | cons c blank => simp [white c List.mem_cons_self]
  | cons c text ih =>
      cases visible : isWhiteSpace c with
      | false => simp [visible, ih]
      | true => simp [visible]

theorem wordsOf_append_blank {blank : List Char} (white : ∀ c ∈ blank, isWhiteSpace c = true) (text : List Char) :
    wordsOf (text ++ blank) = wordsOf text := by
  fun_induction wordsOf text with
  | case1 text read =>
      apply wordsOf_of_blank
      intro c member
      rcases List.mem_append.mp member with inText | behind
      · exact List.dropWhile_eq_nil_iff.mp read c inText
      · exact white c behind
  | case2 text c rest left ih =>
      have cut := cut_append_blank white rest
      have front : (text ++ blank).dropWhile isWhiteSpace = c :: (rest ++ blank) := by
        rw [List.dropWhile_append, left]
        rfl
      rw [wordsOf_of_dropWhile front, cut.1, cut.2, ih]

theorem exists_trimEnd (text : List Char) :
    ∃ blank, text = trimEnd text ++ blank ∧ ∀ c ∈ blank, isWhiteSpace c = true := by
  refine ⟨(text.reverse.takeWhile isWhiteSpace).reverse, ?_, ?_⟩
  · rw [trimEnd, ← List.reverse_append, List.takeWhile_append_dropWhile, List.reverse_reverse]
  · intro c member
    exact List.mem_takeWhile_imp (List.mem_reverse.mp member)

/-- Trimming keeps the words. -/
theorem words_trim (text : String) : words (trim text) = words text := by
  obtain ⟨blank, split, white⟩ := exists_trimEnd (text.toList.dropWhile isWhiteSpace)
  have kept := wordsOf_append_blank white (trimEnd (text.toList.dropWhile isWhiteSpace))
  rw [← split, wordsOf_dropWhile] at kept
  rw [words, words, trim, String.toList_ofList, kept]

theorem toLower_of_outside {c : Char} (outside : c.toNat < 65 ∨ 90 < c.toNat) : c.toLower = c := by
  have other : ¬(c.val ≥ 'A'.val ∧ c.val ≤ 'Z'.val) := by
    rw [ge_iff_le, UInt32.le_iff_toNat_le, UInt32.le_iff_toNat_le]
    change ¬(65 ≤ c.toNat ∧ c.toNat ≤ 90)
    omega
  unfold Char.toLower
  rw [dif_neg other]

theorem isWhiteSpace_toLower (c : Char) : isWhiteSpace c.toLower = isWhiteSpace c := by
  cases white : isWhiteSpace c with
  | false => exact visible_toLower white
  | true =>
      have far := Unicode.far_of_isWhiteSpace white
      rw [toLower_of_outside (by omega), white]

theorem wordsOf_map_toLower (text : List Char) :
    wordsOf (text.map Char.toLower) = (wordsOf text).map (List.map Char.toLower) := by
  have white : isWhiteSpace ∘ Char.toLower = isWhiteSpace := funext isWhiteSpace_toLower
  have visible : (fun c => !isWhiteSpace c) ∘ Char.toLower = fun c => !isWhiteSpace c :=
    funext fun c => congrArg not (isWhiteSpace_toLower c)
  fun_induction wordsOf text with
  | case1 text read =>
      apply wordsOf_of_blank
      intro c member
      obtain ⟨d, inText, rfl⟩ := List.mem_map.mp member
      rw [isWhiteSpace_toLower]
      exact List.dropWhile_eq_nil_iff.mp read d inText
  | case2 text c rest left ih =>
      have front : (text.map Char.toLower).dropWhile isWhiteSpace = c.toLower :: rest.map Char.toLower := by
        rw [List.dropWhile_map, white, left, List.map_cons]
      rw [wordsOf_of_dropWhile front, List.takeWhile_map, List.dropWhile_map, visible, ih]
      rfl

/-- Lowering a text lowers its words. -/
theorem words_lower (text : String) : words (lower text) = (words text).map lower := by
  rw [words, lower, String.toList_ofList, wordsOf_map_toLower, words, List.map_map, List.map_map]
  apply List.map_congr_left
  intro word _
  simp [lower]

/-- A text without white space is one word. -/
theorem words_of_visible {text : String} (nonempty : text ≠ "")
    (visible : ∀ c ∈ text.toList, isWhiteSpace c = false) : words text = [text] := by
  obtain ⟨c, rest, spelled⟩ := List.exists_cons_of_ne_nil (mt String.toList_eq_nil_iff.mp nonempty)
  rw [spelled, List.forall_mem_cons] at visible
  have front : text.toList.dropWhile isWhiteSpace = c :: rest := by
    rw [spelled, List.dropWhile_cons_of_neg (by rw [visible.1]; exact Bool.false_ne_true)]
  have run : rest.takeWhile (!isWhiteSpace ·) = rest := by
    rw [List.takeWhile_eq_self_iff]
    intro d member
    rw [visible.2 d member]
    rfl
  have behind : rest.dropWhile (!isWhiteSpace ·) = [] := by
    rw [List.dropWhile_eq_nil_iff]
    intro d member
    rw [visible.2 d member]
    rfl
  rw [words, wordsOf_of_dropWhile front, run, behind, wordsOf_of_blank (by simp), List.map_cons, List.map_nil,
    ← spelled, String.ofList_toList]

theorem trimEnd_append_blank {word blank : List Char} (visible : ∀ c ∈ word, isWhiteSpace c = false)
    (white : ∀ c ∈ blank, isWhiteSpace c = true) : trimEnd (word ++ blank) = word := by
  have kept : word.reverse.dropWhile isWhiteSpace = word.reverse := by
    cases backwards : word.reverse with
    | nil => rfl
    | cons c rest =>
        have last : isWhiteSpace c = false := visible c (List.mem_reverse.mp (backwards ▸ List.mem_cons_self))
        exact List.dropWhile_cons_of_neg (by rw [last]; exact Bool.false_ne_true)
  rw [trimEnd, List.reverse_append, List.dropWhile_append_of_pos fun c member => white c (List.mem_reverse.mp member),
    kept, List.reverse_reverse]

/-- A text of one word is that word when it is trimmed. -/
theorem trim_of_words {text word : String} (single : words text = [word]) : trim text = word := by
  rw [words] at single
  cases left : text.toList.dropWhile isWhiteSpace with
  | nil =>
      rw [wordsOf_of_blank (List.dropWhile_eq_nil_iff.mp left)] at single
      cases single
  | cons c rest =>
      have first := Utf8.stopped_of_dropWhile isWhiteSpace text.toList (by rw [left, List.head?_cons])
      rw [wordsOf_of_dropWhile left, List.map_cons, List.cons.injEq, List.map_eq_nil_iff] at single
      obtain ⟨rfl, none⟩ := single
      have white := blank_of_wordsOf none
      have visible : ∀ d ∈ c :: rest.takeWhile (!isWhiteSpace ·), isWhiteSpace d = false := by
        rw [List.forall_mem_cons]
        refine ⟨first, fun d member => ?_⟩
        have kept := List.mem_takeWhile_imp member
        simpa using kept
      have whole := trimEnd_append_blank visible white
      rw [List.cons_append, List.takeWhile_append_dropWhile] at whole
      rw [trim, left, whole]

theorem trim_eq_empty_iff {text : String} : trim text = "" ↔ words text = [] := by
  constructor
  · intro empty
    have none : wordsOf [] = [] := wordsOf_of_blank (by simp)
    rw [← words_trim, empty]
    exact congrArg (List.map String.ofList) none
  · intro none
    by_contra nonempty
    obtain ⟨c, member, visible⟩ := visible_of_trim nonempty
    rw [← words_trim] at none
    exact words_ne_nil member visible none

end Text

/-! ## What words say -/

namespace Sgr

/-- The word is a modifier, in any case. -/
def isModifier (word : String) : Bool :=
  (modifier? (Text.lower word)).isSome

/-- The same modifiers in the same order, and the same other words in the same order. -/
structure Rearranged (words others : List String) : Prop where
  modifiers : others.filter isModifier = words.filter isModifier
  colors : others.filter (!isModifier ·) = words.filter (!isModifier ·)

theorem Rearranged.symm {words others : List String} (moved : Rearranged words others) : Rearranged others words :=
  ⟨moved.modifiers.symm, moved.colors.symm⟩

theorem modifiers_map_lower (words : List String) :
    (words.map Text.lower).filterMap modifier? =
      (words.filter isModifier).filterMap fun word => modifier? (Text.lower word) := by
  rw [List.filterMap_map, List.filterMap_filter]
  apply List.filterMap_congr
  intro word _
  unfold isModifier
  cases found : modifier? (Text.lower word) with
  | none => exact found
  | some parameter => exact found

theorem colors_map_lower (words : List String) :
    (words.map Text.lower).filter (fun word => (modifier? word).isNone) =
      (words.filter (!isModifier ·)).map Text.lower := by
  rw [List.filter_map]
  apply congrArg (List.map Text.lower)
  apply List.filter_congr
  intro word _
  unfold isModifier
  cases found : modifier? (Text.lower word) with
  | none => simp [found]
  | some parameter => simp [found]

theorem Rearranged.ofWords? {words others : List String} (moved : Rearranged words others) :
    Sgr.ofWords? (others.map Text.lower) = Sgr.ofWords? (words.map Text.lower) := by
  unfold Sgr.ofWords?
  rw [modifiers_map_lower, modifiers_map_lower, colors_map_lower, colors_map_lower, moved.modifiers, moved.colors]

/-! ## Raw parameters -/

theorem toNat_of_isRaw {style : String} (raw : isRaw style = true) {c : Char} (member : c ∈ style.toList) :
    48 ≤ c.toNat ∧ c.toNat ≤ 59 := by
  rcases Bool.or_eq_true_iff.mp (List.all_eq_true.mp raw c member) with digit | semicolon
  · simp only [Char.isDigit, Bool.and_eq_true, decide_eq_true_eq, ge_iff_le, UInt32.le_iff_toNat_le] at digit
    obtain ⟨least, greatest⟩ := digit
    change 48 ≤ c.toNat at least
    change c.toNat ≤ 57 at greatest
    omega
  · rw [eq_of_beq semicolon]
    decide

theorem visible_of_isRaw {style : String} (raw : isRaw style = true) :
    ∀ c ∈ style.toList, Unicode.isWhiteSpace c = false := by
  intro c member
  have bounds := toNat_of_isRaw raw member
  rw [Bool.eq_false_iff]
  intro white
  have far := Unicode.far_of_isWhiteSpace white
  omega

theorem lower_of_isRaw {style : String} (raw : isRaw style = true) : Text.lower style = style := by
  have kept : style.toList.map Char.toLower = style.toList :=
    calc
      style.toList.map Char.toLower = style.toList.map id := by
        apply List.map_congr_left
        intro c member
        have bounds := toNat_of_isRaw raw member
        exact Text.toLower_of_outside (.inl (by omega))
      _ = style.toList := List.map_id _
  rw [Text.lower, kept, String.ofList_toList]

theorem isModifier_of_isRaw {word : String} (raw : isRaw word = true) : isModifier word = false := by
  rw [isModifier, lower_of_isRaw raw]
  unfold modifier?
  split
  · cases raw
  · cases raw
  · cases raw
  · cases raw
  · cases raw
  · cases raw
  · cases raw
  · rfl

/-! ## Styles -/

/-- Parameters that are written out stand for themselves. -/
theorem ofStyle?_of_isRaw {style parameters : String} (single : Text.words style = [parameters])
    (raw : isRaw parameters = true) : ofStyle? style = some parameters := by
  have nonempty : Text.trim style ≠ "" := by
    rw [ne_eq, Text.trim_eq_empty_iff, single]
    exact List.cons_ne_nil _ _
  have trimmed := Text.trim_of_words single
  rw [trimmed] at nonempty
  unfold ofStyle?
  dsimp only
  rw [trimmed, if_neg (mt String.isEmpty_iff.mp nonempty), if_pos raw]

/-- The words of any other style decide. -/
theorem ofStyle?_of_words {style : String} (nonempty : Text.words style ≠ [])
    (other : ∀ word, Text.words style = [word] → isRaw word = false) :
    ofStyle? style = ofWords? ((Text.words style).map Text.lower) := by
  have visible : ¬Text.trim style = "" := mt Text.trim_eq_empty_iff.mp nonempty
  have notRaw : ¬isRaw (Text.trim style) = true := by
    intro raw
    have single := Text.words_of_visible visible (visible_of_isRaw raw)
    rw [Text.words_trim] at single
    rw [other _ single] at raw
    cases raw
  unfold ofStyle?
  dsimp only
  rw [if_neg (mt String.isEmpty_iff.mp visible), if_neg notRaw, Text.words_lower, Text.words_trim]

theorem ofStyle?_of_blank {style : String} (blank : Text.words style = []) : ofStyle? style = none := by
  unfold ofStyle?
  dsimp only
  rw [if_pos (String.isEmpty_iff.mpr (Text.trim_eq_empty_iff.mpr blank))]

/-- Nothing but the word itself is a rearrangement of one raw word. -/
theorem Rearranged.eq_of_isRaw {word : String} {others : List String} (raw : isRaw word = true)
    (moved : Rearranged [word] others) : others = [word] := by
  have color := isModifier_of_isRaw raw
  have none : others.filter isModifier = [] := by
    rw [moved.modifiers]
    simp [color]
  have all : others.filter (!isModifier ·) = others := by
    rw [List.filter_eq_self]
    intro other member
    rw [Bool.not_eq_true', Bool.eq_false_iff]
    exact List.filter_eq_nil_iff.mp none other member
  rw [← all, moved.colors]
  simp [color]

theorem Rearranged.eq_nil {others : List String} (moved : Rearranged [] others) : others = [] := by
  have none := List.filter_eq_nil_iff.mp moved.modifiers
  have neither := List.filter_eq_nil_iff.mp moved.colors
  refine List.eq_nil_iff_forall_not_mem.mpr fun other member => neither other member ?_
  rw [Bool.not_eq_true', Bool.eq_false_iff]
  exact none other member

/-- Styles whose words are rearranged mean the same. -/
theorem ofStyle?_of_rearranged {style other : String}
    (moved : Rearranged (Text.words style) (Text.words other)) : ofStyle? other = ofStyle? style := by
  by_cases blank : Text.words style = []
  · rw [blank] at moved
    rw [ofStyle?_of_blank blank, ofStyle?_of_blank moved.eq_nil]
  · by_cases written : ∃ word, Text.words style = [word] ∧ isRaw word = true
    · obtain ⟨word, single, raw⟩ := written
      rw [single] at moved
      rw [ofStyle?_of_isRaw single raw, ofStyle?_of_isRaw (moved.eq_of_isRaw raw) raw]
    · have nonempty : Text.words other ≠ [] := by
        intro none
        rw [none] at moved
        exact blank moved.symm.eq_nil
      have spoken (word : String) (single : Text.words style = [word]) : isRaw word = false :=
        Bool.eq_false_iff.mpr fun raw => written ⟨word, single, raw⟩
      have spokenOther (word : String) (single : Text.words other = [word]) : isRaw word = false := by
        refine Bool.eq_false_iff.mpr fun raw => written ⟨word, ?_, raw⟩
        rw [single] at moved
        exact moved.symm.eq_of_isRaw raw
      rw [ofStyle?_of_words blank spoken, ofStyle?_of_words nonempty spokenOther, moved.ofWords?]

/-- A trimmed style means the same. -/
theorem ofStyle?_trim (style : String) : ofStyle? (Text.trim style) = ofStyle? style := by
  apply ofStyle?_of_rearranged
  rw [Text.words_trim]
  exact ⟨rfl, rfl⟩

/-- Parameters that are not empty mean themselves. -/
theorem ofStyle?_self {parameters : String} (nonempty : parameters ≠ "") (raw : isRaw parameters = true) :
    ofStyle? parameters = some parameters :=
  ofStyle?_of_isRaw (Text.words_of_visible nonempty (visible_of_isRaw raw)) raw

/-- What a style comes to are digits and semicolons, at least one, which as a style come to themselves; and
a style in which modifiers are moved past the words of a colour comes to the same. -/
theorem style_settles (style : String) :
    (∀ parameters, ofStyle? style = some parameters →
      parameters ≠ "" ∧ (∀ c ∈ parameters.toList, c.isDigit = true ∨ c = ';') ∧
        ofStyle? parameters = some parameters) ∧
      ∀ other, Rearranged (Text.words style) (Text.words other) → ofStyle? other = ofStyle? style := by
  refine ⟨?_, fun other => ofStyle?_of_rearranged⟩
  intro parameters found
  have nonempty := ofStyle?_ne_empty found
  have raw := isRaw_of_ofStyle? found
  refine ⟨nonempty, ?_, ofStyle?_self nonempty raw⟩
  intro c member
  exact (Bool.or_eq_true_iff.mp (List.all_eq_true.mp raw c member)).imp_right eq_of_beq

/-- Two modifiers around and between the words of a colour, then behind them. -/
theorem style_settles_bright :
    ofStyle? " Italic bright\tBOLD Blue" = some "94;3;1" ∧ ofStyle? "94;3;1" = some "94;3;1" ∧
      Rearranged (Text.words " Italic bright\tBOLD Blue") (Text.words "bright Blue Italic BOLD ") ∧
      ofStyle? "bright Blue Italic BOLD " = some "94;3;1" := by
  have found : ofStyle? " Italic bright\tBOLD Blue" = some "94;3;1" := by decide +kernel
  have moved : Rearranged (Text.words " Italic bright\tBOLD Blue") (Text.words "bright Blue Italic BOLD ") :=
    ⟨by decide +kernel, by decide +kernel⟩
  obtain ⟨settles, moves⟩ := style_settles " Italic bright\tBOLD Blue"
  refine ⟨found, (settles "94;3;1" found).2.2, moved, ?_⟩
  rw [moves "bright Blue Italic BOLD " moved]
  exact found

end Sgr

end CodeTint
