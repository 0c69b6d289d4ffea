import CodeTint.Markup.Html

/-!
# Reading HTML markup back

An escaped text holds neither `<` nor `>`, so the tags around it are found again
and left out, and no entity name starts another one, so what is left is read
back as it was written.
-/

namespace CodeTint.Html

/-! ## Entities -/

/-- A byte is written as the entity that stands for it, or as itself. -/
theorem escapeByte_cases (b : UInt8) :
    (∃ entity ∈ entities, entity.raw = b ∧ escapeByte b = ampersand :: entity.name) ∨
      (∀ entity ∈ entities, entity.raw ≠ b) ∧ escapeByte b = [b] := by
  unfold escapeByte
  split
  · rename_i entity found
    have same : entity.raw = b := by simpa using List.find?_some found
    exact .inl ⟨entity, List.mem_of_find?_eq_some found, same, rfl⟩
  · rename_i absent
    refine .inr ⟨?_, rfl⟩
    intro entity listed same
    exact List.find?_eq_none.mp absent entity listed (beq_iff_eq.mpr same)

theorem unescape_other {b : UInt8} (other : b ≠ ampersand) (rest : Bytes) :
    unescape (b :: rest) = b :: unescape rest := by
  rw [unescape, if_neg (mt eq_of_beq other)]

/-- No name of an entity starts the name of another one. -/
theorem entityNamed?_append {entity : Entity} (listed : entity ∈ entities) (rest : Bytes) :
    entityNamed? (entity.name ++ rest) = some entity := by
  simp only [entities, List.mem_cons, List.not_mem_nil, or_false] at listed
  rcases listed with rfl | rfl | rfl | rfl | rfl
  · rfl
  · rfl
  · rfl
  · rfl
  · rfl

theorem unescape_entity {entity : Entity} (listed : entity ∈ entities) (rest : Bytes) :
    unescape (ampersand :: (entity.name ++ rest)) = entity.raw :: unescape rest := by
  rw [unescape, if_pos (beq_self_eq_true ampersand)]
  split
  · rename_i found named
    rw [entityNamed?_append listed] at named
    cases named
    rw [List.drop_left]
  · rename_i absent
    rw [entityNamed?_append listed] at absent
    cases absent

theorem unescape_escape_append (text rest : Bytes) :
    unescape (escape text ++ rest) = text ++ unescape rest := by
  induction text with
  | nil => rfl
  | cons b text ih =>
      rw [escape, List.flatMap_cons, List.append_assoc, List.cons_append, ← ih]
      rcases escapeByte_cases b with ⟨entity, listed, same, written⟩ | ⟨unlisted, written⟩
      · rw [written, List.cons_append, unescape_entity listed, same]
        rfl
      · have other : b ≠ ampersand := (unlisted ⟨ampersand, Text.bytes "amp;"⟩ (.head _)).symm
        rw [written, List.singleton_append, unescape_other other]
        rfl

/-- Undoing the escaping of a text gives the text back. -/
theorem unescape_escape (text : Bytes) : unescape (escape text) = text := by
  have back := unescape_escape_append text []
  rw [List.append_nil, unescape, List.append_nil] at back
  exact back

/-- Of the bytes written as entities only the ampersand is in an escaped text. -/
theorem not_mem_escape {entity : Entity} (listed : entity ∈ entities) (other : entity.raw ≠ ampersand)
    (text : Bytes) : entity.raw ∉ escape text := by
  have unnamed : ∀ named ∈ entities, entity.raw ∉ named.name := by
    revert other
    revert entity
    decide
  intro member
  obtain ⟨b, _, inside⟩ := List.mem_flatMap.mp member
  rcases escapeByte_cases b with ⟨named, inTable, _, written⟩ | ⟨unlisted, written⟩
  · rw [written, List.mem_cons] at inside
    rcases inside with same | later
    · exact other same
    · exact unnamed named inTable later
  · rw [written, List.mem_singleton] at inside
    exact unlisted entity listed inside

theorem less_not_mem_escape (text : Bytes) : less ∉ escape text := by
  have listed : ⟨less, Text.bytes "lt;"⟩ ∈ entities := .tail _ (.head _)
  exact not_mem_escape listed (by decide) text

theorem greater_not_mem_escape (text : Bytes) : greater ∉ escape text := by
  have listed : ⟨greater, Text.bytes "gt;"⟩ ∈ entities := .tail _ (.tail _ (.head _))
  exact not_mem_escape listed (by decide) text

/-! ## Tags -/

theorem stripTags_plain {text : Bytes} (plain : less ∉ text) (rest : Bytes) :
    stripTags (text ++ rest) = text ++ stripTags rest := by
  induction text with
  | nil => rfl
  | cons b text ih =>
      rw [List.mem_cons, not_or] at plain
      obtain ⟨other, plain⟩ := plain
      rw [List.cons_append, stripTags, if_neg (mt eq_of_beq (Ne.symm other)), ih plain]
      rfl

theorem stripTags_tag {body : Bytes} (inside : greater ∉ body) (rest : Bytes) :
    stripTags (less :: (body ++ greater :: rest)) = stripTags rest := by
  have passed : ∀ b ∈ body, (b != greater) = true := by
    intro b member
    rw [bne_iff_ne]
    rintro rfl
    exact inside member
  rw [stripTags, if_pos (beq_self_eq_true less), List.dropWhile_append_of_pos passed]
  rfl

theorem stripTags_openTag (style : String) (rest : Bytes) :
    stripTags (openTag style ++ rest) = stripTags rest := by
  have shape : openTag style ++ rest =
      less :: ((Text.bytes "span class=\"" ++ escape (Text.bytes style) ++ [0x22]) ++ greater :: rest) := by
    simp only [openTag, List.append_assoc]
    rfl
  rw [shape]
  apply stripTags_tag
  simp only [List.mem_append, not_or]
  exact ⟨⟨by decide, greater_not_mem_escape _⟩, by decide⟩

theorem stripTags_closeTag (rest : Bytes) : stripTags (closeTag ++ rest) = stripTags rest := by
  have inside : greater ∉ Text.bytes "/span" := by decide
  exact stripTags_tag inside rest

end CodeTint.Html
