import CodeTint.Proofs.Lexeme

/-!
# Reading string literals

The search for the end of a literal passes over the bytes that do not stop it and
over each escape as a whole. The equations below read a body from its front, and
`body_induction` is the induction that goes with them.
-/

namespace CodeTint.Quoted

variable {literal : Quoted} {body rest : Bytes} {b : UInt8}

/-- The search goes through bytes that do not stop it. -/
theorem extent_append_plain {front : Bytes} (plain : ∀ c ∈ front, literal.stops c = false) (rest : Bytes) :
    literal.extent (front ++ rest) = (literal.extent rest).after front.length := by
  have pass : ∀ c ∈ front, (!literal.stops c) = true := fun c member => by rw [plain c member]; rfl
  have dropped : (front ++ rest).dropWhile (!literal.stops ·) = rest.dropWhile (!literal.stops ·) :=
    List.dropWhile_append_of_pos pass
  have taken : (front ++ rest).takeWhile (!literal.stops ·) =
      front ++ rest.takeWhile (!literal.stops ·) := List.takeWhile_append_of_pos pass
  cases found : rest.dropWhile (!literal.stops ·) with
  | nil =>
      rw [extent_nil (dropped.trans found), extent_nil found, Extent.after, List.length_append]
  | cons b more =>
      rw [extent_cons (dropped.trans found), extent_cons found, taken, List.length_append]
      unfold Extent.after
      split
      · simp only [Nat.add_assoc]
      · split
        · rfl
        · split
          · split
            · simp only [Nat.add_assoc]
            · simp only [Nat.add_assoc]
          · simp only [Nat.add_assoc]

theorem extent_plain (plain : literal.stops b = false) (rest : Bytes) :
    literal.extent (b :: rest) = (literal.extent rest).after 1 := by
  have single : ∀ c ∈ [b], literal.stops c = false := by
    intro c member
    rw [List.mem_singleton.mp member]
    exact plain
  exact extent_append_plain single rest

theorem extent_empty (literal : Quoted) : literal.extent [] = ⟨0, false⟩ :=
  extent_nil rfl

/-- A byte that stops the search is looked at in place. -/
theorem extent_stop (stop : literal.stops b = true) (rest : Bytes) :
    literal.extent (b :: rest) =
      if b == Byte.backslash then (literal.extent (rest.drop 1)).after (1 + (rest.take 1).length)
      else if b == Byte.lineFeed then ⟨0, true⟩
      else if literal.triple then
        if [literal.quote, literal.quote, literal.quote].isPrefixOf (b :: rest) then ⟨3, false⟩
        else (literal.extent rest).after 1
      else ⟨1, false⟩ := by
  have found : (b :: rest).dropWhile (!literal.stops ·) = b :: rest := by
    rw [List.dropWhile_cons_of_neg]
    simp [stop]
  have none : (b :: rest).takeWhile (!literal.stops ·) = [] := by
    rw [List.takeWhile_cons_of_neg]
    simp [stop]
  rw [extent_cons found, none]
  simp only [List.length_nil, Nat.zero_add]

theorem stops_lineFeed (quote : Byte.isLineBreak literal.quote = false) :
    literal.stops Byte.lineFeed = !literal.multiline := by
  rw [Byte.isLineBreak_eq_false_iff] at quote
  have other : (Byte.lineFeed == literal.quote) = false := by
    rw [beq_eq_false_iff_ne]
    exact Ne.symm quote.1
  have plain : (Byte.lineFeed == Byte.backslash) = false := rfl
  rw [stops, other, plain, BEq.rfl, Bool.and_true]
  rfl

/-- An unescaped line feed ends a literal of one line. -/
theorem extent_lineFeed (quote : Byte.isLineBreak literal.quote = false)
    (single : literal.multiline = false) (rest : Bytes) :
    literal.extent (Byte.lineFeed :: rest) = ⟨0, true⟩ := by
  have stop : literal.stops Byte.lineFeed = true := by rw [stops_lineFeed quote, single]; rfl
  rw [extent_stop stop]
  rfl

theorem extent_escape (literal : Quoted) (rest : Bytes) :
    literal.extent (Byte.backslash :: rest) =
      (literal.extent (rest.drop 1)).after (1 + (rest.take 1).length) := by
  have stop : literal.stops Byte.backslash = true := by simp [stops]
  rw [extent_stop stop, if_pos (BEq.rfl)]

theorem extent_escape_cons (literal : Quoted) (c : UInt8) (rest : Bytes) :
    literal.extent (Byte.backslash :: c :: rest) = (literal.extent rest).after 2 :=
  extent_escape literal (c :: rest)

theorem extent_open_escape (literal : Quoted) : literal.extent [Byte.backslash] = ⟨1, false⟩ := by
  rw [extent_escape, List.drop_nil, extent_empty]
  rfl

theorem take_after_one (b : UInt8) (rest : Bytes) (extent : Extent) :
    (b :: rest).take (extent.after 1).length = b :: rest.take extent.length := by
  rw [Extent.after, Nat.add_comm, List.take_succ_cons]

theorem take_after_two (b c : UInt8) (rest : Bytes) (extent : Extent) :
    (b :: c :: rest).take (extent.after 2).length = b :: c :: rest.take extent.length := by
  rw [Extent.after, Nat.add_comm, List.take_succ_cons, List.take_succ_cons]

/-- A literal is read byte by byte, but for an escape with the byte behind it. -/
@[elab_as_elim]
theorem body_induction {motive : Bytes → Prop} (nil : motive []) (open_escape : motive [Byte.backslash])
    (escape : ∀ c rest, motive rest → motive (Byte.backslash :: c :: rest))
    (other : ∀ b rest, b ≠ Byte.backslash → motive rest → motive (b :: rest)) :
    ∀ body, motive body
  | [] => nil
  | b :: rest => by
      by_cases slash : b = Byte.backslash
      · subst slash
        cases rest with
        | nil => exact open_escape
        | cons c rest => exact escape c rest (body_induction nil open_escape escape other rest)
      · exact other b rest slash (body_induction nil open_escape escape other rest)

end CodeTint.Quoted
