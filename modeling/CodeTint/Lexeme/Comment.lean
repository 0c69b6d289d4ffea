import CodeTint.Language.Basic

/-!
# Comments

A line comment ends before the line does. A block comment ends after the first
closing delimiter that follows its opening, and with the text if there is none;
block comments do not nest.
-/

namespace CodeTint.Comment

/-- The length of the line comment that starts with this mark. -/
def lineLength (mark : Delimiter) (rest : Bytes) : Nat :=
  mark.length + ((rest.drop mark.length).takeWhile (!Byte.isLineBreak ·)).length

/-- The length of the block comment that starts with the opening of this rule. -/
def blockLength (rule : BlockRule) (rest : Bytes) : Nat :=
  let body := rest.drop rule.opening.length
  match Bytes.offsetOf? rule.closing.bytes body with
  | some offset => rule.opening.length + offset + rule.closing.length
  | none => rule.opening.length + body.length

theorem lineLength_pos (mark : Delimiter) (rest : Bytes) : 0 < lineLength mark rest := by
  have marked := mark.length_pos
  unfold lineLength
  omega

theorem blockLength_pos (rule : BlockRule) (rest : Bytes) : 0 < blockLength rule rest := by
  have opened := rule.opening.length_pos
  unfold blockLength
  dsimp only
  split <;> omega

end CodeTint.Comment
