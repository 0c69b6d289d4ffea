import CodeTint.Unicode.Ranges

/-!
# White space

The Unicode property `White_Space`.
-/

namespace CodeTint.Unicode

def whiteSpaceRanges : List (Nat × Nat) := [
  (0x09, 0x0D), (0x20, 0x20), (0x85, 0x85), (0xA0, 0xA0), (0x1680, 0x1680), (0x2000, 0x200A),
  (0x2028, 0x2029), (0x202F, 0x202F), (0x205F, 0x205F), (0x3000, 0x3000)]

def isWhiteSpace (c : Char) : Bool :=
  inRanges whiteSpaceRanges c

/-- White space is at the front of ASCII or behind it. -/
theorem far_of_isWhiteSpace {c : Char} (white : isWhiteSpace c = true) : c.toNat ≤ 0x20 ∨ 0x80 ≤ c.toNat := by
  obtain ⟨range, listed, low, high⟩ := (inRanges_iff _ c).mp white
  have all : whiteSpaceRanges.all (fun range => range.2 ≤ 0x20 || 0x80 ≤ range.1) = true := by decide
  have here := List.all_eq_true.mp all range listed
  rw [Bool.or_eq_true, decide_eq_true_eq, decide_eq_true_eq] at here
  omega

end CodeTint.Unicode
