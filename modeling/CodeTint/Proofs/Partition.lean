import CodeTint.Token
import Mathlib.Data.List.Chain

/-!
# What a partition gives

A list of tokens that the check accepts is read from the left: each token starts
where the one before it stopped, takes at least one byte and stops in the source.
The texts of such tokens, one after another, are the source.
-/

namespace CodeTint

theorem checkPartitionFrom_nil_iff {length index expected : Nat} :
    checkPartitionFrom length index expected [] = .ok () ↔ expected = length := by
  unfold checkPartitionFrom
  split
  · rename_i same
    exact ⟨fun _ => same, fun _ => rfl⟩
  · rename_i other
    constructor
    · intro accepted
      cases accepted
    · intro same
      exact absurd same other

/-- What the check asks of the first token. -/
theorem checkPartitionFrom_cons_iff {length index expected : Nat} {token : Token} {rest : List Token} :
    checkPartitionFrom length index expected (token :: rest) = .ok () ↔
      token.start = expected ∧ token.start < token.stop ∧ token.stop ≤ length ∧
        checkPartitionFrom length (index + 1) token.stop rest = .ok () := by
  have empty_iff : token.isEmpty = true ↔ ¬token.start < token.stop := by
    rw [Token.isEmpty_iff, Nat.not_lt]
  constructor
  · intro accepted
    unfold checkPartitionFrom at accepted
    split at accepted
    · cases accepted
    · rename_i same
      split at accepted
      · cases accepted
      · rename_i nonempty
        split at accepted
        · cases accepted
        · rename_i fits
          rw [empty_iff, Decidable.not_not] at nonempty
          exact ⟨Decidable.not_not.mp same, nonempty, Nat.le_of_not_lt fits, accepted⟩
  · rintro ⟨same, nonempty, fits, accepted⟩
    rw [checkPartitionFrom, if_neg (Decidable.not_not.mpr same),
      if_neg (fun empty => empty_iff.mp empty nonempty), if_neg (Nat.not_lt.mpr fits)]
    exact accepted

/-- Tokens that cover a source follow one another without a gap. -/
theorem isChain_of_covers {length index expected : Nat} {tokens : List Token}
    (covers : checkPartitionFrom length index expected tokens = .ok ()) :
    tokens.IsChain (fun before after => before.stop = after.start) := by
  induction tokens generalizing index expected with
  | nil => exact .nil
  | cons token rest ih =>
      obtain ⟨_, _, _, later⟩ := checkPartitionFrom_cons_iff.mp covers
      cases rest with
      | nil => exact .singleton token
      | cons next rest =>
          have follows := (checkPartitionFrom_cons_iff.mp later).1
          exact .cons_cons follows.symm (ih later)

theorem fits_of_covers {length index expected : Nat} {tokens : List Token}
    (covers : checkPartitionFrom length index expected tokens = .ok ()) :
    ∀ token ∈ tokens, token.start < token.stop ∧ token.stop ≤ length := by
  induction tokens generalizing index expected with
  | nil =>
      intro token member
      cases member
  | cons first rest ih =>
      obtain ⟨_, nonempty, fits, later⟩ := checkPartitionFrom_cons_iff.mp covers
      intro token member
      rcases List.mem_cons.mp member with rfl | member
      · exact ⟨nonempty, fits⟩
      · exact ih later token member

/-- The numbers of the tokens matter to the errors only. -/
theorem covers_from {length index expected : Nat} {tokens : List Token}
    (covers : checkPartitionFrom length index expected tokens = .ok ()) (other : Nat) :
    checkPartitionFrom length other expected tokens = .ok () := by
  induction tokens generalizing index other expected with
  | nil => exact covers
  | cons token rest ih =>
      obtain ⟨same, nonempty, fits, later⟩ := checkPartitionFrom_cons_iff.mp covers
      exact checkPartitionFrom_cons_iff.mpr ⟨same, nonempty, fits, ih later _⟩

theorem le_start_of_covers {length index expected : Nat} {tokens : List Token}
    (covers : checkPartitionFrom length index expected tokens = .ok ()) :
    ∀ token ∈ tokens, expected ≤ token.start := by
  induction tokens generalizing index expected with
  | nil =>
      intro token member
      cases member
  | cons first rest ih =>
      obtain ⟨rfl, nonempty, _, later⟩ := checkPartitionFrom_cons_iff.mp covers
      intro token member
      rcases List.mem_cons.mp member with rfl | member
      · exact Nat.le_refl _
      · exact Nat.le_trans (Nat.le_of_lt nonempty) (ih later token member)

theorem pairwise_of_covers {length index expected : Nat} {tokens : List Token}
    (covers : checkPartitionFrom length index expected tokens = .ok ()) :
    tokens.Pairwise fun before after => before.stop ≤ after.start := by
  induction tokens generalizing index expected with
  | nil => exact .nil
  | cons token rest ih =>
      obtain ⟨_, _, _, later⟩ := checkPartitionFrom_cons_iff.mp covers
      exact .cons (le_start_of_covers later) (ih later)

namespace Token

variable {token : Token} {source : Bytes}

theorem text_of_fits (forward : token.start ≤ token.stop) (fits : token.stop ≤ source.length) :
    token.text source = (source.drop token.start).take (token.stop - token.start) :=
  if_pos ⟨forward, fits⟩

theorem length_text (forward : token.start ≤ token.stop) (fits : token.stop ≤ source.length) :
    (token.text source).length = token.stop - token.start := by
  rw [text_of_fits forward fits, List.length_take, List.length_drop]
  omega

theorem text_append_drop (forward : token.start ≤ token.stop) (fits : token.stop ≤ source.length) :
    token.text source ++ source.drop token.stop = source.drop token.start := by
  rw [text_of_fits forward fits, ← drop_length forward]
  exact List.take_append_drop _ _

end Token

namespace Piece

/-- The pieces of a source that is cut into all of its tokens give it back. -/
theorem cut_join_drop {source : Bytes} {tokens : List Token} {index expected : Nat}
    (covers : checkPartitionFrom source.length index expected tokens = .ok ()) :
    (cut (source.drop expected) tokens).flatMap text = source.drop expected := by
  induction tokens generalizing index expected with
  | nil =>
      rw [checkPartitionFrom_nil_iff] at covers
      rw [covers, List.drop_length]
      rfl
  | cons token rest ih =>
      obtain ⟨rfl, nonempty, _, covers⟩ := checkPartitionFrom_cons_iff.mp covers
      have next := Token.drop_length (Nat.le_of_lt nonempty) source
      rw [cut, List.flatMap_cons, next, ih covers, ← next]
      exact List.take_append_drop _ _

end Piece

theorem texts_join_drop {source : Bytes} {tokens : List Token} {index expected : Nat}
    (covers : checkPartitionFrom source.length index expected tokens = .ok ()) :
    tokens.flatMap (fun token => token.text source) = source.drop expected := by
  have joined := Piece.cut_join_drop covers
  rw [Piece.cut_drop covers, List.flatMap_map] at joined
  exact joined

/-- The texts of the tokens of a partition, one after another, are the source. -/
theorem texts_join {source : Bytes} {tokens : List Token}
    (covers : checkPartition tokens source.length = .ok ()) :
    tokens.flatMap (fun token => token.text source) = source :=
  texts_join_drop covers

end CodeTint
