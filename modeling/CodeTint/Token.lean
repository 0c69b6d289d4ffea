import CodeTint.Kind

/-!
# Tokens and partitions

A token is a classified range of byte offsets. `checkPartition` accepts a list
of tokens exactly when they follow one another without a gap, none is empty, and
together they cover the source; `Piece.cut` then gives the text of each.
-/

namespace CodeTint

structure Token where
  kind : Kind
  start : Nat
  stop : Nat
  deriving DecidableEq, Repr

namespace Token

def length (token : Token) : Nat :=
  token.stop - token.start

/-- The token covers no byte, or runs backwards. -/
def isEmpty (token : Token) : Bool :=
  token.stop ≤ token.start

theorem isEmpty_iff {token : Token} : token.isEmpty = true ↔ token.stop ≤ token.start :=
  decide_eq_true_iff

/-- The bytes of the range, and none if it does not fit the source. -/
def text (token : Token) (source : Bytes) : Bytes :=
  if token.start ≤ token.stop ∧ token.stop ≤ source.length then
    (source.drop token.start).take token.length
  else []

theorem drop_length {token : Token} (forward : token.start ≤ token.stop) (source : Bytes) :
    (source.drop token.start).drop token.length = source.drop token.stop := by
  rw [List.drop_drop, length, Nat.add_sub_cancel' forward]

end Token

/-- Why a list of tokens does not cover its source. -/
inductive PartitionError
  | gap (index expected found : Nat)
  | empty (index : Nat)
  | outOfBounds (index stop length : Nat)
  | incomplete (covered length : Nat)
  deriving DecidableEq, Repr

namespace PartitionError

def message : PartitionError → String
  | gap index expected found =>
      "token " ++ toString index ++ " starts at " ++ toString found ++
        ", expected " ++ toString expected
  | empty index => "token " ++ toString index ++ " is empty"
  | outOfBounds index stop length =>
      "token " ++ toString index ++ " ends at " ++ toString stop ++
        ", past source length " ++ toString length
  | incomplete covered length =>
      "tokens cover " ++ toString covered ++ " of " ++ toString length ++ " bytes"

end PartitionError

/-- Checks the tokens from number `index` on, which have to start at `expected`. -/
def checkPartitionFrom (length index expected : Nat) : List Token → Except PartitionError Unit
  | [] => if expected = length then .ok () else .error (.incomplete expected length)
  | token :: rest =>
      if token.start ≠ expected then .error (.gap index expected token.start)
      else if token.isEmpty then .error (.empty index)
      else if length < token.stop then .error (.outOfBounds index token.stop length)
      else checkPartitionFrom length (index + 1) token.stop rest

/-- Succeeds exactly for the tokens that cover a source of this length. -/
def checkPartition (tokens : List Token) (length : Nat) : Except PartitionError Unit :=
  checkPartitionFrom length 0 0 tokens

/-- A classified piece of text. -/
structure Piece where
  kind : Kind
  text : Bytes
  deriving DecidableEq, Repr

namespace Piece

def ofToken (source : Bytes) (token : Token) : Piece :=
  ⟨token.kind, token.text source⟩

/-- Cuts a source at the ends of the tokens that cover it. -/
def cut (source : Bytes) : List Token → List Piece
  | [] => []
  | token :: rest =>
      ⟨token.kind, source.take token.length⟩ :: cut (source.drop token.length) rest

theorem cut_drop {source : Bytes} {tokens : List Token} {index expected : Nat}
    (covers : checkPartitionFrom source.length index expected tokens = .ok ()) :
    cut (source.drop expected) tokens = tokens.map (ofToken source) := by
  induction tokens generalizing index expected with
  | nil => rfl
  | cons token rest ih =>
      unfold checkPartitionFrom at covers
      split at covers
      · cases covers
      · rename_i same
        split at covers
        · cases covers
        · rename_i nonempty
          split at covers
          · cases covers
          · rename_i fits
            obtain rfl : token.start = expected := Decidable.not_not.mp same
            have forward : token.start ≤ token.stop := by
              rw [Token.isEmpty_iff] at nonempty
              omega
            have text_eq : token.text source = (source.drop token.start).take token.length :=
              if_pos ⟨forward, Nat.le_of_not_lt fits⟩
            rw [cut, Token.drop_length forward, ih covers, List.map_cons, ofToken, text_eq]

/-- The pieces of tokens that cover a source are their texts. -/
theorem cut_eq_map_ofToken {source : Bytes} {tokens : List Token}
    (covers : checkPartition tokens source.length = .ok ()) :
    cut source tokens = tokens.map (ofToken source) := by
  simpa using cut_drop covers

end Piece

end CodeTint
