import CodeTint.Proofs.Utf8
import CodeTint.Text
import Mathlib.Data.List.Lex
import Mathlib.Data.String.Basic

/-!
# The order of texts and of their bytes

Texts are ordered by the codes of their characters. Longer sequences have greater
leads, and sequences of one length differ as their codes do, so the bytes of two
texts are in the same order as the texts.
-/

namespace CodeTint

namespace Utf8

theorem lex_of_lt {first second : UInt8} (less : first.toNat < second.toNat) (rest after : Bytes) :
    List.Lex (· < ·) (first :: rest) (second :: after) :=
  .rel (UInt8.lt_iff_toNat_lt.mpr less)

theorem lex_of_le {first second : UInt8} {rest after : Bytes} (least : first.toNat ≤ second.toNat)
    (later : first = second → List.Lex (· < ·) rest after) :
    List.Lex (· < ·) (first :: rest) (second :: after) := by
  rcases Nat.lt_or_eq_of_le least with less | same
  · exact lex_of_lt less rest after
  · obtain rfl := UInt8.toNat_inj.mp same
    exact .cons (later rfl)

/-- A continuation byte is 128 more than its payload. -/
theorem toNat_of_isContinuation {b : UInt8} (continued : isContinuation b = true) : b.toNat = 0x80 + payload b := by
  rw [isContinuation_iff] at continued
  unfold payload
  omega

theorem lex_of_payload_lt {b d : UInt8} (first : isContinuation b = true) (second : isContinuation d = true)
    (less : payload b < payload d) (rest after : Bytes) : List.Lex (· < ·) (b :: rest) (d :: after) := by
  apply lex_of_lt
  rw [toNat_of_isContinuation first, toNat_of_isContinuation second]
  exact Nat.add_lt_add_left less 0x80

theorem lex_of_payload_le {b d : UInt8} {rest after : Bytes} (first : isContinuation b = true)
    (second : isContinuation d = true) (least : payload b ≤ payload d)
    (later : b = d → List.Lex (· < ·) rest after) : List.Lex (· < ·) (b :: rest) (d :: after) := by
  refine lex_of_le ?_ later
  rw [toNat_of_isContinuation first, toNat_of_isContinuation second]
  exact Nat.add_le_add_left least 0x80

/-- The sequence of a smaller character comes first, whatever follows. -/
theorem Sequence.lex_append {c d : Char} {left right : Bytes} (first : Sequence c left) (second : Sequence d right)
    (less : c.toNat < d.toNat) (rest after : Bytes) : List.Lex (· < ·) (left ++ rest) (right ++ after) := by
  -- Either the leads differ, or the sequences are of one length and the first bytes that differ decide.
  cases first with
  | one lead led code =>
      cases second with
      | one | two | three | four => exact lex_of_lt (by omega) _ _
  | two lead b₁ led one code long =>
      have bound₁ := payload_lt b₁
      cases second with
      | one => omega
      | two other d₁ led' one' code' long' =>
          have bound₁' := payload_lt d₁
          refine lex_of_le (by omega) ?_
          rintro rfl
          exact lex_of_payload_lt one one' (by omega) _ _
      | three | four => exact lex_of_lt (by omega) _ _
  | three lead b₁ b₂ led one two code long =>
      have bound₁ := payload_lt b₁
      have bound₂ := payload_lt b₂
      cases second with
      | one => omega
      | two other d₁ =>
          have bound₁' := payload_lt d₁
          omega
      | three other d₁ d₂ led' one' two' code' long' =>
          have bound₁' := payload_lt d₁
          have bound₂' := payload_lt d₂
          refine lex_of_le (by omega) ?_
          rintro rfl
          refine lex_of_payload_le one one' (by omega) ?_
          rintro rfl
          exact lex_of_payload_lt two two' (by omega) _ _
      | four => exact lex_of_lt (by omega) _ _
  | four lead b₁ b₂ b₃ led one two three code long =>
      have bound₁ := payload_lt b₁
      have bound₂ := payload_lt b₂
      have bound₃ := payload_lt b₃
      cases second with
      | one => omega
      | two other d₁ =>
          have bound₁' := payload_lt d₁
          omega
      | three other d₁ d₂ =>
          have bound₁' := payload_lt d₁
          have bound₂' := payload_lt d₂
          omega
      | four other d₁ d₂ d₃ led' one' two' three' code' long' =>
          have bound₁' := payload_lt d₁
          have bound₂' := payload_lt d₂
          have bound₃' := payload_lt d₃
          refine lex_of_le (by omega) ?_
          rintro rfl
          refine lex_of_payload_le one one' (by omega) ?_
          rintro rfl
          refine lex_of_payload_le two two' (by omega) ?_
          rintro rfl
          exact lex_of_payload_lt three three' (by omega) _ _

/-- Encoding keeps the order of texts. -/
theorem encode_lex {left right : List Char} (less : List.Lex (· < ·) left right) :
    List.Lex (· < ·) (encode left) (encode right) := by
  induction less with
  | @nil c text =>
      obtain ⟨b, rest, same, _⟩ := encode_head (List.cons_ne_nil c text)
      rw [same]
      exact .nil
  | @cons c left right less ih =>
      rw [encode_cons, encode_cons]
      exact List.Lex.append_left _ ih _
  | @rel c left d right less =>
      rw [encode_cons, encode_cons]
      exact (sequence_encodeChar c).lex_append (sequence_encodeChar d) (UInt32.lt_iff_toNat_lt.mp less) _ _

end Utf8

namespace Text

/-- In the order of their bytes the first text comes before the second. -/
def Before (first second : String) : Prop :=
  List.Lex (· < ·) (bytes first) (bytes second)

theorem before_of_lt {first second : String} (less : first < second) : Before first second :=
  Utf8.encode_lex (String.lt_iff_toList_lt.mp less)

theorem not_before_self (text : String) : ¬Before text text :=
  List.lex_irrefl (fun b => UInt8.lt_irrefl b) _

/-- The order of texts is the order of their bytes. -/
theorem before_iff {first second : String} : Before first second ↔ first < second := by
  refine ⟨fun before => ?_, before_of_lt⟩
  rcases lt_trichotomy first second with less | rfl | greater
  · exact less
  · exact absurd before (not_before_self first)
  · have around : Before first first :=
      List.lex_trans (fun less more => UInt8.lt_trans less more) before (before_of_lt greater)
    exact absurd around (not_before_self first)

end Text

end CodeTint
