import CodeTint.Proofs.Lexeme
import CodeTint.Proofs.Partition
import CodeTint.Scan

/-!
# Runs of the scanner

What one step of a cursor keeps holds at every token of a run (`run_forall`).
The first use is `Stands`: the rest of a cursor is the source from its offset on,
and its flag says whether a line starts there. From the extents of the lexemes it
follows that the tokens of a source cover it.
-/

namespace CodeTint

/-- The last of several bytes read from an offset. -/
theorem Bytes.getLast?_read {source : Bytes} {offset length : Nat} (positive : 0 < length)
    (fits : offset + length ≤ source.length) :
    ((source.drop offset).take length).getLast? = source[offset + length - 1]? := by
  rw [List.getLast?_eq_getElem?, List.length_take, List.length_drop,
    Nat.min_eq_left (by omega : length ≤ source.length - offset), List.getElem?_take_of_lt (by omega),
    List.getElem?_drop, Nat.add_sub_assoc positive]

namespace Cursor

theorem next?_nil {language : Language} {cursor : Cursor} (read : cursor.rest = []) :
    cursor.next? language = none := by
  unfold next?
  rw [read]

theorem next?_cons (language : Language) {cursor : Cursor} {b : UInt8} {bs : Bytes}
    (here : cursor.rest = b :: bs) :
    cursor.next? language =
      some (⟨(Lexeme.first language cursor.context b bs).kind, cursor.offset,
          cursor.offset + (Lexeme.first language cursor.context b bs).length⟩,
        cursor.advance (Lexeme.first language cursor.context b bs)) := by
  unfold next?
  rw [here]

/-- A step takes the first lexeme of the bytes not yet read. -/
theorem next?_eq_some {language : Language} {cursor after : Cursor} {token : Token}
    (found : cursor.next? language = some (token, after)) :
    ∃ b bs lexeme, cursor.rest = b :: bs ∧ lexeme = Lexeme.first language cursor.context b bs ∧
      token = ⟨lexeme.kind, cursor.offset, cursor.offset + lexeme.length⟩ ∧
      after = cursor.advance lexeme := by
  cases here : cursor.rest with
  | nil =>
      rw [next?_nil here] at found
      cases found
  | cons b bs =>
      rw [next?_cons language here] at found
      cases found
      exact ⟨b, bs, _, rfl, rfl, rfl, rfl⟩

theorem run_of_none {language : Language} {cursor : Cursor} (read : cursor.next? language = none) :
    cursor.run language = [] := by
  rw [run]
  split
  · rfl
  · rename_i found
    rw [read] at found
    cases found

theorem run_of_some {language : Language} {cursor after : Cursor} {token : Token}
    (found : cursor.next? language = some (token, after)) :
    cursor.run language = (token, after) :: after.run language := by
  rw [run]
  split
  · rename_i absent
    rw [found] at absent
    cases absent
  · rename_i found'
    rw [found] at found'
    cases found'
    rfl

/-- What every step keeps holds before each token of a run. -/
theorem run_forall {language : Language} (Kept : Cursor → Prop)
    (step : ∀ {cursor after : Cursor} {token : Token}, Kept cursor →
      cursor.next? language = some (token, after) → Kept after)
    {cursor : Cursor} (start : Kept cursor) {token : Token} {after : Cursor}
    (member : (token, after) ∈ cursor.run language) :
    ∃ before, Kept before ∧ before.next? language = some (token, after) := by
  fun_induction run language cursor with
  | case1 cursor read => cases member
  | case2 cursor first next found ih =>
      rcases List.mem_cons.mp member with same | later
      · cases same
        exact ⟨cursor, start, found⟩
      · exact ih (step start found) later

/-- The cursor stands in the source. -/
structure Stands (source : Bytes) (cursor : Cursor) : Prop where
  within : cursor.offset ≤ source.length
  rest : cursor.rest = source.drop cursor.offset
  lineStart : cursor.lineStart = Language.isLineStart source cursor.offset

namespace Stands

theorem start (source : Bytes) : Stands source (Cursor.start source) :=
  ⟨Nat.zero_le _, rfl, rfl⟩

theorem endsLine_take {source : Bytes} {offset length : Nat} (positive : 0 < length)
    (fits : offset + length ≤ source.length) :
    Bytes.endsLine ((source.drop offset).take length) = Language.isLineStart source (offset + length) := by
  unfold Bytes.endsLine Language.isLineStart
  rw [Bytes.getLast?_read positive fits]
  have later : (offset + length == 0) = false := by
    rw [beq_eq_false_iff_ne]
    omega
  rw [later, Bool.false_or]

theorem next? {language : Language} {source : Bytes} {cursor after : Cursor} {token : Token}
    (stands : Stands source cursor) (found : cursor.next? language = some (token, after)) :
    token.start = cursor.offset ∧ token.stop = after.offset ∧ cursor.offset < after.offset ∧
      Stands source after := by
  obtain ⟨b, bs, lexeme, here, lexemeEq, rfl, rfl⟩ := next?_eq_some found
  have positive : 0 < lexeme.length := lexemeEq ▸ Lexeme.first_length_pos language cursor.context b bs
  have cut : Utf8.CleanCut (b :: bs) lexeme.length :=
    lexemeEq ▸ Lexeme.first_cut language cursor.context b bs
  have fits : cursor.offset + lexeme.length ≤ source.length := by
    have bound := cut.fits
    rw [← here, stands.rest, List.length_drop] at bound
    have within := stands.within
    omega
  refine ⟨rfl, rfl, Nat.lt_add_of_pos_right positive, fits, ?_, ?_⟩
  · change cursor.rest.drop lexeme.length = _
    rw [stands.rest, List.drop_drop]
    rfl
  · change Bytes.endsLine (cursor.rest.take lexeme.length) = _
    rw [stands.rest]
    exact endsLine_take positive fits

/-- The tokens of a run from a cursor on cover the source from its offset on. -/
theorem run_covers {language : Language} {source : Bytes} {cursor : Cursor}
    (stands : Stands source cursor) (index : Nat) :
    checkPartitionFrom source.length index cursor.offset ((cursor.run language).map Prod.fst) =
      .ok () := by
  fun_induction run language cursor generalizing index with
  | case1 cursor read =>
      rw [List.map_nil, checkPartitionFrom_nil_iff]
      cases here : cursor.rest with
      | nil =>
          have empty := stands.rest
          rw [here] at empty
          have past := List.drop_eq_nil_iff.mp empty.symm
          exact Nat.le_antisymm stands.within past
      | cons b bs =>
          rw [next?_cons language here] at read
          cases read
  | case2 cursor token after found ih =>
      obtain ⟨starts, stops, progress, next⟩ := stands.next? found
      rw [List.map_cons, checkPartitionFrom_cons_iff]
      have within := next.within
      rw [← stops] at progress within
      refine ⟨starts, starts ▸ progress, within, ?_⟩
      have covered := ih next (index + 1)
      rw [← stops] at covered
      exact covered

end Stands

end Cursor

/-- The tokens of a source cover it. -/
theorem scan_covers (language : Language) (source : Bytes) :
    checkPartition (scan language source) source.length = .ok () :=
  (Cursor.Stands.start source).run_covers 0

/-- Each token of a source is one step of a cursor that stands in it, and of which
every step keeps what holds at the start. -/
theorem scan_forall {language : Language} {source : Bytes} (Kept : Cursor → Prop)
    (start : Kept (.start source))
    (step : ∀ {cursor after : Cursor} {token : Token}, cursor.Stands source → Kept cursor →
      cursor.next? language = some (token, after) → Kept after)
    {token : Token} (member : token ∈ scan language source) :
    ∃ before after : Cursor, before.Stands source ∧ Kept before ∧
      before.next? language = some (token, after) := by
  obtain ⟨⟨token, after⟩, inRun, rfl⟩ := List.mem_map.mp member
  obtain ⟨before, ⟨stands, kept⟩, found⟩ := Cursor.run_forall
    (fun cursor => cursor.Stands source ∧ Kept cursor)
    (fun both found => ⟨(both.1.next? found).2.2.2, step both.1 both.2 found⟩)
    ⟨.start source, start⟩ inRun
  exact ⟨before, after, stands, kept, found⟩

end CodeTint
