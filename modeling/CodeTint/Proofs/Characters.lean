import CodeTint.Config.Document
import CodeTint.Proofs.Scan

/-!
# Characters and tokens

No token of a source starts or stops inside a character of it, whatever stands
between the characters. The pieces of a well-formed source are well-formed, and
so is a settings document after its comments are taken out.
-/

namespace CodeTint

open Utf8 (KeepsWhole)

/-- A step from a clean cut of the source ends at a clean cut of the source. -/
theorem Cursor.Stands.next?_whole {language : Language} {source : Bytes} {cursor after : Cursor}
    {token : Token} (stands : cursor.Stands source) (whole : KeepsWhole source cursor.offset)
    (found : cursor.next? language = some (token, after)) : KeepsWhole source after.offset := by
  obtain ⟨b, bs, lexeme, here, lexemeEq, _, rfl⟩ := next?_eq_some found
  have cut := (Lexeme.first_cut language cursor.context b bs).whole
  rw [← lexemeEq, ← here, stands.rest] at cut
  exact whole.add cut

/-- Both ends of a token are clean cuts of the source. -/
theorem scan_whole {language : Language} {source : Bytes} {token : Token}
    (member : token ∈ scan language source) :
    KeepsWhole source token.start ∧ KeepsWhole source token.stop := by
  obtain ⟨before, after, stands, whole, found⟩ := scan_forall
    (fun cursor => KeepsWhole source cursor.offset) (.zero source)
    (fun stands whole found => stands.next?_whole whole found) member
  obtain ⟨starts, stops, _, _⟩ := stands.next? found
  rw [starts, stops]
  exact ⟨whole, stands.next?_whole whole found⟩

/-- A clean cut is not strictly inside a character. -/
theorem Utf8.KeepsWhole.not_inside {text : Bytes} {cut offset width : Nat} {c : Char}
    (whole : KeepsWhole text cut) (found : decode? (text.drop offset) = some (c, width)) :
    ¬(offset < cut ∧ cut < offset + width) := by
  rintro ⟨before, inside⟩
  have bound := whole offset c width found before
  omega

/-- The text of a token is what its step reads from the rest. -/
theorem Cursor.Stands.token_text {language : Language} {source : Bytes} {cursor after : Cursor}
    {token : Token} (stands : cursor.Stands source) (found : cursor.next? language = some (token, after)) :
    token.text source = cursor.rest.take token.length ∧ after.rest = cursor.rest.drop token.length := by
  obtain ⟨starts, stops, progress, next⟩ := stands.next? found
  have within := next.within
  rw [← stops] at within progress
  rw [← starts] at progress
  refine ⟨?_, ?_⟩
  · rw [Token.text, if_pos ⟨Nat.le_of_lt progress, within⟩, starts, ← stands.rest]
  · rw [next.rest, stands.rest, List.drop_drop, ← stops, ← starts, Token.length,
      Nat.add_sub_cancel' (Nat.le_of_lt progress)]

/-- A step in a well-formed text reads a well-formed text and leaves one. -/
theorem Cursor.Stands.next?_encode {language : Language} {source : Bytes} {cursor after : Cursor}
    {token : Token} (stands : cursor.Stands source) (found : cursor.next? language = some (token, after))
    {text : List Char} (restEq : cursor.rest = Utf8.encode text) :
    ∃ left right, token.text source = Utf8.encode left ∧ after.rest = Utf8.encode right := by
  obtain ⟨b, bs, lexeme, here, lexemeEq, tokenEq, _⟩ := next?_eq_some found
  have cut := Lexeme.first_cut language cursor.context b bs
  rw [← lexemeEq, ← here, restEq] at cut
  obtain ⟨left, right, rfl, length⟩ := cut.whole.split_encode cut.fits
  obtain ⟨textEq, afterEq⟩ := stands.token_text found
  have same : token.length = (Utf8.encode left).length := by
    rw [length, tokenEq, Token.length, Nat.add_sub_cancel_left]
  rw [textEq, afterEq, restEq, Utf8.encode_append, same, List.take_left, List.drop_left]
  exact ⟨left, right, rfl, rfl⟩

theorem scan_encode {language : Language} {text : List Char} {token : Token}
    (member : token ∈ scan language (Utf8.encode text)) :
    ∃ part, token.text (Utf8.encode text) = Utf8.encode part := by
  obtain ⟨before, after, stands, ⟨rest, restEq⟩, found⟩ := scan_forall
    (fun cursor => ∃ rest, cursor.rest = Utf8.encode rest) ⟨text, rfl⟩
    (fun stands kept found => by
      obtain ⟨rest, restEq⟩ := kept
      obtain ⟨_, right, _, afterEq⟩ := stands.next?_encode found restEq
      exact ⟨right, afterEq⟩) member
  obtain ⟨left, _, textEq, _⟩ := stands.next?_encode found restEq
  exact ⟨left, textEq⟩

namespace Document

theorem cleanPieces_encode {pieces : List Piece}
    (encoded : ∀ piece ∈ pieces, ∃ part, piece.text = Utf8.encode part) :
    ∃ text, cleanPieces pieces = Utf8.encode text := by
  induction pieces with
  | nil => exact ⟨[], rfl⟩
  | cons piece rest ih =>
      obtain ⟨text, textEq⟩ := ih fun other member => encoded other (List.mem_cons_of_mem _ member)
      obtain ⟨part, partEq⟩ := encoded piece List.mem_cons_self
      unfold cleanPieces
      split
      · exact ⟨text, textEq⟩
      · split
        · exact ⟨text, textEq⟩
        · exact ⟨part ++ text, by rw [partEq, textEq, Utf8.encode_append]⟩

theorem clean_encode (text : List Char) : ∃ cleaned, clean (Utf8.encode text) = Utf8.encode cleaned := by
  apply cleanPieces_encode
  rw [Piece.cut_eq_map_ofToken (scan_covers language _)]
  intro piece member
  obtain ⟨token, inScan, rfl⟩ := List.mem_map.mp member
  exact scan_encode inScan

end Document

/-- No token starts or stops strictly inside a character of the source; the tokens of
a well-formed source are well-formed, and cleaning a settings document leaves a text
that the strict reader accepts, so nothing in it is replaced. -/
theorem scan_keeps_characters (language : Language) (source : Bytes) :
    (∀ token ∈ scan language source, ∀ offset c width,
      Utf8.decode? (source.drop offset) = some (c, width) →
        ¬(offset < token.start ∧ token.start < offset + width) ∧
        ¬(offset < token.stop ∧ token.stop < offset + width)) ∧
    (∀ text, source = Utf8.encode text → ∀ token ∈ scan language source,
      ∃ part, token.text source = Utf8.encode part) ∧
    ∀ document : String, ∃ cleaned,
      Utf8.decodeAll? (Document.clean (Text.bytes document)) = some cleaned ∧
      Utf8.decodeLossy (Document.clean (Text.bytes document)) = cleaned := by
  refine ⟨?_, ?_, ?_⟩
  · intro token member offset c width found
    obtain ⟨starts, stops⟩ := scan_whole member
    exact ⟨starts.not_inside found, stops.not_inside found⟩
  · rintro text rfl token member
    exact scan_encode member
  · intro document
    obtain ⟨cleaned, same⟩ := Document.clean_encode document.toList
    refine ⟨cleaned, ?_, ?_⟩
    · rw [Text.bytes, same]
      exact Utf8.decodeAll?_encode cleaned
    · rw [Text.bytes, same]
      exact Utf8.decodeLossy_encode cleaned

end CodeTint
