import CodeTint.Unicode.WhiteSpace
import CodeTint.Utf8

/-!
# Names and options as text

Names, hints and option words are compared after trimming `White_Space` and
lowering ASCII letters.
-/

namespace CodeTint.Text

open Unicode (isWhiteSpace)

/-- The bytes of a string. -/
def bytes (text : String) : Bytes :=
  Utf8.encode text.toList

def trimEnd (text : List Char) : List Char :=
  (text.reverse.dropWhile isWhiteSpace).reverse

/-- Without the white space at both ends. -/
def trim (text : String) : String :=
  String.ofList (trimEnd (text.toList.dropWhile isWhiteSpace))

/-- ASCII letters in lower case; every other character stays. -/
def lower (text : String) : String :=
  String.ofList (text.toList.map Char.toLower)

/-- The form in which option words and hints are compared. -/
def normalize (text : String) : String :=
  lower (trim text)

theorem length_lt_of_dropWhile {α : Type} {isMember : α → Bool} {text rest : List α} {c : α}
    (left : text.dropWhile isMember = c :: rest) : rest.length < text.length := by
  have shorter := (List.dropWhile_sublist (l := text) isMember).length_le
  rw [left, List.length_cons] at shorter
  exact shorter

/-- The maximal pieces without white space. -/
def wordsOf (text : List Char) : List (List Char) :=
  match _ : text.dropWhile isWhiteSpace with
  | [] => []
  | c :: rest =>
      (c :: rest.takeWhile (!isWhiteSpace ·)) :: wordsOf (rest.dropWhile (!isWhiteSpace ·))
termination_by text.length
decreasing_by
  have kept := (List.dropWhile_sublist (l := rest) (!isWhiteSpace ·)).length_le
  exact Nat.lt_of_le_of_lt kept (length_lt_of_dropWhile (by assumption))

def words (text : String) : List String :=
  (wordsOf text.toList).map String.ofList

end CodeTint.Text
