import CodeTint.Config.Settings
import CodeTint.Json.Model
import CodeTint.Scan

/-!
# Settings documents

A settings document is JSON with comments and with commas before closing
brackets. The scanner that highlights code also finds the comments: the document
is scanned by a table of its own, cleaned piece by piece, and then read as JSON.
-/

namespace CodeTint.Document

/-- Double quotes, line comments after two slashes and block comments. -/
def language : Language :=
  .ofSpec { name := "jsonc", quotes := "\"", lineComments := ["//"], blockComments := Builtin.starComments }

/-- The next piece that is not trivia is a closing bracket or brace. -/
def closesNext (pieces : List Piece) : Bool :=
  match pieces.find? fun piece => !piece.kind.isTrivia with
  | some piece => piece.text == [0x7D] || piece.text == [0x5D]
  | none => false

/-- The text of the pieces without comments and without commas before a closing bracket. -/
def cleanPieces : List Piece → Bytes
  | [] => []
  | piece :: rest =>
      if piece.kind = .comment then cleanPieces rest
      else if piece = ⟨.punctuation, [0x2C]⟩ ∧ closesNext rest then cleanPieces rest
      else piece.text ++ cleanPieces rest

/-- The document as plain JSON. -/
def clean (source : Bytes) : Bytes :=
  cleanPieces (Piece.cut source (scan language source))

/-- The words that stand for a boolean. -/
def booleanWord? (text : String) : Option Bool :=
  let word := Text.normalize text
  if ["true", "1", "yes", "on"].contains word then some true
  else if ["false", "0", "no", "off"].contains word then some false
  else none

/-- A boolean, a boolean word or nothing. -/
def boolean : Json.Decoder (Option Bool)
  | .string (some text) :: _ =>
      match booleanWord? text with
      | some value => .ok (.first (some value))
      | none => .error (.notBoolean text)
  | tokens => Json.nullable Json.boolean tokens

open Json (map nullable string list pairs spec)

def fields : List (Json.Field Settings) := [
  ⟨"extends", false, fun settings => map (fun base => { settings with base }) (nullable string)⟩,
  ⟨"language", false,
    fun settings => map (fun language => { settings with language }) (nullable string)⟩,
  ⟨"format", false, fun settings => map (fun format => { settings with format }) (nullable string)⟩,
  ⟨"classPrefix", false,
    fun settings => map (fun classPrefix => { settings with classPrefix }) (nullable string)⟩,
  ⟨"styleOverrides", false,
    fun settings => map (fun writes => { settings with overrides := writes.map Overrides.mk })
      (nullable (pairs string))⟩,
  ⟨"coalesce", false, fun settings => map (fun coalesce => { settings with coalesce }) boolean⟩,
  ⟨"languages", false,
    fun settings => map (fun languages => { settings with languages }) (nullable (list spec))⟩]

/-- The settings a document holds. -/
def read (text : String) : Except DecodeError Settings :=
  Json.decode (Json.record fields {}) (String.ofList (Utf8.decodeLossy (clean (Text.bytes text))))

end CodeTint.Document
