import CodeTint.Text

/-!
# HTML markup

The five characters with a meaning in HTML are written as entities. A styled
piece stands in a `span` whose class is escaped in the same way, so every `<` in
the output starts a tag.
-/

namespace CodeTint.Html

/-- A character and the rest of its entity after the ampersand. -/
structure Entity where
  raw : UInt8
  name : Bytes

def ampersand : UInt8 := 0x26

def less : UInt8 := 0x3C

def greater : UInt8 := 0x3E

def entities : List Entity :=
  [⟨ampersand, Text.bytes "amp;"⟩, ⟨less, Text.bytes "lt;"⟩, ⟨greater, Text.bytes "gt;"⟩,
    ⟨0x22, Text.bytes "quot;"⟩, ⟨0x27, Text.bytes "#39;"⟩]

def escapeByte (b : UInt8) : Bytes :=
  match entities.find? fun entity => entity.raw == b with
  | some entity => ampersand :: entity.name
  | none => [b]

def escape (text : Bytes) : Bytes :=
  text.flatMap escapeByte

/-- The entity whose name stands at the front. -/
def entityNamed? (rest : Bytes) : Option Entity :=
  entities.find? fun entity => entity.name.isPrefixOf rest

/-- Reads the entities `escape` writes; any other ampersand stays. -/
def unescape : Bytes → Bytes
  | [] => []
  | b :: rest =>
      if b == ampersand then
        match entityNamed? rest with
        | some entity => entity.raw :: unescape (rest.drop entity.name.length)
        | none => b :: unescape rest
      else b :: unescape rest
termination_by bytes => bytes.length

/-- Leaves out every tag; a tag that is not closed runs to the end. -/
def stripTags : Bytes → Bytes
  | [] => []
  | b :: rest =>
      if b == less then stripTags ((rest.dropWhile (· != greater)).drop 1) else b :: stripTags rest
termination_by bytes => bytes.length
decreasing_by
  · have kept := (List.dropWhile_sublist (l := rest) (· != greater)).length_le
    simp only [List.length_drop, List.length_cons]
    omega
  · simp

/-- The source of a rendered text. -/
def toSource (rendered : Bytes) : Bytes :=
  unescape (stripTags rendered)

def openTag (style : String) : Bytes :=
  Text.bytes "<span class=\"" ++ escape (Text.bytes style) ++ Text.bytes "\">"

def closeTag : Bytes :=
  Text.bytes "</span>"

@[simp]
theorem escape_append (left right : Bytes) : escape (left ++ right) = escape left ++ escape right :=
  List.flatMap_append

end CodeTint.Html
