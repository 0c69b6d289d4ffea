import CodeTint.Json.Decoder
import CodeTint.Language.Spec
import CodeTint.Token

/-!
# Kinds, tokens and language descriptions in JSON

Each record is a table of its fields: the key, whether it must be present, and
how its value changes the record read so far. A field that may be absent keeps
the value of the record the reading starts from.
-/

namespace CodeTint.Json

def kindNamed (name : String) : Except DecodeError Kind :=
  match Kind.ofName? name with
  | some kind => .ok kind
  | none => .error .malformed

/-- A kind is its name, or an object with the name as its only key and no value. -/
def kind : Decoder Kind
  | .string (some name) :: _ => (kindNamed name).map .first
  | .openBrace :: .string (some name) :: .colon :: .null :: .closeBrace :: rest =>
      (kindNamed name).map fun kind => ⟨kind, rest, by simp only [List.length_cons]; omega⟩
  | _ => .error .malformed

def tokenFields : List (Field Token) := [
  ⟨"kind", true, fun token => map (fun kind => { token with kind }) kind⟩,
  ⟨"start", true, fun token => map (fun start => { token with start }) natural⟩,
  ⟨"end", true, fun token => map (fun stop => { token with stop }) natural⟩]

def token : Decoder Token :=
  record tokenFields ⟨.plaintext, 0, 0⟩

def blockCommentFields : List (Field BlockComment) := [
  ⟨"open", true, fun pair => map (fun opening => { pair with opening }) string⟩,
  ⟨"close", true, fun pair => map (fun closing => { pair with closing }) string⟩,
  ⟨"lineStart", false, fun pair => map (fun lineStart => { pair with lineStart }) boolean⟩]

def blockComment : Decoder BlockComment :=
  record blockCommentFields { opening := "", closing := "" }

def specFields : List (Field Spec) := [
  ⟨"name", true, fun spec => map (fun name => { spec with name }) string⟩,
  ⟨"aliases", false, fun spec => map (fun aliases => { spec with aliases }) (list string)⟩,
  ⟨"extensions", false, fun spec => map (fun extensions => { spec with extensions }) (list string)⟩,
  ⟨"keywords", false, fun spec => map (fun keywords => { spec with keywords }) (list string)⟩,
  ⟨"operators", false, fun spec => map (fun operators => { spec with operators }) (list string)⟩,
  ⟨"lineComments", false,
    fun spec => map (fun lineComments => { spec with lineComments }) (list string)⟩,
  ⟨"blockComments", false,
    fun spec => map (fun blockComments => { spec with blockComments }) (list blockComment)⟩,
  ⟨"quotes", false, fun spec => map (fun quotes => { spec with quotes }) string⟩,
  ⟨"tripleQuotedStrings", false,
    fun spec => map (fun tripleQuotes => { spec with tripleQuotes }) boolean⟩,
  ⟨"caseInsensitiveKeywords", false,
    fun spec => map (fun ignoreCase => { spec with ignoreCase }) boolean⟩]

def spec : Decoder Spec :=
  record specFields { name := "" }

/-- What is written as JSON. -/
inductive Value
  | string (text : String)
  | number (value : Nat)
  | array (items : List Value)
  | object (members : List (String × Value))
  deriving Repr

def ofToken (token : Token) : Value :=
  .object [("kind", .string token.kind.name), ("start", .number token.start), ("end", .number token.stop)]

end CodeTint.Json
