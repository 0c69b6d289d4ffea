import CodeTint.Json.Token

/-!
# Decoders of JSON values

A decoder reads one value from the front of a list of tokens. It takes at least
one token, which is what makes reading arrays and objects end. A record may be
written as an object, in which unknown keys are skipped and known ones must not
repeat, or as an array of its fields in order.
-/

namespace CodeTint

inductive DecodeError
  | malformed
  /-- The text of a string that should have been a boolean word. -/
  | notBoolean (text : String)
  deriving DecidableEq, Repr

namespace Json

/-- A value read from the front of the tokens. -/
structure Read (α : Type) (tokens : List JsonToken) where
  value : α
  rest : List JsonToken
  shorter : rest.length < tokens.length

abbrev Decoder (α : Type) :=
  (tokens : List JsonToken) → Except DecodeError (Read α tokens)

variable {α β ρ σ : Type}

/-- A value that is all in the first token. -/
def Read.first {token : JsonToken} {rest : List JsonToken} (value : α) : Read α (token :: rest) :=
  ⟨value, rest, Nat.lt_succ_self _⟩

/-- The same reading inside longer tokens. -/
def Read.within {inner tokens : List JsonToken} (read : Read α inner)
    (le : inner.length ≤ tokens.length) : Read α tokens :=
  ⟨read.value, read.rest, Nat.lt_of_lt_of_le read.shorter le⟩

def map (f : α → β) (decoder : Decoder α) : Decoder β := fun tokens =>
  (decoder tokens).map fun read => ⟨f read.value, read.rest, read.shorter⟩

def string : Decoder String
  | .string (some text) :: _ => .ok (.first text)
  | _ => .error .malformed

def boolean : Decoder Bool
  | .truth value :: _ => .ok (.first value)
  | _ => .error .malformed

/-- A natural number that fits 64 bits. -/
def natural : Decoder Nat
  | .number (some value) :: _ =>
      if value < UInt64.size then .ok (.first value) else .error .malformed
  | _ => .error .malformed

/-- Also reads `null`. -/
def nullable (decoder : Decoder α) : Decoder (Option α)
  | .null :: _ => .ok (.first none)
  | tokens => map some decoder tokens

/-- What may still have to be closed while a value is skipped. -/
inductive Frame
  | array
  | object

mutual

/-- The tokens after a value and after the frames it stands in. -/
def skipValue? (frames : List Frame) : List JsonToken → Option (List JsonToken)
  | .openBrace :: .closeBrace :: rest => skipFrames? frames rest
  | .openBrace :: .string _ :: .colon :: rest => skipValue? (.object :: frames) rest
  | .openBracket :: .closeBracket :: rest => skipFrames? frames rest
  | .openBracket :: rest => skipValue? (.array :: frames) rest
  | .string _ :: rest => skipFrames? frames rest
  | .number _ :: rest => skipFrames? frames rest
  | .truth _ :: rest => skipFrames? frames rest
  | .null :: rest => skipFrames? frames rest
  | _ => none

/-- The tokens after the frames, the first of which has just got a value. -/
def skipFrames? : List Frame → List JsonToken → Option (List JsonToken)
  | [], rest => some rest
  | .array :: frames, .closeBracket :: rest => skipFrames? frames rest
  | .array :: frames, .comma :: rest => skipValue? (.array :: frames) rest
  | .object :: frames, .closeBrace :: rest => skipFrames? frames rest
  | .object :: frames, .comma :: .string _ :: .colon :: rest => skipValue? (.object :: frames) rest
  | _, _ => none

end

mutual

theorem skipValue?_length (frames : List Frame) (tokens after : List JsonToken)
    (found : skipValue? frames tokens = some after) : after.length < tokens.length := by
  unfold skipValue? at found
  split at found
  case h_1 rest | h_3 rest =>
    have le := skipFrames?_length _ _ _ found
    simp only [List.length_cons]
    omega
  case h_2 rest | h_4 rest _ =>
    have shorter := skipValue?_length _ _ _ found
    simp only [List.length_cons]
    omega
  case h_5 rest | h_6 rest | h_7 rest | h_8 rest =>
    have le := skipFrames?_length _ _ _ found
    simp only [List.length_cons]
    omega
  case h_9 => cases found

theorem skipFrames?_length (frames : List Frame) (tokens after : List JsonToken)
    (found : skipFrames? frames tokens = some after) : after.length ≤ tokens.length := by
  unfold skipFrames? at found
  split at found
  case h_1 => cases found; exact Nat.le_refl _
  case h_2 | h_4 =>
    have le := skipFrames?_length _ _ _ found
    simp only [List.length_cons]
    omega
  case h_3 | h_5 =>
    have shorter := skipValue?_length _ _ _ found
    simp only [List.length_cons]
    omega
  case h_6 => cases found

end

/-- Reads any value and forgets it. -/
def skip : Decoder Unit := fun tokens =>
  match found : skipValue? [] tokens with
  | some rest => .ok ⟨(), rest, skipValue?_length [] tokens rest found⟩
  | none => .error .malformed

/-- The items of an array after its opening bracket, of which there is one at least. -/
def items (item : Decoder α) (tokens : List JsonToken) :
    Except DecodeError (Read (List α) tokens) :=
  match item tokens with
  | .error error => .error error
  | .ok ⟨value, .closeBracket :: rest, shorter⟩ => .ok ⟨[value], rest, Nat.lt_of_succ_lt shorter⟩
  | .ok ⟨value, .comma :: rest, shorter⟩ =>
      (items item rest).map fun read =>
        ⟨value :: read.value, read.rest,
          Nat.lt_trans read.shorter (Nat.lt_of_succ_lt shorter)⟩
  | .ok _ => .error .malformed
termination_by tokens.length
decreasing_by exact Nat.lt_of_succ_lt shorter

def list (item : Decoder α) : Decoder (List α)
  | .openBracket :: .closeBracket :: rest =>
      .ok ⟨[], rest, Nat.lt_of_succ_lt (Nat.lt_succ_self _)⟩
  | .openBracket :: rest => (items item rest).map (·.within (Nat.le_succ _))
  | _ => .error .malformed

/-- The members of an object after its opening brace, of which there is one at
least; `member` says how the value of a key changes the state. -/
def members (member : σ → String → Except DecodeError (Decoder σ)) (state : σ)
    (tokens : List JsonToken) : Except DecodeError (Read σ tokens) :=
  match tokens with
  | .string (some key) :: .colon :: tokens =>
      match member state key with
      | .error error => .error error
      | .ok value =>
          match value tokens with
          | .error error => .error error
          | .ok ⟨state, .closeBrace :: rest, shorter⟩ =>
              .ok ⟨state, rest, by simp only [List.length_cons] at shorter ⊢; omega⟩
          | .ok ⟨state, .comma :: rest, shorter⟩ =>
              (members member state rest).map
                (·.within (by simp only [List.length_cons] at shorter ⊢; omega))
          | .ok _ => .error .malformed
  | _ => .error .malformed
termination_by tokens.length
decreasing_by
  simp only [List.length_cons] at shorter ⊢
  omega

def object (member : σ → String → Except DecodeError (Decoder σ)) (state : σ) : Decoder σ
  | .openBrace :: .closeBrace :: rest =>
      .ok ⟨state, rest, Nat.lt_of_succ_lt (Nat.lt_succ_self _)⟩
  | .openBrace :: rest => (members member state rest).map (·.within (Nat.le_succ _))
  | _ => .error .malformed

/-- The members of an object whose values are all of one type, in their order. -/
def pairs (value : Decoder α) : Decoder (List (String × α)) :=
  object (fun seen key => .ok (map (fun last => seen ++ [(key, last)]) value)) []

/-- A field of a record: how its value is stored in a record read so far. -/
structure Field (ρ : Type) where
  name : String
  required : Bool
  read : ρ → Decoder ρ

/-- A record read so far and the fields it has got. -/
structure Partial (ρ : Type) where
  record : ρ
  seen : List String

/-- The value of a known key is stored, unless the record has one; others are skipped. -/
def fieldMember (fields : List (Field ρ)) (state : Partial ρ) (key : String) :
    Except DecodeError (Decoder (Partial ρ)) :=
  match fields.find? fun field => field.name == key with
  | none => .ok (map (fun _ => state) skip)
  | some field =>
      if state.seen.contains key then .error .malformed
      else .ok (map (fun record => ⟨record, key :: state.seen⟩) (field.read state.record))

/-- The fields in order, after the opening bracket; those not required may be left out
at the end. -/
def positional : List (Field ρ) → ρ → Decoder ρ
  | [], _ => fun _ => .error .malformed
  | field :: fields, record => fun tokens =>
      match field.read record tokens with
      | .error error => .error error
      | .ok ⟨record, .closeBracket :: rest, shorter⟩ =>
          if fields.any Field.required then .error .malformed
          else .ok ⟨record, rest, Nat.lt_of_succ_lt shorter⟩
      | .ok ⟨record, .comma :: rest, shorter⟩ =>
          (positional fields record rest).map (·.within (Nat.le_of_lt (Nat.lt_of_succ_lt shorter)))
      | .ok _ => .error .malformed

def isComplete (fields : List (Field ρ)) (seen : List String) : Bool :=
  fields.all fun field => !field.required || seen.contains field.name

/-- A record, whose fields start out as in `initial`. -/
def record (fields : List (Field ρ)) (initial : ρ) : Decoder ρ
  | .openBracket :: .closeBracket :: rest =>
      if fields.any Field.required then .error .malformed
      else .ok ⟨initial, rest, Nat.lt_of_succ_lt (Nat.lt_succ_self _)⟩
  | .openBracket :: rest => (positional fields initial rest).map (·.within (Nat.le_succ _))
  | tokens =>
      match object (fieldMember fields) ⟨initial, []⟩ tokens with
      | .error error => .error error
      | .ok ⟨result, rest, shorter⟩ =>
          if isComplete fields result.seen then .ok ⟨result.record, rest, shorter⟩
          else .error .malformed

/-- Reads a whole text. -/
def decode (decoder : Decoder α) (text : String) : Except DecodeError α :=
  match decoder (JsonToken.scan text.toList) with
  | .error error => .error error
  | .ok ⟨value, [], _⟩ => .ok value
  | .ok _ => .error .malformed

end Json

end CodeTint
