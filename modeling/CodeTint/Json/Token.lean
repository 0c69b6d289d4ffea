/-!
# JSON tokens

A JSON text is a sequence of structural characters, strings, numbers and literal
names between blanks. `scan` reads them all; where no token can be read it ends
with `broken`, so whoever reads the tokens in order meets the first fault of the
text in its place.
-/

namespace CodeTint

inductive JsonToken
  | openBrace
  | closeBrace
  | openBracket
  | closeBracket
  | colon
  | comma
  /-- A string; without a value if its escapes leave a surrogate alone. -/
  | string (value : Option String)
  /-- A number; with a value if it is written in digits alone. -/
  | number (value : Option Nat)
  | truth (value : Bool)
  | null
  | broken
  deriving DecidableEq, Repr

namespace JsonToken

/-- A part of a string: a character, or a code unit written in hexadecimal. -/
inductive Part
  | char (c : Char)
  | unit (code : Nat)

def hexDigit? (c : Char) : Option Nat :=
  if '0' ≤ c ∧ c ≤ '9' then some (c.toNat - '0'.toNat)
  else if 'a' ≤ c ∧ c ≤ 'f' then some (c.toNat - 'a'.toNat + 10)
  else if 'A' ≤ c ∧ c ≤ 'F' then some (c.toNat - 'A'.toNat + 10)
  else none

def hexCode? (a b c d : Char) : Option Nat :=
  match hexDigit? a, hexDigit? b, hexDigit? c, hexDigit? d with
  | some a, some b, some c, some d => some (((a * 16 + b) * 16 + c) * 16 + d)
  | _, _, _, _ => none

/-- The character a backslash and this letter stand for. -/
def escaped? : Char → Option Char
  | '"' => some '"'
  | '\\' => some '\\'
  | '/' => some '/'
  | 'b' => some '\x08'
  | 'f' => some '\x0c'
  | 'n' => some '\n'
  | 'r' => some '\r'
  | 't' => some '\t'
  | _ => none

/-- The parts of a string up to its closing quote, and what follows it. -/
def stringParts? : List Char → Option (List Part × List Char)
  | [] => none
  | '"' :: rest => some ([], rest)
  | '\\' :: 'u' :: a :: b :: c :: d :: rest =>
      match hexCode? a b c d, stringParts? rest with
      | some code, some (parts, after) => some (.unit code :: parts, after)
      | _, _ => none
  | '\\' :: letter :: rest =>
      match escaped? letter, stringParts? rest with
      | some c, some (parts, after) => some (.char c :: parts, after)
      | _, _ => none
  | c :: rest =>
      if c == '\\' || c.toNat < 0x20 then none
      else (stringParts? rest).map fun (parts, after) => (.char c :: parts, after)

def isHighSurrogate (code : Nat) : Bool :=
  0xD800 ≤ code && code < 0xDC00

def isLowSurrogate (code : Nat) : Bool :=
  0xDC00 ≤ code && code < 0xE000

/-- The characters of the parts, if every surrogate is one of a pair. -/
def joinParts? : List Part → Option (List Char)
  | [] => some []
  | .char c :: rest => (joinParts? rest).map (c :: ·)
  | .unit code :: rest =>
      if isHighSurrogate code then
        match rest with
        | .unit low :: more =>
            if isLowSurrogate low then
              let c := Char.ofNat (0x10000 + (code - 0xD800) * 0x400 + (low - 0xDC00))
              (joinParts? more).map (c :: ·)
            else none
        | _ => none
      else if isLowSurrogate code then none
      else (joinParts? rest).map (Char.ofNat code :: ·)

/-- The value of a list of decimal digits. -/
def decimal (digits : List Char) : Nat :=
  digits.foldl (fun value c => value * 10 + (c.toNat - '0'.toNat)) 0

/-- One digit or more at the front, and what follows them. -/
def digits? (text : List Char) : Option (List Char × List Char) :=
  match text.takeWhile Char.isDigit with
  | [] => none
  | digits => some (digits, text.dropWhile Char.isDigit)

/-- The whole part of a number, in which a zero stands alone. -/
def whole? : List Char → Option (Nat × List Char)
  | '0' :: rest => some (0, rest)
  | text => (digits? text).map fun (digits, rest) => (decimal digits, rest)

/-- What follows the fraction, and whether there is one. -/
def fraction? : List Char → Option (Bool × List Char)
  | '.' :: rest => (digits? rest).map fun (_, after) => (true, after)
  | text => some (false, text)

def withoutSign : List Char → List Char
  | '+' :: rest => rest
  | '-' :: rest => rest
  | text => text

/-- What follows the exponent, and whether there is one. -/
def exponent? : List Char → Option (Bool × List Char)
  | 'e' :: rest => (digits? (withoutSign rest)).map fun (_, after) => (true, after)
  | 'E' :: rest => (digits? (withoutSign rest)).map fun (_, after) => (true, after)
  | text => some (false, text)

/-- A number without its sign. -/
def unsigned? (text : List Char) : Option (Option Nat × List Char) :=
  match whole? text with
  | none => none
  | some (value, text) =>
      match fraction? text with
      | none => none
      | some (hasFraction, text) =>
          (exponent? text).map fun (hasExponent, rest) =>
            (if hasFraction || hasExponent then none else some value, rest)

def structural? : Char → Option JsonToken
  | '\x7b' => some openBrace
  | '\x7d' => some closeBrace
  | '[' => some openBracket
  | ']' => some closeBracket
  | ':' => some colon
  | ',' => some comma
  | _ => none

/-- The token that starts with `c`, and what follows it. -/
def front? (c : Char) (rest : List Char) : Option (JsonToken × List Char) :=
  match structural? c with
  | some token => some (token, rest)
  | none =>
      if c == '"' then
        (stringParts? rest).map fun (parts, after) =>
          (string ((joinParts? parts).map String.ofList), after)
      else if c == '-' then (unsigned? rest).map fun (_, after) => (number none, after)
      else if c.isDigit then (unsigned? (c :: rest)).map fun (value, after) => (number value, after)
      else if "true".toList.isPrefixOf (c :: rest) then some (truth true, rest.drop 3)
      else if "false".toList.isPrefixOf (c :: rest) then some (truth false, rest.drop 4)
      else if "null".toList.isPrefixOf (c :: rest) then some (null, rest.drop 3)
      else none

theorem stringParts?_length {text after : List Char} {parts : List Part}
    (found : stringParts? text = some (parts, after)) : after.length < text.length := by
  fun_induction stringParts? text generalizing parts with
  | case1 => cases found
  | case2 rest => cases found; simp
  | case3 a b c d rest code parts' after' inner _ ih =>
      cases found
      have shorter := ih inner
      simp only [List.length_cons]
      omega
  | case4 => cases found
  | case5 letter rest _ c parts' after' inner _ ih =>
      cases found
      have shorter := ih inner
      simp only [List.length_cons]
      omega
  | case6 => cases found
  | case7 => cases found
  | case8 c rest _ _ _ _ ih =>
      obtain ⟨⟨parts', after'⟩, inner, same⟩ := Option.map_eq_some_iff.mp found
      cases same
      have shorter := ih inner
      simp only [List.length_cons]
      omega

theorem digits?_length {text digits after : List Char}
    (found : digits? text = some (digits, after)) : after.length < text.length := by
  unfold digits? at found
  split at found
  · cases found
  · rename_i some_digit
    cases found
    have whole := congrArg List.length (List.takeWhile_append_dropWhile (p := Char.isDigit) (l := text))
    rw [List.length_append] at whole
    have positive : 0 < (text.takeWhile Char.isDigit).length :=
      List.length_pos_iff.mpr some_digit
    omega

theorem whole?_length {text after : List Char} {value : Nat}
    (found : whole? text = some (value, after)) : after.length < text.length := by
  unfold whole? at found
  split at found
  · cases found
    simp
  · obtain ⟨⟨digits, rest⟩, inner, same⟩ := Option.map_eq_some_iff.mp found
    cases same
    exact digits?_length inner

theorem fraction?_length {text after : List Char} {present : Bool}
    (found : fraction? text = some (present, after)) : after.length ≤ text.length := by
  unfold fraction? at found
  split at found
  · obtain ⟨⟨digits, rest⟩, inner, same⟩ := Option.map_eq_some_iff.mp found
    cases same
    have shorter := digits?_length inner
    simp only [List.length_cons]
    omega
  · cases found
    exact Nat.le_refl _

theorem withoutSign_length (text : List Char) : (withoutSign text).length ≤ text.length := by
  unfold withoutSign
  split <;> simp

theorem exponent?_length {text after : List Char} {present : Bool}
    (found : exponent? text = some (present, after)) : after.length ≤ text.length := by
  unfold exponent? at found
  split at found
  · rename_i rest
    obtain ⟨⟨digits, rest'⟩, inner, same⟩ := Option.map_eq_some_iff.mp found
    cases same
    have shorter := digits?_length inner
    have signed := withoutSign_length rest
    simp only [List.length_cons]
    omega
  · rename_i rest
    obtain ⟨⟨digits, rest'⟩, inner, same⟩ := Option.map_eq_some_iff.mp found
    cases same
    have shorter := digits?_length inner
    have signed := withoutSign_length rest
    simp only [List.length_cons]
    omega
  · cases found
    exact Nat.le_refl _

theorem unsigned?_length {text after : List Char} {value : Option Nat}
    (found : unsigned? text = some (value, after)) : after.length < text.length := by
  unfold unsigned? at found
  split at found
  · cases found
  · rename_i whole
    split at found
    · cases found
    · rename_i fraction
      obtain ⟨⟨present, rest⟩, exponent, same⟩ := Option.map_eq_some_iff.mp found
      cases same
      have first := whole?_length whole
      have second := fraction?_length fraction
      have third := exponent?_length exponent
      omega

theorem front?_length {c : Char} {rest after : List Char} {token : JsonToken}
    (found : front? c rest = some (token, after)) : after.length ≤ rest.length := by
  unfold front? at found
  split at found
  · cases found
    exact Nat.le_refl _
  · split at found
    · obtain ⟨⟨parts, after'⟩, inner, same⟩ := Option.map_eq_some_iff.mp found
      cases same
      exact Nat.le_of_lt (stringParts?_length inner)
    · split at found
      · obtain ⟨⟨value, after'⟩, inner, same⟩ := Option.map_eq_some_iff.mp found
        cases same
        exact Nat.le_of_lt (unsigned?_length inner)
      · split at found
        · obtain ⟨⟨value, after'⟩, inner, same⟩ := Option.map_eq_some_iff.mp found
          cases same
          exact Nat.le_of_lt_succ (unsigned?_length inner)
        · split at found
          · cases found
            simp
          · split at found
            · cases found
              simp
            · split at found
              · cases found
                simp
              · cases found

def isBlank (c : Char) : Bool :=
  c == ' ' || c == '\t' || c == '\n' || c == '\r'

/-- Every token of a text, up to the first place where there is none. -/
def scan (text : List Char) : List JsonToken :=
  match text with
  | [] => []
  | c :: rest =>
      if isBlank c then scan rest
      else
        match _ : front? c rest with
        | some (token, after) => token :: scan after
        | none => [.broken]
termination_by text.length
decreasing_by
  · simp
  · exact Nat.lt_succ_of_le (front?_length (by assumption))

end JsonToken

end CodeTint
