import CodeTint.Config.Settings
import CodeTint.Json.Decoder
import CodeTint.Markup.Basic
import CodeTint.StyleMap

/-!
# Configurations

Settings are checked once and for all: the output format first, then the class
prefix, then the overrides in the order of their names. What is left is a
configuration in which every field has a value.
-/

namespace CodeTint

/-- What a highlighter returns. -/
inductive Output
  | tokens
  | annotated (format : Format)
  deriving DecidableEq, Repr

inductive ConfigError
  | unreadable (cause : DecodeError)
  | unknownFormat (text : String)
  | unknownKind (name : String)
  | invalidClassPrefix (text : String)
  | invalidAnsiStyle (kind : Kind) (style : String)
  deriving DecidableEq, Repr

namespace ConfigError

def message : ConfigError → String
  | unreadable .malformed => "invalid configuration JSON"
  | unreadable (.notBoolean text) =>
      "invalid configuration JSON: invalid boolean value: '" ++ text ++
        "'. Expected true, false, 'true', or 'false'"
  | unknownFormat text =>
      "unknown output format '" ++ text ++ "', expected one of: tokens, html, ansi, raw"
  | unknownKind name => "unknown token kind '" ++ name ++ "' in styleOverrides"
  | invalidClassPrefix text =>
      "invalid class prefix '" ++ text ++
        "': must not contain whitespace, quotes, '<', '>' or '&'"
  | invalidAnsiStyle kind style =>
      "invalid ANSI style '" ++ style ++ "' for " ++ kind.name ++
        ": expected a color name or SGR codes"

end ConfigError

namespace Output

def name : Output → String
  | tokens => "tokens"
  | annotated format => format.name

def format? : Output → Option Format
  | tokens => none
  | annotated format => some format

def parse (text : String) : Except ConfigError Output :=
  match Text.normalize text with
  | "tokens" => .ok tokens
  | "html" => .ok (annotated .html)
  | "ansi" => .ok (annotated .ansi)
  | "raw" => .ok (annotated .raw)
  | _ => .error (.unknownFormat text)

end Output

structure Config where
  /-- Without a hint the merged default language is used. -/
  language : Option String
  output : Output
  classPrefix : String
  styles : StyleMap
  coalesce : Bool
  languages : List Spec

namespace Config

/-- The hint a language setting gives; blank text and `auto` give none. -/
def languageHint? (text : String) : Option String :=
  let hint := Text.trim text
  if hint.isEmpty || Text.lower hint == "auto" then none else some hint

/-- A class prefix stands inside a quoted attribute. -/
def isClassPrefix (text : String) : Bool :=
  text.toList.all fun c => !(Unicode.isWhiteSpace c || ['"', '\'', '<', '>', '&'].contains c)

def checkClassPrefix (text : String) : Except ConfigError String :=
  if isClassPrefix text then .ok text else .error (.invalidClassPrefix text)

def defaultStyles (output : Output) (classPrefix : String) : StyleMap :=
  match output with
  | .annotated .ansi => .ansiPalette
  | _ => .htmlClasses classPrefix

/-- The style an override asks for; a blank one asks for none. -/
def overrideStyle (output : Output) (kind : Kind) (text : String) :
    Except ConfigError (Option String) :=
  let style := Text.trim text
  if style.isEmpty then .ok none
  else
    match output with
    | .annotated .ansi =>
        match Sgr.ofStyle? style with
        | some parameters => .ok (some parameters)
        | none => .error (.invalidAnsiStyle kind style)
    | _ => .ok (some style)

def applyOverride (output : Output) (styles : StyleMap) (entry : String × String) :
    Except ConfigError StyleMap :=
  match Kind.parse? entry.1 with
  | none => .error (.unknownKind entry.1)
  | some kind =>
      (overrideStyle output kind entry.2).map fun
        | some style => styles.set kind style
        | none => styles.remove kind

/-- The overrides one after another. -/
def applyOverrides (output : Output) (styles : StyleMap) :
    List (String × String) → Except ConfigError StyleMap
  | [] => .ok styles
  | entry :: rest =>
      match applyOverride output styles entry with
      | .ok styles => applyOverrides output styles rest
      | .error error => .error error

theorem applyOverrides_cons (output : Output) (styles : StyleMap) (entry : String × String)
    (rest : List (String × String)) :
    applyOverrides output styles (entry :: rest) =
      applyOverride output styles entry >>= fun next => applyOverrides output next rest := by
  conv => lhs; unfold applyOverrides
  cases applyOverride output styles entry with
  | error error => rfl
  | ok next => rfl

/-- Checks settings; the first fault is reported. -/
def ofSettings (settings : Settings) : Except ConfigError Config := do
  let output ← (settings.format.map Output.parse).getD (.ok (.annotated .html))
  let classPrefix ←
    (settings.classPrefix.map checkClassPrefix).getD (.ok StyleMap.defaultClassPrefix)
  let overrides := (settings.overrides.map Overrides.entries).getD []
  let styles ← applyOverrides output (defaultStyles output classPrefix) overrides
  return {
    language := settings.language.bind languageHint?
    output
    classPrefix
    styles
    coalesce := settings.coalesce.getD true
    languages := settings.languages.getD [] }

end Config

end CodeTint
