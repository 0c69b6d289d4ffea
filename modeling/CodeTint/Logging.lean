import CodeTint.Text

/-!
# Logging options

Logging is asked for by a filter. A bare level in the highlighter's own variable
is limited to the highlighter; the general variable is used as it stands.
-/

namespace CodeTint

inductive LogFormat
  | text
  | tree
  | json
  deriving DecidableEq, Repr

namespace LogFormat

def name : LogFormat → String
  | text => "text"
  | tree => "tree"
  | json => "json"

/-- Any word that is not known means plain text. -/
def parse (value : String) : LogFormat :=
  match Text.normalize value with
  | "tree" => tree
  | "json" => json
  | _ => text

end LogFormat

structure LogOptions where
  directives : String
  format : LogFormat
  deriving DecidableEq, Repr

namespace LogOptions

/-- The name under which the highlighter logs. -/
def target : String := "syntaxhighlight"

def levels : List String :=
  ["trace", "debug", "info", "warn", "error", "off"]

/-- Limits a bare level to the highlighter; anything else is kept. -/
def limited (value : String) : String :=
  let value := Text.trim value
  if levels.contains (Text.lower value) then target ++ "=" ++ Text.lower value else value

/-- The options the variables ask for, if any asks for logging. -/
def ofVariables? (own general format : Option String) : Option LogOptions :=
  ((own.map limited).or (general.map Text.trim)).map fun directives =>
    ⟨directives, (format.map LogFormat.parse).getD .text⟩

end LogOptions

end CodeTint
