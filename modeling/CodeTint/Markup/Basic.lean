import CodeTint.Markup.Ansi
import CodeTint.Markup.Html

/-!
# Output formats

A format says how a text is escaped and how a styled piece is decorated.
-/

namespace CodeTint

inductive Format
  | html
  | ansi
  | raw
  deriving DecidableEq, Repr

namespace Format

def name : Format → String
  | html => "html"
  | ansi => "ansi"
  | raw => "raw"

def escape : Format → Bytes → Bytes
  | html, text => Html.escape text
  | ansi, text => Ansi.escape text
  | raw, text => text

/-- Undoes `escape`. -/
def unescape : Format → Bytes → Bytes
  | html, escaped => Html.unescape escaped
  | ansi, escaped => Ansi.unescape escaped
  | raw, escaped => escaped

/-- What stands before a piece of this style. -/
def opening : Format → String → Bytes
  | html, style => Html.openTag style
  | ansi, style => Ansi.openSequence style
  | raw, _ => []

/-- What stands after a styled piece. -/
def closing : Format → Bytes
  | html => Html.closeTag
  | ansi => Ansi.reset
  | raw => []

/-- An escaped text with the decoration of a style. -/
def decorate (format : Format) (style : String) (content : Bytes) : Bytes :=
  format.opening style ++ content ++ format.closing

/-- A rendered text without its decoration. -/
def strip : Format → Bytes → Bytes
  | html, rendered => Html.stripTags rendered
  | ansi, rendered => Ansi.stripSgr rendered
  | raw, rendered => rendered

/-- The source of a rendered text. -/
def toSource (format : Format) (rendered : Bytes) : Bytes :=
  format.unescape (format.strip rendered)

end Format

end CodeTint
