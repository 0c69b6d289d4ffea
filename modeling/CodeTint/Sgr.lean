import CodeTint.Text

/-!
# Colours and SGR parameters

A terminal style is written either as raw SGR parameters or in words: modifiers
in any place, and around them the words of at most one colour name.
-/

namespace CodeTint

inductive Hue
  | black
  | red
  | green
  | yellow
  | blue
  | magenta
  | cyan
  | white
  deriving DecidableEq, Repr

structure Color where
  hue : Hue
  bright : Bool := false
  deriving DecidableEq, Repr

namespace Color

def hues : List (String × Hue) :=
  [("black", .black), ("red", .red), ("green", .green), ("yellow", .yellow), ("blue", .blue),
    ("magenta", .magenta), ("cyan", .cyan), ("white", .white)]

/-- Every colour name; `purple` is another name of `magenta`. -/
def names : List (String × Color) :=
  hues.map (fun entry => (entry.1, ⟨entry.2, false⟩)) ++
    ("purple", ⟨.magenta, false⟩) ::
    hues.map (fun entry => ("bright " ++ entry.1, ⟨entry.2, true⟩))

/-- Lower case as far as colour names are concerned: besides the ASCII capitals
only the Kelvin sign becomes an ASCII letter. -/
def lowerChar (c : Char) : Char :=
  if c == '\u212A' then 'k' else c.toLower

def ofName? (name : String) : Option Color :=
  names.lookup (String.ofList (name.toList.map lowerChar))

/-- The SGR parameter that selects the colour of the text. -/
def parameter : Color → String
  | ⟨.black, false⟩ => "30"
  | ⟨.red, false⟩ => "31"
  | ⟨.green, false⟩ => "32"
  | ⟨.yellow, false⟩ => "33"
  | ⟨.blue, false⟩ => "34"
  | ⟨.magenta, false⟩ => "35"
  | ⟨.cyan, false⟩ => "36"
  | ⟨.white, false⟩ => "37"
  | ⟨.black, true⟩ => "90"
  | ⟨.red, true⟩ => "91"
  | ⟨.green, true⟩ => "92"
  | ⟨.yellow, true⟩ => "93"
  | ⟨.blue, true⟩ => "94"
  | ⟨.magenta, true⟩ => "95"
  | ⟨.cyan, true⟩ => "96"
  | ⟨.white, true⟩ => "97"

end Color

namespace Sgr

/-- The parameters of a colour, in bold if asked for. -/
def ofColor (color : Color) (bold : Bool) : String :=
  if bold then color.parameter ++ ";1" else color.parameter

def modifier? : String → Option String
  | "bold" => some "1"
  | "dim" | "dimmed" => some "2"
  | "italic" => some "3"
  | "underline" => some "4"
  | "reverse" | "reversed" => some "7"
  | _ => none

/-- The text is a list of parameters already. -/
def isRaw (style : String) : Bool :=
  style.toList.all fun c => c.isDigit || c == ';'

/-- The parameters of a list of words, the colour before the modifiers. -/
def ofWords? (words : List String) : Option String :=
  let modifiers := words.filterMap modifier?
  match words.filter fun word => (modifier? word).isNone with
  | [] => some (";".intercalate modifiers)
  | colorWords =>
      (Color.ofName? (" ".intercalate colorWords)).map fun color =>
        ";".intercalate (color.parameter :: modifiers)

/-- The SGR parameters of a style, unless it cannot be understood. -/
def ofStyle? (style : String) : Option String :=
  let style := Text.trim style
  if style.isEmpty then none
  else if isRaw style then some style
  else ofWords? (Text.words (Text.lower style))

end Sgr

end CodeTint
