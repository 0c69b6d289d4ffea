import CodeTint.Language.Basic
import CodeTint.Language.Builtin

/-!
# Language registries

A registry finds a compiled language by a hint: a name, an alias, an extension
or a file name. Of two languages registered under one key the later one is
found; a hint that finds none selects the merged default.
-/

namespace CodeTint

structure Registry where
  languages : List Language
  /-- Names and aliases, the last registered first. -/
  names : List (String × Language)
  /-- Extensions, the last registered first. -/
  extensions : List (String × Language)
  default : Language

namespace Registry

def withoutDots (text : String) : String :=
  String.ofList (text.toList.dropWhile (· == '.'))

def nameKeys (spec : Spec) : List String :=
  (spec.name :: spec.aliases).map Text.normalize

def extensionKeys (spec : Spec) : List String :=
  spec.extensions.map fun extension => Text.normalize (withoutDots extension)

/-- Every key of every description with its compiled language, the last first. -/
def index (keys : Spec → List String) (compiled : List (Spec × Language)) :
    List (String × Language) :=
  (compiled.flatMap fun entry => (keys entry.1).map fun key => (key, entry.2)).reverse

def ofSpecs (specs : List Spec) : Registry :=
  let compiled := specs.map fun spec => (spec, Language.ofSpec spec)
  { languages := compiled.map Prod.snd
    names := index nameKeys compiled
    extensions := index extensionKeys compiled
    default := Language.merged "default" specs }

def builtin : Registry :=
  ofSpecs Builtin.specs

/-- What follows the last character of the class, and everything if there is none. -/
def afterLast (isMember : Char → Bool) (text : List Char) : List Char :=
  (text.reverse.takeWhile (!isMember ·)).reverse

/-- The part of a file name after its last dot. -/
def extensionOf? (path : String) : Option String :=
  let fileName := afterLast (fun c => c == '/' || c == '\\') path.toList
  if fileName.contains '.' then some (String.ofList (afterLast (· == '.') fileName)) else none

/-- The language a hint names, unless the hint asks for the default. -/
def lookup? (registry : Registry) (hint : String) : Option Language :=
  let key := Text.normalize hint
  if key.isEmpty || key == "auto" then none
  else
    (registry.names.lookup key).or <|
      (registry.extensions.lookup key).or <|
        (extensionOf? key).bind fun extension => registry.extensions.lookup extension

/-- The language a hint names, or the merged default. -/
def resolve (registry : Registry) (hint : Option String) : Language :=
  (hint.bind registry.lookup?).getD registry.default

def languageNames (registry : Registry) : List String :=
  registry.languages.map Language.name

def size (registry : Registry) : Nat :=
  registry.languages.length

end Registry

end CodeTint
