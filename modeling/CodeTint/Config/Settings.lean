import CodeTint.Language.Spec

/-!
# Settings

Settings say what is known of a configuration: every field may be absent. Two
settings merge field by field, and what the second one says wins.
-/

namespace CodeTint

/-- Styles written for kind names, in the order of writing; a later one replaces
an earlier one of the same name. -/
structure Overrides where
  writes : List (String × String)
  deriving DecidableEq, Repr

namespace Overrides

/-- The style written last for a name. -/
def get? (overrides : Overrides) (name : String) : Option String :=
  overrides.writes.reverse.lookup name

/-- The writes of both, the second after the first. -/
def append (first second : Overrides) : Overrides :=
  ⟨first.writes ++ second.writes⟩

/-- Puts a style into a list that is sorted by name. -/
def insert (name style : String) : List (String × String) → List (String × String)
  | [] => [(name, style)]
  | entry :: rest =>
      if name < entry.1 then (name, style) :: entry :: rest
      else if name = entry.1 then (name, style) :: rest
      else entry :: insert name style rest

/-- Each name once with the style written last, sorted by the code points of the
names, which is the order of their bytes. -/
def entries (overrides : Overrides) : List (String × String) :=
  overrides.writes.foldl (fun sorted entry => insert entry.1 entry.2 sorted) []

end Overrides

structure Settings where
  /-- The settings file these add to. -/
  base : Option String := none
  language : Option String := none
  format : Option String := none
  classPrefix : Option String := none
  overrides : Option Overrides := none
  coalesce : Option Bool := none
  languages : Option (List Spec) := none
  deriving DecidableEq, Repr

namespace Settings

/-- What both say together, or what one of them says. -/
def combine {α : Type} (both : α → α → α) : Option α → Option α → Option α
  | some first, some second => some (both first second)
  | first, second => second.or first

/-- Adds `child` to `parent`, which stands for itself alone from then on. -/
def merge (parent child : Settings) : Settings where
  base := none
  language := child.language.or parent.language
  format := child.format.or parent.format
  classPrefix := child.classPrefix.or parent.classPrefix
  overrides := combine Overrides.append parent.overrides child.overrides
  coalesce := child.coalesce.or parent.coalesce
  languages := combine (· ++ ·) parent.languages child.languages

end Settings

end CodeTint
