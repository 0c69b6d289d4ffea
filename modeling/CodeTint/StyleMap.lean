import CodeTint.Kind
import CodeTint.Sgr

/-!
# Style maps

A style map gives some kinds a style: a class for HTML, SGR parameters for a
terminal. Kinds without a style are written without decoration.
-/

namespace CodeTint

structure StyleMap where
  get? : Kind → Option String

namespace StyleMap

def empty : StyleMap :=
  ⟨fun _ => none⟩

def remove (styles : StyleMap) (kind : Kind) : StyleMap :=
  ⟨fun other => if other = kind then none else styles.get? other⟩

/-- Gives a kind a style; the empty style takes it away. -/
def set (styles : StyleMap) (kind : Kind) (style : String) : StyleMap :=
  if style.isEmpty then styles.remove kind
  else ⟨fun other => if other = kind then some style else styles.get? other⟩

/-- Each pair is set in turn. -/
def ofList (entries : List (Kind × String)) : StyleMap :=
  entries.foldl (fun styles entry => styles.set entry.1 entry.2) empty

/-- The styled kinds with their styles, in the order of `Kind.all`. -/
def entries (styles : StyleMap) : List (Kind × String) :=
  Kind.all.filterMap fun kind => (styles.get? kind).map fun style => (kind, style)

def defaultClassPrefix : String := "kind-"

/-- A class for every kind but white space. -/
def htmlClasses (classPrefix : String) : StyleMap :=
  ofList ((Kind.all.filter (· ≠ .whitespace)).map fun kind => (kind, classPrefix ++ kind.name))

/-- Muted comments, green strings, magenta numbers, bold blue keywords, yellow operators. -/
def ansiPalette : StyleMap :=
  ofList [
    (.comment, Sgr.ofColor ⟨.black, true⟩ false),
    (.string, Sgr.ofColor ⟨.green, false⟩ false),
    (.number, Sgr.ofColor ⟨.magenta, false⟩ false),
    (.keyword, Sgr.ofColor ⟨.blue, false⟩ true),
    (.operator, Sgr.ofColor ⟨.yellow, false⟩ false)]

@[simp]
theorem get?_remove (styles : StyleMap) (kind other : Kind) :
    (styles.remove kind).get? other = if other = kind then none else styles.get? other := rfl

theorem get?_set (styles : StyleMap) (kind other : Kind) (style : String) :
    (styles.set kind style).get? other =
      if other = kind then (if style.isEmpty then none else some style) else styles.get? other := by
  unfold set
  split <;> simp_all

end StyleMap

end CodeTint
