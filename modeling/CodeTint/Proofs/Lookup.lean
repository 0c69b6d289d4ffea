import CodeTint.Language.Registry
import Mathlib.Data.List.DropRight
import Mathlib.Data.List.Induction
import Mathlib.Logic.Function.Basic

/-!
# Lookups

A hint is looked up as a name, then as an extension, then by the extension of
the file it may be the path of. At each step the last description with the key
answers. A directory that is filled by overwriting and holds places in the list
of languages gives the same answers.
-/

namespace CodeTint

/-! ## File extensions -/

/-- The text ends in a part without members of the class, which starts the text or follows a
member. -/
structure LastPart (isMember : Char → Bool) (text front part : List Char) : Prop where
  whole : text = front ++ part
  free : ∀ c ∈ part, isMember c = false
  bounded : front = [] ∨ ∃ before c, front = before ++ [c] ∧ isMember c = true

namespace Registry

def isSeparator (c : Char) : Bool :=
  c == '/' || c == '\\'

theorem exists_lastPart (isMember : Char → Bool) (text : List Char) :
    ∃ front, LastPart isMember text front (afterLast isMember text) := by
  refine ⟨text.rdropWhile (!isMember ·), List.rdropWhile_append_rtakeWhile.symm, ?_, ?_⟩
  · intro c member
    simpa using List.mem_rtakeWhile_imp member
  · refine (List.eq_nil_or_concat' _).imp_right ?_
    rintro ⟨before, c, split⟩
    have filled : text.rdropWhile (!isMember ·) ≠ [] := by simp [split]
    have stops := List.rdropWhile_last_not _ text filled
    simp only [split, List.getLast_append_singleton] at stops
    exact ⟨before, c, split, by simpa using stops⟩

theorem afterLast_eq {isMember : Char → Bool} {text front part : List Char}
    (last : LastPart isMember text front part) : afterLast isMember text = part := by
  have kept : ∀ c ∈ part.reverse, (!isMember c) = true := by
    intro c member
    rw [last.free c (List.mem_reverse.mp member)]
    rfl
  have stops : front.reverse.takeWhile (!isMember ·) = [] := by
    obtain rfl | ⟨before, c, rfl, member⟩ := last.bounded
    · rfl
    · simp [member]
  rw [afterLast, last.whole, List.reverse_append, List.takeWhile_append_of_pos kept, stops, List.append_nil,
    List.reverse_reverse]

end Registry

/-- The last component of the path has a dot, and this is what follows the last one. -/
def FileExtension (path extension : String) : Prop :=
  ∃ directory stem, '.' ∉ extension.toList ∧
    LastPart Registry.isSeparator path.toList directory (stem ++ '.' :: extension.toList)

namespace Registry

theorem extensionOf?_eq (path : String) :
    extensionOf? path =
      if (afterLast isSeparator path.toList).contains '.' then
        some (String.ofList (afterLast (· == '.') (afterLast isSeparator path.toList)))
      else none :=
  rfl

theorem extensionOf?_eq_some_iff {path extension : String} :
    extensionOf? path = some extension ↔ FileExtension path extension := by
  rw [extensionOf?_eq]
  constructor
  · intro found
    obtain ⟨directory, component⟩ := exists_lastPart isSeparator path.toList
    obtain ⟨front, last⟩ := exists_lastPart (· == '.') (afterLast isSeparator path.toList)
    obtain ⟨dotted, same⟩ := Option.ite_none_right_eq_some.mp found
    rw [← String.toList_ofList (l := afterLast (· == '.') _), Option.some.inj same] at last
    have free : '.' ∉ extension.toList := fun member => absurd (last.free '.' member) (by decide)
    obtain rfl | ⟨stem, c, rfl, dot⟩ := last.bounded
    -- The component has a dot, so what follows the last one is not all of it.
    · rw [List.contains_iff_mem, last.whole] at dotted
      exact absurd dotted free
    · have whole := last.whole
      rw [eq_of_beq dot, List.append_assoc] at whole
      rw [whole] at component
      exact ⟨directory, stem, free, component⟩
  · rintro ⟨directory, stem, free, component⟩
    have last : LastPart (· == '.') (stem ++ '.' :: extension.toList) (stem ++ ['.']) extension.toList := by
      refine ⟨by simp, fun c member => ?_, .inr ⟨stem, '.', rfl, rfl⟩⟩
      exact beq_false_of_ne fun dot => free (dot ▸ member)
    rw [afterLast_eq component, afterLast_eq last, String.ofList_toList]
    simp

end Registry

instance (path extension : String) : Decidable (FileExtension path extension) :=
  decidable_of_iff _ Registry.extensionOf?_eq_some_iff

/-! ## The last entry -/

/-- The entry stands at this place, and no later one has the property. -/
structure IsLast {α : Type} (Has : α → Prop) (entries : List α) (place : Nat) (entry : α) : Prop where
  here : entries[place]? = some entry
  has : Has entry
  last : ∀ later other, place < later → entries[later]? = some other → ¬Has other

section Last

variable {α : Type} {Has : α → Prop} {entries more : List α} {place : Nat} {entry added : α}

theorem IsLast.mem (last : IsLast Has entries place entry) : entry ∈ entries :=
  List.mem_of_getElem? last.here

/-- Entries without the property at the end do not matter. -/
theorem isLast_append (without : ∀ other ∈ more, ¬Has other) :
    IsLast Has (entries ++ more) place entry ↔ IsLast Has entries place entry := by
  -- Whatever has the property stands in the first part, at the same place.
  have within : ∀ {at' : Nat} {other : α}, Has other → (entries ++ more)[at']? = some other →
      entries[at']? = some other := by
    intro at' other has here
    rw [List.getElem?_append] at here
    split at here
    · exact here
    · exact absurd has (without other (List.mem_of_getElem? here))
  constructor
  · intro last
    refine ⟨within last.has last.here, last.has, fun later other after here => ?_⟩
    refine last.last later other after ?_
    rw [List.getElem?_append_left (List.getElem?_eq_some_iff.mp here).1, here]
  · intro last
    refine ⟨?_, last.has, fun later other after here has => ?_⟩
    · rw [List.getElem?_append_left (List.getElem?_eq_some_iff.mp last.here).1, last.here]
    · exact last.last later other after (within has here) has

/-- An entry with the property at the end is the last. -/
theorem isLast_concat (has : Has added) :
    IsLast Has (entries ++ [added]) place entry ↔ place = entries.length ∧ entry = added := by
  constructor
  · intro last
    have bound := (List.getElem?_eq_some_iff.mp last.here).1
    rw [List.length_append, List.length_singleton] at bound
    have atEnd : place = entries.length := by
      refine Nat.le_antisymm (Nat.le_of_lt_succ bound) (Nat.le_of_not_lt fun before => ?_)
      exact last.last entries.length added before List.getElem?_concat_length has
    have here := last.here
    rw [atEnd, List.getElem?_concat_length] at here
    exact ⟨atEnd, (Option.some.inj here).symm⟩
  · rintro ⟨rfl, rfl⟩
    refine ⟨List.getElem?_concat_length, has, fun later other after here => ?_⟩
    have bound := (List.getElem?_eq_some_iff.mp here).1
    rw [List.length_append, List.length_singleton] at bound
    omega

theorem exists_isLast (present : ∃ entry ∈ entries, Has entry) :
    ∃ place entry, IsLast Has entries place entry := by
  induction entries using List.reverseRecOn with
  | nil =>
      obtain ⟨_, member, _⟩ := present
      cases member
  | append_singleton entries added ih =>
      by_cases has : Has added
      · exact ⟨entries.length, added, (isLast_concat has).mpr ⟨rfl, rfl⟩⟩
      · have without : ∀ other ∈ [added], ¬Has other := List.forall_mem_singleton.mpr has
        obtain ⟨entry, member, has'⟩ := present
        obtain earlier | atEnd := List.mem_append.mp member
        · obtain ⟨place, entry', last⟩ := ih ⟨entry, earlier, has'⟩
          exact ⟨place, entry', (isLast_append without).mpr last⟩
        · exact absurd has' (without entry atEnd)

end Last

/-! ## Tables of keys -/

section Tables

variable {β : Type} {Has : String → Spec → Prop} {result : Nat → Spec → β} {table table' : String → Option β}
  {specs added : List Spec} {spec : Spec} {key : String}

/-- Under every key the table holds the result of the last description that has it. -/
def Answers (Has : String → Spec → Prop) (result : Nat → Spec → β) (specs : List Spec)
    (table : String → Option β) : Prop :=
  ∀ key answer, table key = some answer ↔
    ∃ place spec, IsLast (Has key) specs place spec ∧ result place spec = answer

namespace Answers

theorem empty : Answers Has result [] fun _ => none := by
  intro key answer
  constructor
  · nofun
  · rintro ⟨place, spec, last, _⟩
    cases last.mem

/-- One more description takes over its keys and leaves the others. -/
theorem concat (answers : Answers Has result specs table)
    (takes : ∀ key, Has key spec → table' key = some (result specs.length spec))
    (leaves : ∀ key, ¬Has key spec → table' key = table key) :
    Answers Has result (specs ++ [spec]) table' := by
  intro key answer
  by_cases has : Has key spec
  · rw [takes key has, Option.some.injEq]
    constructor
    · intro same
      exact ⟨specs.length, spec, (isLast_concat has).mpr ⟨rfl, rfl⟩, same⟩
    · rintro ⟨place, other, last, same⟩
      obtain ⟨rfl, rfl⟩ := (isLast_concat has).mp last
      exact same
  · have without : ∀ other ∈ [spec], ¬Has key other := List.forall_mem_singleton.mpr has
    rw [leaves key has, answers]
    simp only [isLast_append without]

theorem eq_none_iff (answers : Answers Has result specs table) :
    table key = none ↔ ∀ spec ∈ specs, ¬Has key spec := by
  rw [Option.eq_none_iff_forall_ne_some]
  constructor
  · intro unanswered spec member has
    obtain ⟨place, other, last⟩ := exists_isLast ⟨spec, member, has⟩
    exact unanswered _ ((answers key _).mpr ⟨place, other, last, rfl⟩)
  · intro without answer found
    obtain ⟨place, spec, last, _⟩ := (answers key answer).mp found
    exact without spec last.mem last.has

/-- Descriptions without the key at the end leave the answer. -/
theorem append_eq (answers : Answers Has result specs table)
    (answers' : Answers Has result (specs ++ added) table') (without : ∀ spec ∈ added, ¬Has key spec) :
    table' key = table key := by
  refine Option.ext fun answer => ?_
  rw [answers, answers']
  simp only [isLast_append without]

end Answers

end Tables

namespace Spec

def Named (key : String) (spec : Spec) : Prop :=
  ∃ name ∈ spec.name :: spec.aliases, Text.normalize name = key

def HasExtension (key : String) (spec : Spec) : Prop :=
  ∃ extension ∈ spec.extensions, Text.normalize (Registry.withoutDots extension) = key

instance (key : String) (spec : Spec) : Decidable (spec.Named key) :=
  inferInstanceAs (Decidable (∃ name ∈ spec.name :: spec.aliases, Text.normalize name = key))

instance (key : String) (spec : Spec) : Decidable (spec.HasExtension key) :=
  inferInstanceAs (Decidable (∃ extension ∈ spec.extensions, Text.normalize (Registry.withoutDots extension) = key))

/-- The description has one of the keys under which the hint is looked up. -/
def Fits (key : String) (spec : Spec) : Prop :=
  spec.Named key ∨ spec.HasExtension key ∨ ∃ extension, FileExtension key extension ∧ spec.HasExtension extension

end Spec

/-- The description that a hint in normal form finds, and its place. -/
inductive Finds (specs : List Spec) (key : String) (place : Nat) (spec : Spec) : Prop where
  | name (named : IsLast (Spec.Named key) specs place spec)
  | extension (unnamed : ∀ other ∈ specs, ¬other.Named key)
      (extended : IsLast (Spec.HasExtension key) specs place spec)
  | fileName (unnamed : ∀ other ∈ specs, ¬other.Named key) (unextended : ∀ other ∈ specs, ¬other.HasExtension key)
      (extension : String) (path : FileExtension key extension)
      (extended : IsLast (Spec.HasExtension extension) specs place spec)

namespace Registry

theorem mem_nameKeys (key : String) (spec : Spec) : key ∈ nameKeys spec ↔ spec.Named key :=
  List.mem_map

theorem mem_extensionKeys (key : String) (spec : Spec) : key ∈ extensionKeys spec ↔ spec.HasExtension key :=
  List.mem_map

/-- The three steps of a lookup. -/
def stages {β : Type} (names extensions : String → Option β) (key : String) : Option β :=
  (names key).or ((extensions key).or ((extensionOf? key).bind extensions))

section Stages

variable {β : Type} {result : Nat → Spec → β} {names extensions names' extensions' : String → Option β}
  {specs added : List Spec}

theorem stages_eq_some_iff (named : Answers Spec.Named result specs names)
    (extended : Answers Spec.HasExtension result specs extensions) {key : String} {answer : β} :
    stages names extensions key = some answer ↔
      ∃ place spec, Finds specs key place spec ∧ result place spec = answer := by
  rw [stages, Option.or_eq_some_iff, Option.or_eq_some_iff, Option.bind_eq_some_iff, named, extended,
    named.eq_none_iff, extended.eq_none_iff]
  simp only [extended _ _, extensionOf?_eq_some_iff]
  constructor
  · rintro (⟨place, spec, last, same⟩ | ⟨unnamed, ⟨place, spec, last, same⟩ |
      ⟨unextended, extension, path, place, spec, last, same⟩⟩)
    · exact ⟨place, spec, .name last, same⟩
    · exact ⟨place, spec, .extension unnamed last, same⟩
    · exact ⟨place, spec, .fileName unnamed unextended extension path last, same⟩
  · rintro ⟨place, spec, finds, same⟩
    cases finds with
    | name last => exact .inl ⟨place, spec, last, same⟩
    | extension unnamed last => exact .inr ⟨unnamed, .inl ⟨place, spec, last, same⟩⟩
    | fileName unnamed unextended extension path last =>
        exact .inr ⟨unnamed, .inr ⟨unextended, extension, path, place, spec, last, same⟩⟩

theorem stages_eq_none_iff (named : Answers Spec.Named result specs names)
    (extended : Answers Spec.HasExtension result specs extensions) {key : String} :
    stages names extensions key = none ↔ ∀ spec ∈ specs, ¬spec.Fits key := by
  rw [stages, Option.or_eq_none_iff, Option.or_eq_none_iff, Option.bind_eq_none_iff, named.eq_none_iff,
    extended.eq_none_iff]
  simp only [extended.eq_none_iff, extensionOf?_eq_some_iff]
  constructor
  · rintro ⟨unnamed, unextended, pathless⟩ spec member (named | extended | ⟨extension, path, extended⟩)
    · exact unnamed spec member named
    · exact unextended spec member extended
    · exact pathless extension path spec member extended
  · intro unfit
    refine ⟨fun spec member named => unfit spec member (.inl named),
      fun spec member extended => unfit spec member (.inr (.inl extended)), ?_⟩
    intro extension path spec member extended
    exact unfit spec member (.inr (.inr ⟨extension, path, extended⟩))

theorem stages_append (named : Answers Spec.Named result specs names)
    (extended : Answers Spec.HasExtension result specs extensions)
    (named' : Answers Spec.Named result (specs ++ added) names')
    (extended' : Answers Spec.HasExtension result (specs ++ added) extensions') {key : String}
    (unfit : ∀ spec ∈ added, ¬spec.Fits key) : stages names' extensions' key = stages names extensions key := by
  have atName : names' key = names key :=
    named.append_eq named' fun spec member named => unfit spec member (.inl named)
  have atExtension : extensions' key = extensions key :=
    extended.append_eq extended' fun spec member extended => unfit spec member (.inr (.inl extended))
  rw [stages, stages, atName, atExtension]
  cases found : extensionOf? key with
  | none => rfl
  | some extension =>
      have path := extensionOf?_eq_some_iff.mp found
      have atPath : extensions' extension = extensions extension :=
        extended.append_eq extended' fun spec member extended =>
          unfit spec member (.inr (.inr ⟨extension, path, extended⟩))
      rw [Option.bind_some, Option.bind_some, atPath]

end Stages

/-! ## The registry -/

theorem lookup_map_pair {keys : List String} {key : String} (language : Language) (member : key ∈ keys) :
    (keys.map fun key => (key, language)).lookup key = some language := by
  induction keys with
  | nil => cases member
  | cons first rest ih =>
      rw [List.map_cons, List.lookup_cons]
      obtain rfl | later := List.mem_cons.mp member
      · simp
      · split
        · rfl
        · exact ih later

theorem lookup_index_concat (keys : Spec → List String) (compiled : List (Spec × Language))
    (entry : Spec × Language) (key : String) :
    (index keys (compiled ++ [entry])).lookup key =
      if key ∈ keys entry.1 then some entry.2 else (index keys compiled).lookup key := by
  have split : index keys (compiled ++ [entry]) =
      ((keys entry.1).reverse.map fun key => (key, entry.2)) ++ index keys compiled := by
    simp [index]
  rw [split, List.lookup_append]
  split
  · rw [lookup_map_pair entry.2 (List.mem_reverse.mpr ‹_›), Option.some_or]
  · have unlisted : ((keys entry.1).reverse.map fun key => (key, entry.2)).lookup key = none := by
      rw [List.lookup_eq_none_iff]
      grind
    rw [unlisted, Option.none_or]

theorem answers_index {keys : Spec → List String} {Has : String → Spec → Prop}
    (listed : ∀ key spec, key ∈ keys spec ↔ Has key spec) (specs : List Spec) :
    Answers Has (fun _ => Language.ofSpec) specs fun key =>
      (index keys (specs.map fun spec => (spec, Language.ofSpec spec))).lookup key := by
  induction specs using List.reverseRecOn with
  | nil => exact .empty
  | append_singleton specs spec ih =>
      simp only [List.map_append, List.map_singleton, lookup_index_concat]
      refine ih.concat (fun key has => ?_) (fun key lacks => ?_)
      · exact if_pos ((listed key spec).mpr has)
      · exact if_neg (mt (listed key spec).mp lacks)

theorem lookup?_eq (registry : Registry) (hint : String) :
    registry.lookup? hint =
      if (Text.normalize hint).isEmpty || Text.normalize hint == "auto" then none
      else stages (fun key => registry.names.lookup key) (fun key => registry.extensions.lookup key)
        (Text.normalize hint) :=
  rfl

end Registry

/-! ## Directories -/

/-- Languages in the order of their descriptions, with the places of the names and the extensions. -/
structure Directory where
  languages : List Language
  names : String → Option Nat
  extensions : String → Option Nat

namespace Directory

/-- The table with this place under the keys, whatever stood there. -/
def register (place : Nat) (keys : List String) (table : String → Option Nat) : String → Option Nat :=
  keys.foldl (fun table key => Function.update table key (some place)) table

def add (directory : Directory) (spec : Spec) : Directory where
  languages := directory.languages ++ [Language.ofSpec spec]
  names := register directory.languages.length (Registry.nameKeys spec) directory.names
  extensions := register directory.languages.length (Registry.extensionKeys spec) directory.extensions

def addAll (directory : Directory) (specs : List Spec) : Directory :=
  specs.foldl add directory

def ofSpecs (specs : List Spec) : Directory :=
  addAll ⟨[], fun _ => none, fun _ => none⟩ specs

def place? (directory : Directory) (hint : String) : Option Nat :=
  if (Text.normalize hint).isEmpty || Text.normalize hint == "auto" then none
  else Registry.stages directory.names directory.extensions (Text.normalize hint)

def lookup? (directory : Directory) (hint : String) : Option Language :=
  (directory.place? hint).bind fun place => directory.languages[place]?

theorem register_apply (place : Nat) (keys : List String) (table : String → Option Nat) (key : String) :
    register place keys table key = if key ∈ keys then some place else table key := by
  induction keys generalizing table with
  | nil => rfl
  | cons first rest ih =>
      refine (ih _).trans ?_
      by_cases later : key ∈ rest
      · simp [later]
      · by_cases same : key = first
        · simp [same, Function.update]
        · simp [later, same]

/-- The directory holds the languages of the descriptions, and under each key the place of the last
description that has it. -/
structure Filled (specs : List Spec) (directory : Directory) : Prop where
  languages : directory.languages = specs.map Language.ofSpec
  names : Answers Spec.Named (fun place _ => place) specs directory.names
  extensions : Answers Spec.HasExtension (fun place _ => place) specs directory.extensions

theorem answers_register {keys : Spec → List String} {Has : String → Spec → Prop}
    (listed : ∀ key spec, key ∈ keys spec ↔ Has key spec) {specs : List Spec} {table : String → Option Nat}
    (answers : Answers Has (fun place _ => place) specs table) (spec : Spec) :
    Answers Has (fun place _ => place) (specs ++ [spec]) (register specs.length (keys spec) table) := by
  refine answers.concat (fun key has => ?_) (fun key lacks => ?_)
  · rw [register_apply, if_pos ((listed key spec).mpr has)]
  · rw [register_apply, if_neg (mt (listed key spec).mp lacks)]

theorem Filled.add {specs : List Spec} {directory : Directory} (filled : Filled specs directory) (spec : Spec) :
    Filled (specs ++ [spec]) (directory.add spec) := by
  have next : directory.languages.length = specs.length := by
    rw [filled.languages, List.length_map]
  constructor
  · simp [Directory.add, filled.languages]
  · simp only [Directory.add, next]
    exact answers_register Registry.mem_nameKeys filled.names spec
  · simp only [Directory.add, next]
    exact answers_register Registry.mem_extensionKeys filled.extensions spec

theorem Filled.addAll {specs : List Spec} {directory : Directory} (filled : Filled specs directory)
    (more : List Spec) : Filled (specs ++ more) (directory.addAll more) := by
  induction more generalizing specs directory with
  | nil => simpa [Directory.addAll] using filled
  | cons spec rest ih =>
      have after := ih (filled.add spec)
      rwa [List.append_assoc] at after

theorem filled_ofSpecs (specs : List Spec) : Filled specs (ofSpecs specs) := by
  have start : Filled [] ⟨[], fun _ => none, fun _ => none⟩ := ⟨rfl, .empty, .empty⟩
  exact start.addAll specs

end Directory

/-! ## What a lookup finds -/

theorem Finds.here {specs : List Spec} {key : String} {place : Nat} {spec : Spec}
    (finds : Finds specs key place spec) : specs[place]? = some spec := by
  cases finds with
  | name last => exact last.here
  | extension _ last => exact last.here
  | fileName _ _ _ _ last => exact last.here

namespace Registry

/-- The hint asks for no language. -/
def Undecided (hint : String) : Prop :=
  Text.normalize hint = "" ∨ Text.normalize hint = "auto"

instance (hint : String) : Decidable (Undecided hint) :=
  inferInstanceAs (Decidable (_ ∨ _))

theorem undecided_iff {hint : String} :
    ((Text.normalize hint).isEmpty || Text.normalize hint == "auto") = true ↔ Undecided hint := by
  simp [Undecided]

variable {specs added : List Spec} {hint : String}

theorem lookup?_eq_some_iff (decided : ¬Undecided hint) {language : Language} :
    (ofSpecs specs).lookup? hint = some language ↔
      ∃ place spec, Finds specs (Text.normalize hint) place spec ∧ Language.ofSpec spec = language := by
  rw [lookup?_eq, if_neg (mt undecided_iff.mp decided)]
  exact stages_eq_some_iff (answers_index mem_nameKeys specs) (answers_index mem_extensionKeys specs)

theorem lookup?_eq_none_iff (decided : ¬Undecided hint) :
    (ofSpecs specs).lookup? hint = none ↔ ∀ spec ∈ specs, ¬spec.Fits (Text.normalize hint) := by
  rw [lookup?_eq, if_neg (mt undecided_iff.mp decided)]
  exact stages_eq_none_iff (answers_index mem_nameKeys specs) (answers_index mem_extensionKeys specs)

theorem lookup?_append (unfit : ∀ spec ∈ added, ¬spec.Fits (Text.normalize hint)) :
    (ofSpecs (specs ++ added)).lookup? hint = (ofSpecs specs).lookup? hint := by
  have same := stages_append (answers_index mem_nameKeys specs) (answers_index mem_extensionKeys specs)
    (answers_index mem_nameKeys (specs ++ added)) (answers_index mem_extensionKeys (specs ++ added)) unfit
  rw [lookup?_eq, lookup?_eq]
  split
  · rfl
  · exact same

theorem place?_eq_some_iff (decided : ¬Undecided hint) {place : Nat} :
    (Directory.ofSpecs specs).place? hint = some place ↔ ∃ spec, Finds specs (Text.normalize hint) place spec := by
  have filled := Directory.filled_ofSpecs specs
  rw [Directory.place?, if_neg (mt undecided_iff.mp decided), stages_eq_some_iff filled.names filled.extensions]
  constructor
  · rintro ⟨_, spec, finds, rfl⟩
    exact ⟨spec, finds⟩
  · rintro ⟨spec, finds⟩
    exact ⟨place, spec, finds, rfl⟩

theorem place?_of_undecided (directory : Directory) (undecided : Undecided hint) : directory.place? hint = none := by
  rw [Directory.place?, if_pos (undecided_iff.mpr undecided)]

theorem lookup?_of_undecided (registry : Registry) (undecided : Undecided hint) : registry.lookup? hint = none := by
  rw [lookup?_eq, if_pos (undecided_iff.mpr undecided)]

/-- A place that is found is one of a language, and the language is the answer. -/
theorem languages_of_place? {place : Nat} (found : (Directory.ofSpecs specs).place? hint = some place) :
    ∃ language, (ofSpecs specs).languages[place]? = some language ∧
      (ofSpecs specs).lookup? hint = some language := by
  by_cases undecided : Undecided hint
  · rw [place?_of_undecided _ undecided] at found
    cases found
  · obtain ⟨spec, finds⟩ := (place?_eq_some_iff undecided).mp found
    refine ⟨Language.ofSpec spec, ?_, (lookup?_eq_some_iff undecided).mpr ⟨place, spec, finds, rfl⟩⟩
    simp [ofSpecs, finds.here]

theorem lookup?_directory (specs : List Spec) (hint : String) :
    (Directory.ofSpecs specs).lookup? hint = (ofSpecs specs).lookup? hint := by
  have languages : (Directory.ofSpecs specs).languages = (ofSpecs specs).languages := by
    simp [(Directory.filled_ofSpecs specs).languages, ofSpecs]
  rw [Directory.lookup?, languages]
  cases found : (Directory.ofSpecs specs).place? hint with
  | some place =>
      obtain ⟨language, stands, answer⟩ := languages_of_place? found
      rw [Option.bind_some, stands, answer]
  | none =>
      refine (Option.eq_none_iff_forall_ne_some.mpr fun language answer => ?_).symm
      by_cases undecided : Undecided hint
      · rw [lookup?_of_undecided _ undecided] at answer
        cases answer
      · obtain ⟨place, spec, finds, _⟩ := (lookup?_eq_some_iff undecided).mp answer
        rw [(place?_eq_some_iff undecided).mpr ⟨spec, finds⟩] at found
        cases found

/-- A hint in normal form that is neither empty nor `auto` finds the last description with this name;
if there is none, the last with this extension; if there is none, the last with the extension of the
path. No other hint finds a language. The directory gives the same answers, at places that are in
its list. Descriptions added at the end change the answer only for hints that fit one of them. -/
theorem lookup_finds_last (specs : List Spec) (hint : String) :
    (Undecided hint → (ofSpecs specs).lookup? hint = none) ∧
      (¬Undecided hint →
        (∀ language, (ofSpecs specs).lookup? hint = some language ↔
          ∃ place spec, Finds specs (Text.normalize hint) place spec ∧ Language.ofSpec spec = language) ∧
        ((ofSpecs specs).lookup? hint = none ↔ ∀ spec ∈ specs, ¬spec.Fits (Text.normalize hint)) ∧
        ∀ place, (Directory.ofSpecs specs).place? hint = some place ↔
          ∃ spec, Finds specs (Text.normalize hint) place spec) ∧
      (Directory.ofSpecs specs).lookup? hint = (ofSpecs specs).lookup? hint ∧
      (∀ place, (Directory.ofSpecs specs).place? hint = some place →
        place < (ofSpecs specs).size ∧ (ofSpecs specs).lookup? hint = (ofSpecs specs).languages[place]?) ∧
      ∀ added, (ofSpecs (specs ++ added)).lookup? hint ≠ (ofSpecs specs).lookup? hint →
        ∃ spec ∈ added, spec.Fits (Text.normalize hint) := by
  refine ⟨lookup?_of_undecided _, ?_, lookup?_directory specs hint, ?_, ?_⟩
  · intro decided
    exact ⟨fun _ => lookup?_eq_some_iff decided, lookup?_eq_none_iff decided, fun _ => place?_eq_some_iff decided⟩
  · intro place found
    obtain ⟨language, stands, answer⟩ := languages_of_place? found
    exact ⟨(List.getElem?_eq_some_iff.mp stands).1, answer.trans stands.symm⟩
  · intro added changed
    by_contra unfit
    exact changed (lookup?_append fun spec member fits => unfit ⟨spec, member, fits⟩)

/-- The second of two descriptions with an extension answers for a path with that extension, where the
first alone answered before. -/
theorem lookup_finds_last_shadowed :
    ∃ first second : Spec, first.HasExtension "rs" ∧ second.HasExtension "rs" ∧
      Undecided " AUTO" ∧ (ofSpecs [first, second]).lookup? " AUTO" = none ∧
      ¬Undecided " a.b/Main.RS" ∧
      (ofSpecs [first]).lookup? " a.b/Main.RS" = some (Language.ofSpec first) ∧
      (ofSpecs [first, second]).lookup? " a.b/Main.RS" = some (Language.ofSpec second) ∧
      (Directory.ofSpecs [first, second]).place? " a.b/Main.RS" = some 1 ∧
      1 < (ofSpecs [first, second]).size ∧ Language.ofSpec second ≠ Language.ofSpec first ∧
      ∃ spec ∈ [second], spec.Fits (Text.normalize " a.b/Main.RS") := by
  let first : Spec := ⟨"first", ["one"], [".rs", "x"], [], [], [], [], "", false, false⟩
  let second : Spec := ⟨"second", ["main"], ["y", "..Rs"], [], [], [], [], "", false, false⟩
  have auto : Undecided " AUTO" := by decide +kernel
  have decided : ¬Undecided " a.b/Main.RS" := by decide +kernel
  have path : FileExtension (Text.normalize " a.b/Main.RS") "rs" := by decide +kernel
  obtain ⟨atFirst, _⟩ := (lookup_finds_last [first] " a.b/Main.RS").2.1 decided
  obtain ⟨atSecond, _, places⟩ := (lookup_finds_last [first, second] " a.b/Main.RS").2.1 decided
  obtain ⟨_, _, _, inRange, _⟩ := lookup_finds_last [first, second] " a.b/Main.RS"
  obtain ⟨_, _, _, _, fits⟩ := lookup_finds_last [first] " a.b/Main.RS"
  have findsFirst : Finds ([] ++ [first]) (Text.normalize " a.b/Main.RS") 0 first :=
    .fileName (by decide +kernel) (by decide +kernel) "rs" path ((isLast_concat (by decide +kernel)).mpr ⟨rfl, rfl⟩)
  have findsSecond : Finds ([first] ++ [second]) (Text.normalize " a.b/Main.RS") 1 second :=
    .fileName (by decide +kernel) (by decide +kernel) "rs" path ((isLast_concat (by decide +kernel)).mpr ⟨rfl, rfl⟩)
  have before := (atFirst _).mpr ⟨0, first, findsFirst, rfl⟩
  have after := (atSecond _).mpr ⟨1, second, findsSecond, rfl⟩
  have place := (places 1).mpr ⟨second, findsSecond⟩
  have differ : Language.ofSpec second ≠ Language.ofSpec first := by
    intro same
    exact absurd (congrArg Language.name same) (by decide +kernel)
  refine ⟨first, second, by decide +kernel, by decide +kernel, auto,
    (lookup_finds_last [first, second] " AUTO").1 auto, decided, before, after, place, (inRange 1 place).1, differ,
    fits [second] ?_⟩
  exact fun same => differ (Option.some.inj (after.symm.trans (same.trans before)))

end Registry

end CodeTint
