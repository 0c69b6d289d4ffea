import CodeTint.Proofs.Loading
import CodeTint.Proofs.Overrides

/-!
# Settings in layers

A chain of settings files lies in layers, the file that is loaded on top. Of the
fields with one value the topmost one counts, and of the overrides the topmost one
of each name; the languages of all layers are kept, from the bottom up. Merging is
associative, so the layers may be put together in any grouping.
-/

namespace CodeTint

namespace Settings

/-! ## Merging -/

theorem combine_eq_none {α : Type} (both : α → α → α) (first second : Option α) :
    combine both first second = none ↔ second = none ∧ first = none := by
  cases first <;> cases second <;> simp [combine]

theorem combine_assoc {α : Type} {both : α → α → α}
    (assoc : ∀ a b c, both (both a b) c = both a (both b c)) (first second third : Option α) :
    combine both (combine both first second) third = combine both first (combine both second third) := by
  cases first <;> cases second <;> cases third <;> simp [combine, assoc]

theorem merge_assoc (first second third : Settings) :
    merge (merge first second) third = merge first (merge second third) := by
  have overrides (a b c : Overrides) : (a.append b).append c = a.append (b.append c) :=
    congrArg Overrides.mk (List.append_assoc a.writes b.writes c.writes)
  unfold merge
  simp only [Option.or_assoc, combine_assoc overrides, combine_assoc List.append_assoc]

/-- The languages of the settings; without any, the list is empty. -/
def listed (settings : Settings) : List Spec :=
  settings.languages.getD []

theorem listed_merge (parent child : Settings) :
    (merge parent child).listed = parent.listed ++ child.listed := by
  unfold listed merge
  dsimp only
  cases parent.languages <;> cases child.languages <;> simp [combine]

/-! ## Layers -/

/-- The settings are what the layers come to, the topmost of which is first. -/
structure Layered (layers : List Settings) (settings : Settings) : Prop where
  base : settings.base = none
  language : settings.language = layers.findSome? Settings.language
  format : settings.format = layers.findSome? Settings.format
  classPrefix : settings.classPrefix = layers.findSome? Settings.classPrefix
  coalesce : settings.coalesce = layers.findSome? Settings.coalesce
  override : ∀ name, settings.written.get? name = layers.findSome? fun layer => layer.written.get? name
  overrides : settings.overrides = none ↔ ∀ layer ∈ layers, layer.overrides = none
  listed : settings.listed = layers.reverse.flatMap Settings.listed
  languages : settings.languages = none ↔ ∀ layer ∈ layers, layer.languages = none

variable {layers near far : List Settings} {settings parent child : Settings}

theorem findSome?_singleton {α : Type} (field : Settings → Option α) (settings : Settings) :
    [settings].findSome? field = field settings := by
  cases found : field settings <;> simp [found]

theorem findSome?_layer {α : Type} (field : Settings → Option α) (layer : Settings) (layers : List Settings) :
    (layer :: layers).findSome? field = (field layer).or (layers.findSome? field) := by
  rw [List.findSome?_cons]
  cases field layer <;> rfl

theorem Layered.single (alone : settings.base = none) : Layered [settings] settings where
  base := alone
  language := (findSome?_singleton _ settings).symm
  format := (findSome?_singleton _ settings).symm
  classPrefix := (findSome?_singleton _ settings).symm
  coalesce := (findSome?_singleton _ settings).symm
  override name := (findSome?_singleton (fun layer => layer.written.get? name) settings).symm
  overrides := by simp
  listed := by simp
  languages := by simp

/-- One layer more on top. -/
theorem Layered.merge (layered : Layered layers parent) (child : Settings) :
    Layered (child :: layers) (merge parent child) where
  base := rfl
  language := by
    rw [findSome?_layer, ← layered.language]
    rfl
  format := by
    rw [findSome?_layer, ← layered.format]
    rfl
  classPrefix := by
    rw [findSome?_layer, ← layered.classPrefix]
    rfl
  coalesce := by
    rw [findSome?_layer, ← layered.coalesce]
    rfl
  override name := by
    rw [findSome?_layer, ← layered.override, written_merge, Overrides.get?_append]
  overrides := by
    rw [List.forall_mem_cons, ← layered.overrides]
    exact combine_eq_none _ parent.overrides child.overrides
  listed := by
    rw [listed_merge, layered.listed, List.reverse_cons, List.flatMap_append, List.flatMap_singleton]
  languages := by
    rw [List.forall_mem_cons, ← layered.languages]
    exact combine_eq_none _ parent.languages child.languages

theorem layered_addAll (alone : settings.base = none) (layers : List Settings) :
    Layered (layers ++ [settings]) (addAll layers settings) := by
  induction layers with
  | nil => exact .single alone
  | cons layer layers ih => exact ih.merge layer

/-! ## Groupings -/

/-- The settings are merged from the layers in some grouping. -/
inductive Grouped : List Settings → Settings → Prop
  | single (settings : Settings) : Grouped [settings] settings
  | merge {near far : List Settings} {child parent : Settings} (above : Grouped near child)
      (below : Grouped far parent) : Grouped (near ++ far) (merge parent child)

theorem addAll_append (near far : List Settings) (settings : Settings) :
    addAll (near ++ far) settings = addAll near (addAll far settings) :=
  List.foldr_append

theorem grouped_addAll (layers : List Settings) (settings : Settings) :
    Grouped (layers ++ [settings]) (addAll layers settings) := by
  induction layers with
  | nil => exact .single settings
  | cons layer layers ih =>
      have onTop := Grouped.merge (.single layer) ih
      exact onTop

theorem Grouped.merge_eq (grouped : Grouped near child) (parent : Settings) :
    Settings.merge parent child = addAll near parent := by
  induction grouped generalizing parent with
  | single => rfl
  | merge above below ihAbove ihBelow =>
      rw [← merge_assoc, ihBelow, ihAbove, addAll_append]

theorem Grouped.exists_addAll (grouped : Grouped layers child) :
    ∃ front settings, layers = front ++ [settings] ∧ child = addAll front settings := by
  induction grouped with
  | single settings => exact ⟨[], settings, rfl, rfl⟩
  | @merge near far child parent above below ihAbove ihBelow =>
      obtain ⟨front, settings, rfl, rfl⟩ := ihBelow
      refine ⟨near ++ front, settings, (List.append_assoc near front [settings]).symm, ?_⟩
      rw [above.merge_eq, addAll_append]

/-- The layers decide what they come to, whatever the grouping. -/
theorem grouped_iff : Grouped (layers ++ [settings]) child ↔ child = addAll layers settings := by
  constructor
  · intro grouped
    obtain ⟨front, last, same, rfl⟩ := grouped.exists_addAll
    obtain ⟨rfl, lastEq⟩ := List.append_inj' same rfl
    cases lastEq
    rfl
  · rintro rfl
    exact grouped_addAll layers settings

/-! ## Loading -/

section Loading

variable {tree : FileTree} {path last : Path} {files : List (Path × Settings)}

theorem not_again_of_locate? {before : Path} (differs : tree.locate? before ≠ tree.locate? path)
    {location : Location} (found : tree.locate? path = some location) : ¬tree.Again before path := by
  rintro ⟨other, earlier, same | ⟨nowhere, _⟩⟩
  · exact differs (earlier.trans same.symm)
  · rw [found] at nowhere
    cases nowhere

theorem Chain.load_of_nodup (chain : Chain tree path files last) (read : opened tree last = .ok settings)
    (alone : settings.base = none)
    (acyclic : ((files.map Prod.fst ++ [last]).map tree.locate?).Nodup) :
    load tree path = .ok (addAll (files.map Prod.snd) settings) := by
  rw [List.Nodup, List.pairwise_map, List.pairwise_append, List.pairwise_map] at acyclic
  obtain ⟨apart, _, unlike⟩ := acyclic
  have fresh : files.Pairwise fun before file => ¬tree.Again before.1 file.1 := by
    refine List.Pairwise.imp_of_mem ?_ apart
    intro before file _ member differs
    obtain ⟨location, found⟩ := chain.exists_locate? member
    exact not_again_of_locate? differs found
  have unseen : isVisited (entered tree [] files) (tree.canonical last) = false := by
    rw [Bool.eq_false_iff, ne_eq, chain.isVisited_iff]
    rintro ⟨before, member, again⟩
    obtain ⟨file, _, _⟩ := exists_readFile read
    have differs := unlike before.1 (List.mem_map_of_mem member) last (List.mem_singleton.mpr rfl)
    exact not_again_of_locate? differs file.located again
  exact chain.load_of_ends (chain.fresh_iff.mpr fresh) (.last unseen read alone)

/-- A chain of files that are all different is loaded, and its files are the layers of what it
comes to. -/
theorem load_layers_chain (chain : Chain tree path files last) (read : opened tree last = .ok settings)
    (alone : settings.base = none)
    (acyclic : ((files.map Prod.fst ++ [last]).map tree.locate?).Nodup) :
    (∃ loaded, load tree path = .ok loaded ∧ Layered (files.map Prod.snd ++ [settings]) loaded ∧
        ∀ merged, Grouped (files.map Prod.snd ++ [settings]) merged ↔ merged = loaded) ∧
      ∀ first second third : Settings,
        merge (merge first second) third = merge first (merge second third) := by
  refine ⟨⟨addAll (files.map Prod.snd) settings, ?_, ?_, ?_⟩, merge_assoc⟩
  · exact chain.load_of_nodup read alone acyclic
  · exact layered_addAll alone _
  · intro merged
    exact grouped_iff

/-- Three files that name each other without extensions and by way of a directory. -/
def threeLayers : FileTree :=
  ((FileTree.empty.insert ["a.json"] (.file (Text.bytes
      "\x7b\"extends\":\"d/b\",\"format\":\"ansi\",\"languages\":[\x7b\"name\":\"p\"\x7d]\x7d"))).insert
    ["d", "b.json"] (.file (Text.bytes
      "\x7b\"extends\":\"../c\",\"format\":\"\",\"styleOverrides\":\x7b\"x\":\"1\"\x7d\x7d"))).insert
    ["c.json"] (.file (Text.bytes
      "\x7b\"styleOverrides\":\x7b\"x\":\"2\",\"y\":\"3\"\x7d,\"languages\":[\x7b\"name\":\"q\"\x7d]\x7d"))

/-- The format comes from the top, a style from the middle, another from the bottom, and languages from
both ends, those of the bottom first. -/
theorem load_layers_chain_three :
    ∃ loaded, load threeLayers ⟨"", ["a.json"]⟩ = .ok loaded ∧ loaded.base = none ∧
      loaded.format = some "ansi" ∧ loaded.coalesce = none ∧ loaded.written.get? "x" = some "1" ∧
      loaded.written.get? "y" = some "3" ∧ loaded.languages ≠ none ∧
      loaded.listed = [{ name := "q" }, { name := "p" }] := by
  have top : opened threeLayers ⟨"", ["a.json"]⟩ =
      .ok { base := some "d/b", format := some "ansi", languages := some [{ name := "p" }] } :=
    opened_of_toOption (by decide +kernel)
  have middle : opened threeLayers ⟨"", ["d", "b.json"]⟩ =
      .ok { base := some "../c", format := some "", overrides := some ⟨[("x", "1")]⟩ } :=
    opened_of_toOption (by decide +kernel)
  have bottom : opened threeLayers ⟨"", ["d", "..", "c.json"]⟩ =
      .ok { overrides := some ⟨[("x", "2"), ("y", "3")]⟩, languages := some [{ name := "q" }] } :=
    opened_of_toOption (by decide +kernel)
  have chain := Chain.link ⟨top, by decide +kernel⟩ (.link ⟨middle, by decide +kernel⟩
    (.here ⟨"", ["d", "..", "c.json"]⟩))
  obtain ⟨⟨loaded, done, layered, _⟩, _⟩ := load_layers_chain chain bottom rfl (by decide +kernel)
  refine ⟨loaded, done, layered.base, layered.format, layered.coalesce, ?_, ?_, ?_, layered.listed⟩
  · exact (layered.override "x").trans (by decide +kernel)
  · exact (layered.override "y").trans (by decide +kernel)
  · rw [ne_eq, layered.languages]
    decide +kernel

end Loading

end Settings

end CodeTint
