import CodeTint.Config.Load
import Mathlib.Data.List.Infix
import Mathlib.Data.List.Nodup
import Mathlib.Data.List.TakeWhile

/-!
# Following settings files

The files that a settings file adds to make a chain. Loading goes along it, one file
after another, and ends at the first path that stands for a file of the chain again,
at the first path that cannot be read, or at the first file that adds to none.
`Session.visit` does the same with a set of paths that it changes in place and a list
of all it reads, and with a bound on the calls that wait for each other.
-/

namespace CodeTint

/-! ## Paths of locations -/

namespace Path

theorem same_iff {left right : Path} :
    left.same right = true ↔
      left.isAbsolute = right.isAbsolute ∧ left.head = right.head ∧ left.names = right.names := by
  simp only [same, Bool.and_eq_true, beq_iff_eq, and_assoc]

theorem same_self (path : Path) : path.same path = true :=
  same_iff.mpr ⟨rfl, rfl, rfl⟩

theorem names_ofNames {location : List String} (named : ∀ name ∈ location, isIdle name = false) :
    (ofNames location).names = location := by
  cases location with
  | nil => rfl
  | cons first rest =>
      apply List.filter_eq_self.mpr
      intro name member
      rw [named name member]
      rfl

theorem same_ofNames {left right : List String} (leftNamed : ∀ name ∈ left, isIdle name = false)
    (rightNamed : ∀ name ∈ right, isIdle name = false) :
    (ofNames left).same (ofNames right) = true ↔ left = right := by
  constructor
  · intro same
    have names := (same_iff.mp same).2.2
    rwa [names_ofNames leftNamed, names_ofNames rightNamed] at names
  · rintro rfl
    exact same_self _

/-- A path without a directory names nothing at all. -/
theorem isIdle_of_parent? {path : Path} (top : path.parent? = none) :
    ∀ part ∈ path.parts, isIdle part = true := by
  unfold parent? at top
  split at top
  · rename_i trimmed
    split at top
    · rename_i empty
      intro part member
      rcases List.mem_cons.mp member with rfl | inTail
      · rw [isIdle, empty]
        rfl
      · have dropped : path.tail.reverse.dropWhile isIdle = [] := by
          simpa only [trimIdle, List.reverse_eq_nil_iff] using trimmed
        exact List.dropWhile_eq_nil_iff.mp dropped part (List.mem_reverse.mpr inTail)
    · cases top
  · split at top
    · cases top
    · cases top

end Path

namespace FileTree

variable {tree : FileTree} {before path : Path} {location : Location}

theorem step?_named {next : Location} {part : String}
    (named : ∀ name ∈ location, Path.isIdle name = false) (step : tree.step? location part = some next) :
    ∀ name ∈ next, Path.isIdle name = false := by
  unfold step? at step
  split at step
  · cases step
  · split at step
    · cases step
      exact named
    · rename_i speaking
      split at step
      · cases step
        intro name member
        exact named name (List.mem_of_mem_dropLast member)
      · split at step
        · cases step
          intro name member
          rcases List.mem_append.mp member with above | last
          · exact named name above
          · rw [List.mem_singleton.mp last]
            exact Bool.eq_false_iff.mpr speaking
        · cases step

/-- Every name on the way to a location says something. -/
theorem locate?_named (found : tree.locate? path = some location) :
    ∀ name ∈ location, Path.isIdle name = false := by
  have walk (parts : List String) (start : Location) (named : ∀ name ∈ start, Path.isIdle name = false)
      (reached : parts.foldlM tree.step? start = some location) :
      ∀ name ∈ location, Path.isIdle name = false := by
    induction parts generalizing start with
    | nil =>
        cases reached
        exact named
    | cons part rest ih =>
        rw [List.foldlM_cons] at reached
        obtain ⟨next, step, reached⟩ := Option.bind_eq_some_iff.mp reached
        exact ih next (step?_named named step) reached
  exact walk path.parts [] (fun _ member => nomatch member) found

/-- A path that names nothing leads to the top. -/
theorem locate?_of_isIdle (idle : ∀ part ∈ path.parts, Path.isIdle part = true) :
    tree.locate? path = some [] := by
  have stay (parts : List String) (idle : ∀ part ∈ parts, Path.isIdle part = true) :
      parts.foldlM tree.step? [] = some [] := by
    induction parts with
    | nil => rfl
    | cons part rest ih =>
        have step : tree.step? [] part = some [] := by
          rw [step?, if_neg (fun other => other rfl), if_pos (idle part List.mem_cons_self)]
        rw [List.foldlM_cons, step]
        exact ih fun part member => idle part (List.mem_cons_of_mem _ member)
  exact stay path.parts idle

/-- The path leads where an earlier one does, or it leads nowhere and is written as the path of
that place. -/
def Again (tree : FileTree) (before path : Path) : Prop :=
  ∃ location, tree.locate? before = some location ∧
    (tree.locate? path = some location ∨
      tree.locate? path = none ∧ path.same (.ofNames location) = true)

theorem again_iff (found : tree.locate? before = some location) :
    tree.Again before path ↔ (tree.canonical path).same (tree.canonical before) = true := by
  have only : tree.Again before path ↔ tree.locate? path = some location ∨
      tree.locate? path = none ∧ path.same (.ofNames location) = true := by
    constructor
    · rintro ⟨other, same, again⟩
      obtain rfl : location = other := Option.some.inj (found.symm.trans same)
      exact again
    · intro again
      exact ⟨location, found, again⟩
  rw [only, canonical_of_locate? found]
  cases reached : tree.locate? path with
  | none => simp [canonical, reached]
  | some place =>
      rw [canonical_of_locate? reached, Path.same_ofNames (locate?_named reached) (locate?_named found)]
      simp

end FileTree

namespace Settings

variable {tree : FileTree} {visited : List Path} {path next last : Path} {settings : Settings}
  {error : LoadError} {files : List (Path × Settings)}

/-! ## One file -/

/-- What stands in the file at a path. -/
def opened (tree : FileTree) (path : Path) : Except LoadError Settings :=
  match (tree.locate? path).bind tree.read? with
  | none => .error (.unreadable path)
  | some text => (Document.read text).mapError (.malformed path)

theorem opened_unreadable (absent : (tree.locate? path).bind tree.read? = none) :
    opened tree path = .error (.unreadable path) := by
  rw [opened, absent]

theorem opened_text {text : String} (found : (tree.locate? path).bind tree.read? = some text) :
    opened tree path = (Document.read text).mapError (.malformed path) := by
  rw [opened, found]

theorem map_readFile (tree : FileTree) (path : Path) :
    (readFile tree path).map File.settings = opened tree path := by
  unfold readFile
  split
  · rename_i nowhere
    rw [opened_unreadable (by rw [nowhere]; rfl)]
    rfl
  · rename_i location located
    have there : (tree.locate? path).bind tree.read? = tree.read? location := by rw [located]; rfl
    split
    · rename_i unreadable
      rw [opened_unreadable (there.trans unreadable)]
      rfl
    · rename_i text found
      rw [opened_text (there.trans found)]
      split
      · rename_i cause malformed
        rw [malformed]
        rfl
      · rename_i settings read
        rw [read]
        rfl

theorem exists_readFile (read : opened tree path = .ok settings) :
    ∃ file, readFile tree path = .ok file ∧ file.settings = settings := by
  rw [← map_readFile] at read
  cases found : readFile tree path with
  | error => rw [found] at read; cases read
  | ok file =>
      rw [found] at read
      exact ⟨file, rfl, Except.ok.inj read⟩

theorem opened_of_toOption (read : (opened tree path).toOption = some settings) :
    opened tree path = .ok settings := by
  cases found : opened tree path with
  | error => rw [found] at read; cases read
  | ok other => rw [found] at read; cases read; rfl

theorem readFile_error (failed : opened tree path = .error error) :
    readFile tree path = .error error := by
  rw [← map_readFile] at failed
  cases found : readFile tree path with
  | error => rw [found] at failed; cases failed; rfl
  | ok file => rw [found] at failed; cases failed

/-- A file that is read has a directory, so every file that adds to another one says where it is. -/
theorem exists_basePath (read : opened tree path = .ok settings) (base : String) :
    ∃ next, basePath? path base = some next := by
  cases above : path.parent? with
  | some directory => exact ⟨_, by rw [basePath?, above]; rfl⟩
  | none =>
      have top : tree.locate? path = some [] :=
        FileTree.locate?_of_isIdle (Path.isIdle_of_parent? above)
      rw [opened, top] at read
      cases read

/-- How loading ends at a path when it does not go on from there. -/
inductive Ends (tree : FileTree) (visited : List Path) (path : Path) : Except LoadError Settings → Prop
  | cycle (seen : isVisited visited (tree.canonical path) = true) :
      Ends tree visited path (.error (.cycle (tree.canonical path)))
  | failed {error : LoadError} (fresh : isVisited visited (tree.canonical path) = false)
      (failed : opened tree path = .error error) : Ends tree visited path (.error error)
  | last {settings : Settings} (fresh : isVisited visited (tree.canonical path) = false)
      (read : opened tree path = .ok settings) (alone : settings.base = none) :
      Ends tree visited path (.ok settings)

theorem Ends.loadFrom {result : Except LoadError Settings} (ends : Ends tree visited path result) :
    loadFrom tree visited path = result := by
  rw [Settings.loadFrom]
  cases ends with
  | cycle seen => rw [dif_pos seen]
  | failed fresh failed =>
      rw [dif_neg (Bool.eq_false_iff.mp fresh)]
      split
      · rename_i found
        rw [readFile_error failed] at found
        cases found
        rfl
      · rename_i found
        rw [readFile_error failed] at found
        cases found
  | last fresh read alone =>
      obtain ⟨file, found, rfl⟩ := exists_readFile read
      rw [dif_neg (Bool.eq_false_iff.mp fresh)]
      split
      · rename_i other
        rw [found] at other
        cases other
      · rename_i other
        rw [found] at other
        cases other
        rw [alone]

/-- The file at `path` adds to the one at `next`. -/
def Adds (tree : FileTree) (path : Path) (settings : Settings) (next : Path) : Prop :=
  opened tree path = .ok settings ∧ settings.base.bind (basePath? path) = some next

theorem Adds.loadFrom (adds : Adds tree path settings next)
    (fresh : isVisited visited (tree.canonical path) = false) :
    loadFrom tree visited path =
      (loadFrom tree (tree.canonical path :: visited) next).map fun parent => merge parent settings := by
  obtain ⟨read, named⟩ := adds
  obtain ⟨file, found, rfl⟩ := exists_readFile read
  obtain ⟨base, written, resolved⟩ := Option.bind_eq_some_iff.mp named
  rw [Settings.loadFrom, dif_neg (Bool.eq_false_iff.mp fresh)]
  split
  · rename_i other
    rw [found] at other
    cases other
  · rename_i other
    rw [found] at other
    cases other
    rw [written]
    dsimp only
    rw [resolved]

/-- Loading ends at a path or goes on to the next one. -/
theorem ends_or_adds (tree : FileTree) (visited : List Path) (path : Path) :
    (∃ result, Ends tree visited path result) ∨
      isVisited visited (tree.canonical path) = false ∧ ∃ settings next, Adds tree path settings next := by
  cases seen : isVisited visited (tree.canonical path) with
  | true => exact .inl ⟨_, .cycle seen⟩
  | false =>
      cases read : opened tree path with
      | error => exact .inl ⟨_, .failed seen read⟩
      | ok settings =>
          cases written : settings.base with
          | none => exact .inl ⟨_, .last seen read written⟩
          | some base =>
              obtain ⟨next, resolved⟩ := exists_basePath read base
              exact .inr ⟨rfl, settings, next, read, by rw [written]; exact resolved⟩

theorem Adds.unvisited_shorter (adds : Adds tree path settings next)
    (fresh : isVisited visited (tree.canonical path) = false) :
    (unvisited tree (tree.canonical path :: visited)).length < (unvisited tree visited).length := by
  obtain ⟨file, _, _⟩ := exists_readFile adds.1
  exact file.unvisited_shorter (Bool.eq_false_iff.mp fresh)

/-! ## Chains of files -/

/-- From `path` on, the files given add one to the next, and the last of them adds to the file at
`last`. -/
inductive Chain (tree : FileTree) : Path → List (Path × Settings) → Path → Prop
  | here (path : Path) : Chain tree path [] path
  | link {path next last : Path} {settings : Settings} {files : List (Path × Settings)}
      (adds : Adds tree path settings next) (rest : Chain tree next files last) :
      Chain tree path ((path, settings) :: files) last

/-- What is remembered behind the files of a chain. -/
def entered (tree : FileTree) : List Path → List (Path × Settings) → List Path
  | visited, [] => visited
  | visited, file :: files => entered tree (tree.canonical file.1 :: visited) files

/-- None of the files is one of those before it. -/
def Fresh (tree : FileTree) : List Path → List (Path × Settings) → Prop
  | _, [] => True
  | visited, file :: files =>
      isVisited visited (tree.canonical file.1) = false ∧ Fresh tree (tree.canonical file.1 :: visited) files

/-- The layers added to `settings`, beginning with the last one. -/
def addAll (layers : List Settings) (settings : Settings) : Settings :=
  layers.foldr (fun layer parent => merge parent layer) settings

theorem isVisited_cons (visited : List Path) (first place : Path) :
    isVisited (first :: visited) place = (place.same first || isVisited visited place) :=
  rfl

theorem isVisited_entered (tree : FileTree) (visited : List Path) (files : List (Path × Settings))
    (place : Path) :
    isVisited (entered tree visited files) place = true ↔
      isVisited visited place = true ∨ ∃ file ∈ files, place.same (tree.canonical file.1) = true := by
  induction files generalizing visited with
  | nil => simp [entered]
  | cons file files ih =>
      rw [entered, ih, isVisited_cons, Bool.or_eq_true_iff]
      simp only [List.mem_cons, exists_eq_or_imp]
      tauto

/-- Loading goes along a chain as long as it meets new files. -/
theorem Chain.loadFrom (chain : Chain tree path files last) (fresh : Fresh tree visited files) :
    loadFrom tree visited path =
      (loadFrom tree (entered tree visited files) last).map (addAll (files.map Prod.snd)) := by
  induction chain generalizing visited with
  | here path =>
      rw [entered]
      cases Settings.loadFrom tree visited path <;> rfl
  | link adds rest ih =>
      rw [adds.loadFrom fresh.1, ih fresh.2, entered]
      cases Settings.loadFrom tree _ _ <;> rfl

/-- There is a path at which loading ends. -/
theorem exists_ends (tree : FileTree) (visited : List Path) (path : Path) :
    ∃ files last result, Chain tree path files last ∧ Fresh tree visited files ∧
      Ends tree (entered tree visited files) last result := by
  rcases ends_or_adds tree visited path with ⟨result, ends⟩ | ⟨fresh, settings, next, adds⟩
  · exact ⟨[], path, result, .here path, trivial, ends⟩
  · obtain ⟨files, last, result, chain, later, ends⟩ :=
      exists_ends tree (tree.canonical path :: visited) next
    exact ⟨(path, settings) :: files, last, result, .link adds chain, ⟨fresh, later⟩, ends⟩
termination_by (unvisited tree visited).length
decreasing_by exact adds.unvisited_shorter fresh

/-- If a chain comes back to a file, it does so for a first time. -/
theorem Chain.exists_first (chain : Chain tree path files last)
    (again : isVisited (entered tree visited files) (tree.canonical last) = true) :
    ∃ before repeated, Chain tree path before repeated ∧ Fresh tree visited before ∧
      isVisited (entered tree visited before) (tree.canonical repeated) = true := by
  induction chain generalizing visited with
  | here path => exact ⟨[], path, .here path, trivial, again⟩
  | @link path next last settings files adds rest ih =>
      cases seen : isVisited visited (tree.canonical path) with
      | true => exact ⟨[], path, .here path, trivial, seen⟩
      | false =>
          obtain ⟨before, repeated, chain, fresh, again⟩ := ih again
          exact ⟨(path, settings) :: before, repeated, .link adds chain, ⟨seen, fresh⟩, again⟩

theorem Chain.exists_locate? (chain : Chain tree path files last) {file : Path × Settings}
    (member : file ∈ files) : ∃ location, tree.locate? file.1 = some location := by
  induction chain with
  | here => cases member
  | link adds rest ih =>
      rcases List.mem_cons.mp member with rfl | later
      · obtain ⟨file, _, _⟩ := exists_readFile adds.1
        exact ⟨file.location, file.located⟩
      · exact ih later

theorem Chain.isVisited_iff (chain : Chain tree path files last) (place : Path) :
    isVisited (entered tree [] files) (tree.canonical place) = true ↔
      ∃ before ∈ files, tree.Again before.1 place := by
  rw [isVisited_entered]
  constructor
  · rintro (impossible | ⟨before, member, same⟩)
    · cases impossible
    · obtain ⟨location, found⟩ := chain.exists_locate? member
      exact ⟨before, member, (FileTree.again_iff found).mpr same⟩
  · rintro ⟨before, member, again⟩
    obtain ⟨location, found⟩ := chain.exists_locate? member
    exact .inr ⟨before, member, (FileTree.again_iff found).mp again⟩

theorem fresh_iff (tree : FileTree) (visited : List Path) (files : List (Path × Settings)) :
    Fresh tree visited files ↔
      (∀ file ∈ files, isVisited visited (tree.canonical file.1) = false) ∧
        files.Pairwise fun before file =>
          (tree.canonical file.1).same (tree.canonical before.1) = false := by
  induction files generalizing visited with
  | nil => simp [Fresh]
  | cons first files ih =>
      rw [Fresh, ih, List.pairwise_cons]
      simp only [isVisited_cons, Bool.or_eq_false_iff, List.forall_mem_cons]
      constructor
      · rintro ⟨fresh, unseen, apart⟩
        exact ⟨⟨fresh, fun file member => (unseen file member).2⟩,
          fun file member => (unseen file member).1, apart⟩
      · rintro ⟨⟨fresh, unseen⟩, differs, apart⟩
        exact ⟨fresh, fun file member => ⟨differs file member, unseen file member⟩, apart⟩

theorem Chain.fresh_iff (chain : Chain tree path files last) :
    Fresh tree [] files ↔ files.Pairwise fun before file => ¬tree.Again before.1 file.1 := by
  rw [Settings.fresh_iff]
  have same : (files.Pairwise fun before file =>
        (tree.canonical file.1).same (tree.canonical before.1) = false) ↔
      files.Pairwise fun before file => ¬tree.Again before.1 file.1 := by
    apply List.Pairwise.iff_of_mem
    intro before file member _
    obtain ⟨location, found⟩ := chain.exists_locate? member
    rw [FileTree.again_iff found, Bool.not_eq_true]
  rw [same]
  exact and_iff_right fun _ _ => rfl

/-! ## Loading in place -/

/-- What loading in place keeps: the paths it is waiting at, and every location it has read. -/
structure Session where
  visited : List Path
  reads : List Location

namespace Session

variable {session : Session}

/-- Remembers a path and reads what is there. -/
def enter (tree : FileTree) (session : Session) (path : Path) : Session :=
  ⟨tree.canonical path :: session.visited, (tree.locate? path).toList ++ session.reads⟩

/-- Forgets a path. -/
def leave (tree : FileTree) (session : Session) (path : Path) : Session :=
  { session with visited := session.visited.filter fun place => !(tree.canonical path).same place }

/-- Adds the settings at a path to what has been loaded for them; after a failure there is nothing
left to do. -/
def finish (tree : FileTree) (path : Path) (settings : Settings) :
    Except LoadError Settings × Session → Except LoadError Settings × Session
  | (.ok parent, session) => (.ok (merge parent settings), session.leave tree path)
  | (.error error, session) => (.error error, session)

/-- Loads the file at a path, if no more calls wait for each other than are allowed. -/
def visit (tree : FileTree) : Nat → Path → Session → Option (Except LoadError Settings × Session)
  | 0, _, _ => none
  | calls + 1, path, session =>
      if isVisited session.visited (tree.canonical path) then
        some (.error (.cycle (tree.canonical path)), session)
      else
        match opened tree path with
        | .error error => some (.error error, session.enter tree path)
        | .ok settings =>
            match settings.base with
            | none => some (.ok settings, (session.enter tree path).leave tree path)
            | some base =>
                match basePath? path base with
                | none => some (.error (.noDirectory path), session.enter tree path)
                | some next =>
                    (visit tree calls next (session.enter tree path)).map (finish tree path settings)

/-- Nothing has been read twice, and all that has been read is remembered. -/
structure Sound (session : Session) : Prop where
  distinct : session.reads.Nodup
  remembered : ∀ location ∈ session.reads, isVisited session.visited (.ofNames location) = true

theorem Sound.enter (sound : session.Sound)
    (fresh : isVisited session.visited (tree.canonical path) = false) : (session.enter tree path).Sound := by
  cases found : tree.locate? path with
  | none =>
      constructor
      · simpa [Session.enter, found] using sound.distinct
      · intro location member
        have earlier : location ∈ session.reads := by simpa [Session.enter, found] using member
        rw [Session.enter, isVisited_cons, sound.remembered location earlier, Bool.or_true]
  | some place =>
      have canonical := FileTree.canonical_of_locate? found
      constructor
      · have unread : place ∉ session.reads := by
          intro member
          rw [canonical, sound.remembered place member] at fresh
          cases fresh
        simpa [Session.enter, found] using ⟨unread, sound.distinct⟩
      · intro location member
        rw [Session.enter, isVisited_cons, Bool.or_eq_true_iff, canonical]
        have either : location = place ∨ location ∈ session.reads := by
          simpa [Session.enter, found] using member
        rcases either with rfl | earlier
        · exact .inl (Path.same_self _)
        · exact .inr (sound.remembered location earlier)

theorem leave_enter {after : Session} (fresh : isVisited session.visited (tree.canonical path) = false)
    (same : after.visited = (session.enter tree path).visited) :
    (after.leave tree path).visited = session.visited := by
  have others : ∀ place ∈ session.visited, (tree.canonical path).same place = false := by
    simpa [isVisited] using fresh
  rw [leave, same, enter, List.filter_cons_of_neg (by simp [Path.same_self])]
  apply List.filter_eq_self.mpr
  intro place member
  rw [others place member]
  rfl

theorem visit_ends {result : Except LoadError Settings} (calls : Nat)
    (ends : Ends tree session.visited path result) (sound : session.Sound) :
    ∃ after, visit tree (calls + 1) path session = some (result, after) ∧ after.reads.Nodup ∧
      (result.isOk = true → after.visited = session.visited) := by
  unfold visit
  cases ends with
  | cycle seen =>
      rw [if_pos seen]
      exact ⟨session, rfl, sound.distinct, fun _ => rfl⟩
  | failed fresh failed =>
      rw [if_neg (Bool.eq_false_iff.mp fresh), failed]
      exact ⟨_, rfl, (sound.enter fresh).distinct, nofun⟩
  | last fresh read alone =>
      rw [if_neg (Bool.eq_false_iff.mp fresh), read]
      dsimp only
      rw [alone]
      exact ⟨_, rfl, (sound.enter fresh).distinct, fun _ => leave_enter fresh rfl⟩

theorem visit_adds (calls : Nat) (adds : Adds tree path settings next)
    (fresh : isVisited session.visited (tree.canonical path) = false) :
    visit tree (calls + 1) path session =
      (visit tree calls next (session.enter tree path)).map (finish tree path settings) := by
  obtain ⟨base, written, resolved⟩ := Option.bind_eq_some_iff.mp adds.2
  rw [visit, if_neg (Bool.eq_false_iff.mp fresh), adds.1]
  dsimp only
  rw [written]
  dsimp only
  rw [resolved]

/-- With a call for each file that is not visited yet and one more, loading in place comes to its
end. It reads no file twice, and if it succeeds it has forgotten all paths that it has met. -/
theorem visit_eq {calls : Nat} (sound : session.Sound)
    (enough : (unvisited tree session.visited).length < calls) :
    ∃ after, visit tree calls path session = some (loadFrom tree session.visited path, after) ∧
      after.reads.Nodup ∧
      ((loadFrom tree session.visited path).isOk = true → after.visited = session.visited) := by
  induction calls generalizing path session with
  | zero => omega
  | succ calls ih =>
      rcases ends_or_adds tree session.visited path with ⟨result, ends⟩ | ⟨fresh, settings, next, adds⟩
      · rw [ends.loadFrom]
        exact visit_ends calls ends sound
      · have shorter := adds.unvisited_shorter fresh
        obtain ⟨after, run, distinct, forgotten⟩ :=
          ih (sound.enter fresh) (Nat.lt_of_lt_of_le shorter (Nat.le_of_lt_succ enough))
        have inside : (session.enter tree path).visited = tree.canonical path :: session.visited := rfl
        rw [visit_adds calls adds fresh, run, adds.loadFrom fresh, inside]
        rw [inside] at forgotten
        cases loaded : loadFrom tree (tree.canonical path :: session.visited) next with
        | error => exact ⟨after, rfl, distinct, fun done => nomatch done⟩
        | ok parent =>
            rw [loaded] at forgotten
            exact ⟨after.leave tree path, rfl, distinct, fun _ => leave_enter fresh (forgotten rfl)⟩

end Session

/-! ## Cycles -/

theorem opened_ne_cycle (tree : FileTree) (path place : Path) :
    opened tree path ≠ .error (.cycle place) := by
  intro failed
  unfold opened at failed
  split at failed
  · cases failed
  · rename_i text _
    cases read : Document.read text with
    | error => rw [read] at failed; cases failed
    | ok => rw [read] at failed; cases failed

theorem Chain.load_of_ends {result : Except LoadError Settings} (chain : Chain tree path files last)
    (fresh : Fresh tree [] files) (ends : Ends tree (entered tree [] files) last result) :
    load tree path = result.map (addAll (files.map Prod.snd)) := by
  rw [load, chain.loadFrom fresh, ends.loadFrom]

theorem load_cycle_iff (tree : FileTree) (path : Path) :
    (∃ place, load tree path = .error (.cycle place)) ↔
      ∃ files last, Chain tree path files last ∧ ∃ before ∈ files, tree.Again before.1 last := by
  constructor
  · rintro ⟨place, cycle⟩
    obtain ⟨files, last, result, chain, fresh, ends⟩ := exists_ends tree [] path
    have loaded := chain.load_of_ends fresh ends
    cases ends with
    | cycle seen => exact ⟨files, last, chain, (chain.isVisited_iff last).mp seen⟩
    | failed _ failed =>
        cases cycle.symm.trans loaded
        exact absurd failed (opened_ne_cycle tree last place)
    | last => cases cycle.symm.trans loaded
  · rintro ⟨files, last, chain, again⟩
    obtain ⟨before, repeated, first, fresh, seen⟩ :=
      chain.exists_first ((chain.isVisited_iff last).mpr again)
    exact ⟨tree.canonical repeated, first.load_of_ends fresh (.cycle seen)⟩

/-- Loading goes along the chain of files until a path stands for a file of the chain again, cannot
be read, or is that of a file that adds to none. -/
theorem load_follows_chain (tree : FileTree) (path : Path) :
    (∃ after, Session.visit tree (tree.locations.length + 1) path ⟨[], []⟩ = some (load tree path, after) ∧
        after.reads.Nodup ∧ ((load tree path).isOk = true → after.visited = [])) ∧
      ((∃ place, load tree path = .error (.cycle place)) ↔
        ∃ files last, Chain tree path files last ∧ ∃ before ∈ files, tree.Again before.1 last) ∧
      ∃ files last, Chain tree path files last ∧
        (files.Pairwise fun before file => ¬tree.Again before.1 file.1) ∧
        ((∃ before ∈ files, tree.Again before.1 last) ∧
            load tree path = .error (.cycle (tree.canonical last)) ∨
          (∀ before ∈ files, ¬tree.Again before.1 last) ∧
            ((∃ error, opened tree last = .error error ∧ load tree path = .error error) ∨
              ∃ settings, opened tree last = .ok settings ∧ settings.base = none ∧
                load tree path = .ok (addAll (files.map Prod.snd) settings))) := by
  refine ⟨?_, load_cycle_iff tree path, ?_⟩
  · apply Session.visit_eq ⟨List.nodup_nil, fun _ member => absurd member List.not_mem_nil⟩
    exact Nat.lt_succ_of_le (List.length_filter_le _ _)
  · obtain ⟨files, last, result, chain, fresh, ends⟩ := exists_ends tree [] path
    have loaded := chain.load_of_ends fresh ends
    have unseen (absent : isVisited (entered tree [] files) (tree.canonical last) = false) :
        ∀ before ∈ files, ¬tree.Again before.1 last := by
      intro before member again
      rw [(chain.isVisited_iff last).mpr ⟨before, member, again⟩] at absent
      cases absent
    refine ⟨files, last, chain, chain.fresh_iff.mp fresh, ?_⟩
    cases ends with
    | cycle seen => exact .inl ⟨(chain.isVisited_iff last).mp seen, loaded⟩
    | failed absent failed => exact .inr ⟨unseen absent, .inl ⟨_, failed, loaded⟩⟩
    | last absent read alone => exact .inr ⟨unseen absent, .inr ⟨_, read, alone, loaded⟩⟩

/-- A file that adds to itself by a path with a slash behind the name, which leads nowhere. -/
def slashed : FileTree :=
  FileTree.empty.insert ["a.json"] (.file (Text.bytes "\x7b\"extends\":\"a.json/\"\x7d"))

/-- A cycle is reported although no path of the chain leads where an earlier one does. -/
theorem load_cycle_leading_nowhere :
    load slashed ⟨"", ["a.json"]⟩ = .error (.cycle ⟨"", ["a.json", ""]⟩) ∧
      ∀ files last, Chain slashed ⟨"", ["a.json"]⟩ files last →
        ∀ before ∈ files, slashed.locate? before.1 ≠ slashed.locate? last := by
  have read : opened slashed ⟨"", ["a.json"]⟩ = .ok { base := some "a.json/" } :=
    opened_of_toOption (by decide +kernel)
  have resolved : basePath? ⟨"", ["a.json"]⟩ "a.json/" = some ⟨"", ["a.json", ""]⟩ := by decide +kernel
  have nowhere : slashed.locate? ⟨"", ["a.json", ""]⟩ = none := by decide +kernel
  have written : slashed.canonical ⟨"", ["a.json", ""]⟩ = ⟨"", ["a.json", ""]⟩ := by
    rw [FileTree.canonical, nowhere]
    rfl
  constructor
  · rw [← written]
    have chain := Chain.link ⟨read, resolved⟩ (.here ⟨"", ["a.json", ""]⟩)
    exact chain.load_of_ends ⟨rfl, trivial⟩ (.cycle (by decide +kernel))
  · intro files last chain before member same
    cases chain with
    | here => cases member
    | link adds rest =>
        obtain ⟨opened, named⟩ := adds
        cases read.symm.trans opened
        cases resolved.symm.trans named
        cases rest with
        | here =>
            rw [List.mem_singleton.mp member, nowhere] at same
            revert same
            decide +kernel
        | link adds rest =>
            cases (opened_unreadable (by rw [nowhere]; rfl)).symm.trans adds.1

end Settings

end CodeTint
