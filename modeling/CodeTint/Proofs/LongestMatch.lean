import CodeTint.Proofs.CommentExtent
import Mathlib.Data.Set.Basic

/-!
# Longest match

Delimiters are kept longest first, so the first one that fits a text is the
longest that does; of two that are equally long the one listed first is taken.
Two delimiters of one length that both stand at the front of a text are the same,
so the order of operators and line comment marks does not matter at all, and
neither does it matter whether one is listed twice.
-/

namespace CodeTint

namespace Text

/-- The byte of an operator or a separator starts the text. -/
def StartsMark (text : String) : Prop :=
  ∃ first, (bytes text).head? = some first ∧ Byte.isMark first = true

/-- The lengths of those texts of a set that stand at the front of `rest`. -/
def lengthsAt (texts : Set String) (rest : Bytes) : Set Nat :=
  {size | ∃ text ∈ texts, bytes text <+: rest ∧ size = (bytes text).length}

/-- The length found is that of the longest text of a set at the front of `rest`, and none is found
only if no text of the set stands there. -/
structure LongestAt (texts : Set String) (rest : Bytes) (found : Option Nat) : Prop where
  some_iff : ∀ size, found = some size ↔ IsGreatest (lengthsAt texts rest) size
  none_iff : found = none ↔ lengthsAt texts rest = ∅

theorem LongestAt.unique {texts : Set String} {rest : Bytes} {found other : Option Nat}
    (longest : LongestAt texts rest found) (longest' : LongestAt texts rest other) : found = other := by
  refine Option.ext fun size => ?_
  rw [longest.some_iff, longest'.some_iff]

theorem LongestAt.exists_of_mem {texts : Set String} {rest : Bytes} {found : Option Nat} {size : Nat}
    (longest : LongestAt texts rest found) (offered : size ∈ lengthsAt texts rest) :
    ∃ best, found = some best ∧ size ≤ best := by
  cases found with
  | none =>
      rw [longest.none_iff.mp rfl] at offered
      cases offered
  | some best => exact ⟨best, rfl, ((longest.some_iff best).mp rfl).2 offered⟩

end Text

/-! ## The first of the longest -/

section Longest

variable {α : Type}

/-- Of those that fit, none is longer than the one found and none before it is as long. -/
structure FirstLongest (length : α → Nat) (Fits : α → Prop) (before : List α) (found : α) (after : List α) :
    Prop where
  fits : Fits found
  shorter : ∀ other ∈ before, Fits other → length other < length found
  notLonger : ∀ other ∈ after, Fits other → length other ≤ length found

theorem FirstLongest.length_le {length : α → Nat} {Fits : α → Prop} {before after : List α} {found other : α}
    (first : FirstLongest length Fits before found after) (listed : other ∈ before ++ found :: after)
    (fits : Fits other) : length other ≤ length found := by
  rcases List.mem_append.mp listed with earlier | later
  · exact Nat.le_of_lt (first.shorter other earlier fits)
  · rcases List.mem_cons.mp later with rfl | behind
    · exact Nat.le_refl _
    · exact first.notLonger other behind fits

variable (length : α → Nat) (list : List α)

theorem longest_trans (first second third : α) (left : decide (length second ≤ length first) = true)
    (right : decide (length third ≤ length second) = true) :
    decide (length third ≤ length first) = true := by
  simp only [decide_eq_true_eq] at left right ⊢
  exact Nat.le_trans right left

theorem longest_total (first second : α) :
    (decide (length second ≤ length first) || decide (length first ≤ length second)) = true := by
  simp only [Bool.or_eq_true, decide_eq_true_eq]
  exact Nat.le_total _ _

/-- Those of one length keep their order when a list is sorted by length. -/
theorem filter_longest_first (fits : α → Bool) (size : Nat) :
    (list.mergeSort fun left right => length right ≤ length left).filter
        (fun entry => fits entry && length entry == size) =
      list.filter fun entry => fits entry && length entry == size := by
  have alike : (list.filter fun entry => fits entry && length entry == size).Pairwise
      fun left right => decide (length right ≤ length left) = true := by
    rw [List.pairwise_filter]
    refine List.pairwise_of_forall ?_
    intro left right leftFits rightFits
    simp_all
  have kept := List.sublist_mergeSort (longest_trans length) (longest_total length) alike
    List.filter_sublist
  have inside := kept.filter fun entry => fits entry && length entry == size
  rw [List.filter_filter] at inside
  simp only [Bool.and_self] at inside
  refine (inside.eq_of_length ?_).symm
  exact ((List.mergeSort_perm list _).filter _).length_eq.symm

variable {length list} {fits : α → Bool} {found : α}

/-- The first one that fits is the longest if longer ones come first. -/
theorem length_le_of_pairwise {sorted : List α}
    (ordered : sorted.Pairwise fun left right => length right ≤ length left)
    (best : sorted.find? fits = some found) {other : α} (listed : other ∈ sorted) (fit : fits other = true) :
    length other ≤ length found := by
  obtain ⟨_, before, after, rfl, unfit⟩ := List.find?_eq_some_iff_append.mp best
  rcases List.mem_append.mp listed with earlier | later
  · have refused := unfit other earlier
    rw [fit] at refused
    cases refused
  · rcases List.mem_cons.mp later with rfl | behind
    · exact Nat.le_refl _
    · exact List.rel_of_pairwise_cons (List.pairwise_append.mp ordered).2.1 behind

/-- The length of the first one that fits is the greatest length of a fitting one. -/
theorem longestAt_find? {sorted : List α}
    (ordered : sorted.Pairwise fun left right => length right ≤ length left) {texts : Set String} {rest : Bytes}
    (same : {size | ∃ entry ∈ sorted, fits entry = true ∧ size = length entry} = Text.lengthsAt texts rest) :
    Text.LongestAt texts rest ((sorted.find? fits).map length) := by
  constructor
  · intro size
    rw [Option.map_eq_some_iff, ← same]
    constructor
    · rintro ⟨found, best, rfl⟩
      refine ⟨⟨found, List.mem_of_find?_eq_some best, List.find?_some best, rfl⟩, ?_⟩
      rintro _ ⟨other, listed, fit, rfl⟩
      exact length_le_of_pairwise ordered best listed fit
    · rintro ⟨⟨entry, listed, fit, rfl⟩, greatest⟩
      cases best : sorted.find? fits with
      | none => exact absurd fit (List.find?_eq_none.mp best entry listed)
      | some found =>
          have bound := greatest ⟨found, List.mem_of_find?_eq_some best, List.find?_some best, rfl⟩
          exact ⟨found, rfl, Nat.le_antisymm bound (length_le_of_pairwise ordered best listed fit)⟩
  · rw [Option.map_eq_none_iff, List.find?_eq_none, ← same, Set.eq_empty_iff_forall_notMem]
    constructor
    · rintro unfit _ ⟨entry, listed, fit, rfl⟩
      exact unfit entry listed fit
    · intro empty entry listed fit
      exact empty _ ⟨entry, listed, fit, rfl⟩

theorem length_le_of_find?
    (best : (list.mergeSort fun left right => length right ≤ length left).find? fits = some found)
    {other : α} (listed : other ∈ list) (fit : fits other = true) : length other ≤ length found := by
  have sorted := List.pairwise_mergeSort (longest_trans length) (longest_total length) list
  exact length_le_of_pairwise (sorted.imp of_decide_eq_true) best (List.mem_mergeSort.mpr listed) fit

/-- The choice is made among those of the greatest length, whose order the sort keeps. -/
theorem find?_among_longest
    (best : (list.mergeSort fun left right => length right ≤ length left).find? fits = some found) :
    list.find? (fun entry => fits entry && length entry == length found) = some found := by
  obtain ⟨fit, before, after, split, unfit⟩ := List.find?_eq_some_iff_append.mp best
  rw [← List.head?_filter, ← filter_longest_first, List.head?_filter]
  refine List.find?_eq_some_iff_append.mpr ⟨by simp [fit], before, after, split, ?_⟩
  intro other earlier
  have refused := unfit other earlier
  simp_all

/-- The first one that fits in a list sorted by length is the first of the longest in the list as
it was. -/
theorem find?_longest_first_iff :
    (list.mergeSort fun left right => length right ≤ length left).find? fits = some found ↔
      ∃ before after, list = before ++ found :: after ∧
        FirstLongest length (fits · = true) before found after := by
  constructor
  · intro best
    obtain ⟨_, before, after, rfl, unfit⟩ := List.find?_eq_some_iff_append.mp (find?_among_longest best)
    refine ⟨before, after, rfl, List.find?_some best, ?_, ?_⟩
    · intro other earlier fit
      have bound := length_le_of_find? best (List.mem_append_left _ earlier) fit
      have differs := unfit other earlier
      simp only [fit, Bool.true_and, Bool.not_eq_true', beq_eq_false_iff_ne] at differs
      omega
    · intro other later fit
      exact length_le_of_find? best (by simp [later]) fit
  · rintro ⟨before, after, rfl, first⟩
    have listed : found ∈ before ++ found :: after := by simp
    cases best : ((before ++ found :: after).mergeSort fun left right => length right ≤ length left).find?
        fits with
    | none => exact absurd first.fits (List.find?_eq_none.mp best found (List.mem_mergeSort.mpr listed))
    | some other =>
        have member := List.mem_mergeSort.mp (List.mem_of_find?_eq_some best)
        have same : length other = length found :=
          Nat.le_antisymm (first.length_le member (List.find?_some best))
            (length_le_of_find? best listed first.fits)
        -- Among those of the greatest length the list as it was has `found` first.
        have chosen : (before ++ found :: after).find?
            (fun entry => fits entry && length entry == length other) = some found := by
          refine List.find?_eq_some_iff_append.mpr ⟨by simp [first.fits, same], before, after, rfl, ?_⟩
          intro earlier inFront
          have short := first.shorter earlier inFront
          cases fit : fits earlier with
          | false => rfl
          | true => simp [same, Nat.ne_of_lt (short fit)]
        exact (find?_among_longest best).symm.trans chosen

/-- The first of the longest is the same before and after entries are compiled, if those that do
not compile do not fit. -/
theorem firstLongest_filterMap_iff {β : Type} {compile : α → Option β} {size : β → Nat} {Fits : α → Prop}
    {Fits' : β → Prop} (fits_iff : ∀ {entry made}, compile entry = some made → (Fits' made ↔ Fits entry))
    (size_eq : ∀ {entry made}, compile entry = some made → size made = length entry)
    (compiles : ∀ {entry}, Fits entry → ∃ made, compile entry = some made) {made : β} :
    (∃ before after, list.filterMap compile = before ++ made :: after ∧
        FirstLongest size Fits' before made after) ↔
      ∃ before entry after, list = before ++ entry :: after ∧ FirstLongest length Fits before entry after ∧
        compile entry = some made := by
  constructor
  · rintro ⟨before, after, split, first⟩
    obtain ⟨front, behind, rfl, rfl, later⟩ := List.filterMap_eq_append_iff.mp split
    obtain ⟨skipped, entry, rest, rfl, unused, found, rfl⟩ := List.filterMap_eq_cons_iff.mp later
    refine ⟨front ++ skipped, entry, rest, by simp, ⟨(fits_iff found).mp first.fits, ?_, ?_⟩, found⟩
    · intro other earlier fits
      obtain ⟨made', found'⟩ := compiles fits
      rw [← size_eq found, ← size_eq found']
      rcases List.mem_append.mp earlier with inFront | inSkipped
      · exact first.shorter made' (List.mem_filterMap.mpr ⟨other, inFront, found'⟩) ((fits_iff found').mpr fits)
      · rw [unused other inSkipped] at found'
        cases found'
    · intro other later fits
      obtain ⟨made', found'⟩ := compiles fits
      rw [← size_eq found, ← size_eq found']
      exact first.notLonger made' (List.mem_filterMap.mpr ⟨other, later, found'⟩) ((fits_iff found').mpr fits)
  · rintro ⟨before, entry, after, rfl, first, found⟩
    refine ⟨before.filterMap compile, after.filterMap compile, by simp [found],
      (fits_iff found).mpr first.fits, ?_, ?_⟩
    · intro made' earlier fits
      obtain ⟨other, inFront, found'⟩ := List.mem_filterMap.mp earlier
      rw [size_eq found, size_eq found']
      exact first.shorter other inFront ((fits_iff found').mp fits)
    · intro made' later fits
      obtain ⟨other, behind, found'⟩ := List.mem_filterMap.mp later
      rw [size_eq found, size_eq found']
      exact first.notLonger other behind ((fits_iff found').mp fits)

end Longest

/-! ## Delimiters -/

namespace Delimiter

variable {delimiter other : Delimiter} {listed : List Delimiter} {texts : Set String} {rest : Bytes}

theorem eq_of_bytes (same : delimiter.bytes = other.bytes) : delimiter = other := by
  cases delimiter
  cases other
  subst same
  rfl

theorem opens_iff : delimiter.opens rest = true ↔ delimiter.bytes <+: rest :=
  List.isPrefixOf_iff_prefix

/-- Delimiters of one length at the front of a text are the same. -/
theorem eq_of_opens (opens : delimiter.opens rest = true) (opens' : other.opens rest = true)
    (same : delimiter.length = other.length) : delimiter = other := by
  have front := List.prefix_of_prefix_length_le (opens_iff.mp opens) (opens_iff.mp opens') (Nat.le_of_eq same)
  exact eq_of_bytes (front.eq_of_length same)

/-- What is found is the longest delimiter at the front of the text, wherever it is listed. -/
theorem find?_longestFirst_iff :
    (longestFirst listed).find? (opens rest) = some delimiter ↔
      delimiter ∈ listed ∧ delimiter.opens rest = true ∧
        ∀ other ∈ listed, other.opens rest = true → other.length ≤ delimiter.length := by
  constructor
  · intro found
    obtain ⟨before, after, rfl, first⟩ := find?_longest_first_iff.mp found
    exact ⟨by simp, first.fits, fun other member fits => first.length_le member fits⟩
  · rintro ⟨member, stands, longest⟩
    cases found : (longestFirst listed).find? (opens rest) with
    | none => exact absurd stands (List.find?_eq_none.mp found delimiter (mem_longestFirst.mpr member))
    | some other =>
        have inList := mem_longestFirst.mp (List.mem_of_find?_eq_some found)
        have stands' := List.find?_some found
        have same := Nat.le_antisymm (longest other inList stands')
          (length_le_of_find? found member stands)
        rw [eq_of_opens stands' stands same]

/-- The delimiters are spelled by the texts of the set. -/
structure Spelled (listed : List Delimiter) (texts : Set String) : Prop where
  sound : ∀ delimiter ∈ listed, ∃ text ∈ texts, delimiter.bytes = Text.bytes text
  complete : ∀ text ∈ texts, ∃ delimiter ∈ listed, delimiter.bytes = Text.bytes text

namespace Spelled

theorem lengths_eq (spelled : Spelled listed texts) (rest : Bytes) :
    {size | ∃ delimiter ∈ longestFirst listed, opens rest delimiter = true ∧ size = delimiter.length} =
      Text.lengthsAt texts rest := by
  ext size
  constructor
  · rintro ⟨delimiter, member, stands, rfl⟩
    obtain ⟨text, inTexts, same⟩ := spelled.sound delimiter (mem_longestFirst.mp member)
    exact ⟨text, inTexts, same ▸ opens_iff.mp stands, congrArg List.length same⟩
  · rintro ⟨text, inTexts, stands, rfl⟩
    obtain ⟨delimiter, member, same⟩ := spelled.complete text inTexts
    exact ⟨delimiter, mem_longestFirst.mpr member, opens_iff.mpr (same ▸ stands), congrArg List.length same.symm⟩

theorem longestAt (spelled : Spelled listed texts) (rest : Bytes) :
    Text.LongestAt texts rest (((longestFirst listed).find? (opens rest)).map Delimiter.length) := by
  have sorted := List.pairwise_mergeSort (longest_trans length) (longest_total length) listed
  exact longestAt_find? (sorted.imp of_decide_eq_true) (spelled.lengths_eq rest)

theorem mem_iff (spelled : Spelled listed texts) :
    delimiter ∈ listed ↔ ∃ text ∈ texts, delimiter.bytes = Text.bytes text := by
  constructor
  · exact spelled.sound delimiter
  · rintro ⟨text, inTexts, same⟩
    obtain ⟨other, member, same'⟩ := spelled.complete text inTexts
    exact eq_of_bytes (same.trans same'.symm) ▸ member

/-- Only the set of the texts matters. -/
theorem find?_eq {others : List Delimiter} (spelled : Spelled listed texts) (spelled' : Spelled others texts)
    (rest : Bytes) :
    (longestFirst others).find? (opens rest) = (longestFirst listed).find? (opens rest) := by
  refine Option.ext fun delimiter => ?_
  simp only [find?_longestFirst_iff, spelled.mem_iff, spelled'.mem_iff]

end Spelled

theorem exists_ofString? {text : String} (filled : text ≠ "") :
    ∃ delimiter, ofString? text = some delimiter := by
  cases same : text.toList with
  | nil => exact absurd (String.toList_eq_nil_iff.mp same) filled
  | cons c rest => exact ⟨_, by rw [ofString?, same]⟩

end Delimiter

/-! ## Operators by their first byte -/

/-- Operators as they are looked up: each under its first byte. -/
structure OperatorIndex where
  under : UInt8 → List Bytes

namespace OperatorIndex

/-- Lists an operator, unless nothing could start it or it is listed already. -/
def add (index : OperatorIndex) (operator : Bytes) : OperatorIndex :=
  match operator.head? with
  | none => index
  | some first =>
      if Byte.isMark first && !(index.under first).contains operator then
        ⟨Function.update index.under first (index.under first ++ [operator])⟩
      else index

/-- Longer operators come first, and those of one length in the order of their bytes. -/
def comesBefore (left right : Bytes) : Bool :=
  right.length < left.length || (right.length == left.length && left ≤ right)

def sort (index : OperatorIndex) : OperatorIndex :=
  ⟨fun first => (index.under first).mergeSort comesBefore⟩

def addAll (index : OperatorIndex) (operators : List String) : OperatorIndex :=
  operators.foldl (fun index operator => index.add (Text.bytes operator)) index

def ofOperators (operators : List String) : OperatorIndex :=
  (addAll ⟨fun _ => []⟩ operators).sort

/-- The length of the first operator under the byte at an offset that stands there. -/
def matchAt? (index : OperatorIndex) (source : Bytes) (offset : Nat) : Option Nat :=
  source[offset]?.bind fun first =>
    ((index.under first).find? fun operator => operator.isPrefixOf (source.drop offset)).map List.length

variable {index : OperatorIndex} {operator other : Bytes} {operators : List String} {first : UInt8}

theorem mem_add :
    other ∈ (index.add operator).under first ↔
      other ∈ index.under first ∨
        other = operator ∧ operator.head? = some first ∧ Byte.isMark first = true := by
  unfold add
  cases start : operator.head? with
  | none => simp
  | some lead =>
      dsimp only
      by_cases same : first = lead
      · subst same
        by_cases listed : operator ∈ index.under first
        · simp only [List.contains_iff_mem.mpr listed, Bool.not_true, Bool.and_false, Bool.false_eq_true,
            if_false]
          constructor
          · exact Or.inl
          · rintro (before | ⟨rfl, _⟩)
            · exact before
            · exact listed
        · cases mark : Byte.isMark first with
          | false => simp
          | true => simp [listed]
      · have apart : lead ≠ first := fun equal => same equal.symm
        split
        · simp [Function.update_of_ne same, apart]
        · simp [apart]

theorem mem_addAll :
    other ∈ (index.addAll operators).under first ↔
      other ∈ index.under first ∨
        ∃ text ∈ operators, other = Text.bytes text ∧ other.head? = some first ∧ Byte.isMark first = true := by
  induction operators generalizing index with
  | nil => simp [addAll]
  | cons text rest ih =>
      change other ∈ ((index.add (Text.bytes text)).addAll rest).under first ↔ _
      rw [ih, mem_add, or_assoc]
      simp only [List.mem_cons, exists_eq_or_imp]
      refine or_congr_right (or_congr_left ?_)
      constructor
      · rintro ⟨rfl, start⟩
        exact ⟨rfl, start⟩
      · rintro ⟨rfl, start⟩
        exact ⟨rfl, start⟩

/-- What is listed under a byte are the operators that it starts. -/
theorem mem_ofOperators :
    other ∈ (ofOperators operators).under first ↔
      ∃ text ∈ operators, other = Text.bytes text ∧ other.head? = some first ∧ Byte.isMark first = true := by
  rw [ofOperators, sort, List.mem_mergeSort, mem_addAll]
  simp

theorem comesBefore_iff {left right : Bytes} :
    comesBefore left right = true ↔
      right.length < left.length ∨ right.length = left.length ∧ left ≤ right := by
  simp [comesBefore]

theorem comesBefore_trans (left middle right : Bytes) (near : comesBefore left middle = true)
    (far : comesBefore middle right = true) : comesBefore left right = true := by
  rw [comesBefore_iff] at near far ⊢
  rcases near with shorter | ⟨same, ordered⟩
  · left
    rcases far with shorter' | ⟨same', _⟩ <;> omega
  · rcases far with shorter' | ⟨same', ordered'⟩
    · left
      omega
    · exact Or.inr ⟨by omega, List.le_trans ordered ordered'⟩

theorem comesBefore_total (left right : Bytes) :
    (comesBefore left right || comesBefore right left) = true := by
  rw [Bool.or_eq_true, comesBefore_iff, comesBefore_iff]
  rcases Nat.lt_trichotomy left.length right.length with longer | same | shorter
  · exact Or.inr (Or.inl longer)
  · rcases List.le_total left right with ordered | ordered
    · exact Or.inl (Or.inr ⟨same.symm, ordered⟩)
    · exact Or.inr (Or.inr ⟨same, ordered⟩)
  · exact Or.inl (Or.inl shorter)

theorem pairwise_ofOperators (operators : List String) (first : UInt8) :
    ((ofOperators operators).under first).Pairwise fun left right => right.length ≤ left.length := by
  refine (List.pairwise_mergeSort comesBefore_trans comesBefore_total _).imp ?_
  intro left right before
  rcases comesBefore_iff.mp before with shorter | ⟨same, _⟩
  · exact Nat.le_of_lt shorter
  · exact Nat.le_of_eq same

/-- The operators that the byte at an offset starts are all that can stand there. -/
theorem lengths_eq {source : Bytes} {offset : Nat} (here : source[offset]? = some first) :
    {size | ∃ operator ∈ (ofOperators operators).under first,
        operator.isPrefixOf (source.drop offset) = true ∧ size = operator.length} =
      Text.lengthsAt {text | text ∈ operators ∧ Text.StartsMark text} (source.drop offset) := by
  ext size
  constructor
  · rintro ⟨operator, member, stands, rfl⟩
    obtain ⟨text, listed, rfl, starts⟩ := mem_ofOperators.mp member
    exact ⟨text, ⟨listed, first, starts⟩, List.isPrefixOf_iff_prefix.mp stands, rfl⟩
  · rintro ⟨text, ⟨listed, lead, start, mark⟩, stands, rfl⟩
    have front : source[offset]? = some lead := by
      obtain ⟨behind, whole⟩ := stands
      rw [← List.head?_drop, ← whole, List.head?_append, start]
      rfl
    obtain rfl := Option.some.inj (here.symm.trans front)
    exact ⟨Text.bytes text, mem_ofOperators.mpr ⟨text, listed, rfl, start, mark⟩,
      List.isPrefixOf_iff_prefix.mpr stands, rfl⟩

theorem longestAt_matchAt? (operators : List String) (source : Bytes) (offset : Nat) :
    Text.LongestAt {text | text ∈ operators ∧ Text.StartsMark text} (source.drop offset)
      ((ofOperators operators).matchAt? source offset) := by
  unfold matchAt?
  cases here : source[offset]? with
  | none =>
      have read : source.drop offset = [] := List.drop_eq_nil_iff.mpr (List.getElem?_eq_none_iff.mp here)
      have empty : Text.lengthsAt {text | text ∈ operators ∧ Text.StartsMark text} (source.drop offset) = ∅ := by
        refine Set.eq_empty_iff_forall_notMem.mpr ?_
        rintro _ ⟨text, ⟨_, lead, start, _⟩, stands, _⟩
        rw [read, List.prefix_nil] at stands
        rw [stands] at start
        cases start
      rw [Option.bind_none]
      refine ⟨fun size => iff_of_false nofun fun greatest => ?_, iff_of_true rfl empty⟩
      exact Set.eq_empty_iff_forall_notMem.mp empty size greatest.1
  | some first => exact longestAt_find? (pairwise_ofOperators operators first) (lengths_eq here)

end OperatorIndex

end CodeTint
