import Mathlib.Order.Lattice
import Mathlib.Data.List.Basic

/-! # Binary search

The binary search of the standard library halves a window `base .. base + size`
until one place is left. On an ascending list that place is the last one that is
not above the target, so the search cuts the list where a linear search would.
On other lists it returns some place all the same.
-/

namespace FastPg.Bisect

open List Option

variable {α : Type*} [LinearOrder α]

/-- The loop of the search: `base` is the last place found that is not above
    the target. -/
def bisect (items : List α) (target : α) : Nat → Nat → Nat → Nat
  | 0, _, base => base
  | fuel + 1, size, base =>
    if size ≤ 1 then base
    else
      let half := size / 2
      let mid := base + half
      bisect items target fuel (size - half)
        (match items[mid]? with
          | some item => if target < item then base else mid
          | none => base)

/-- The index of the target, or where it would be put. -/
def binarySearch (items : List α) (target : α) : Except Nat Nat :=
  let base := bisect items target items.length items.length 0
  match items[base]? with
  | none => .error 0
  | some item =>
    if item = target then .ok base else .error (if item < target then base + 1 else base)

/-- What is known of a window: its first place is the start of the list or not
    above the target, and everything behind it is above the target. -/
structure Window (items : List α) (target : α) (base size : Nat) : Prop where
  within : base + size ≤ items.length
  first : ∀ item, items[base]? = some item → base = 0 ∨ item ≤ target
  behind : ∀ index item, base + size ≤ index → items[index]? = some item → target < item

variable {items : List α}

theorem Window.whole (items : List α) (target : α) : Window items target 0 items.length where
  within := by omega
  first := fun _ _ => .inl rfl
  behind := by
    intro index item far found
    rw [getElem?_eq_none (by omega)] at found
    cases found

theorem pairwise_getElem? (sorted : items.Pairwise (· ≤ ·)) {i j : Nat} {a b : α} (order : i ≤ j)
    (first : items[i]? = some a) (second : items[j]? = some b) : a ≤ b := by
  obtain ⟨iBound, rfl⟩ := List.getElem?_eq_some_iff.mp first
  obtain ⟨jBound, rfl⟩ := List.getElem?_eq_some_iff.mp second
  rcases Nat.lt_or_eq_of_le order with below | rfl
  · exact List.pairwise_iff_getElem.mp sorted i j iBound jBound below
  · exact le_rfl

/-- The loop narrows its window down to one place. -/
theorem bisect_window {target : α} (sorted : items.Pairwise (· ≤ ·)) {fuel size base : Nat}
    (enough : size ≤ fuel + 1) (positive : 0 < size) (window : Window items target base size) :
    Window items target (bisect items target fuel size base) 1 := by
  induction fuel generalizing size base with
  | zero =>
    have single : size = 1 := by omega
    exact single ▸ window
  | succ fuel ih =>
    unfold bisect
    by_cases single : size ≤ 1
    · have one : size = 1 := by omega
      rw [if_pos single]
      exact one ▸ window
    · rw [if_neg single]
      have bound : base + size / 2 < items.length := by
        have := window.within
        omega
      obtain ⟨middle, found⟩ : ∃ middle, items[base + size / 2]? = some middle :=
        ⟨_, getElem?_eq_getElem bound⟩
      dsimp only
      rw [found]
      dsimp only
      have within := window.within
      apply ih (by omega) (by omega)
      split
      · rename_i above
        refine ⟨by omega, window.first, fun index item far there => ?_⟩
        exact lt_of_lt_of_le above (pairwise_getElem? sorted (by omega) found there)
      · rename_i notAbove
        refine ⟨by omega, fun item there => .inr ?_, fun index item far there => ?_⟩
        · rw [found] at there
          cases there
          exact not_lt.mp notAbove
        · exact window.behind index item (by omega) there

/-- Where to go on upwards from the target. -/
def fromIndex (items : List α) (target : α) : Nat :=
  match binarySearch items target with
  | .ok index => index
  | .error index => index

/-- Where to stop when everything up to the target is wanted. -/
def toIndex (items : List α) (target : α) : Nat :=
  match binarySearch items target with
  | .ok index => index + 1
  | .error index => index

variable {other : α}

theorem le_of_mem_take (sorted : items.Pairwise (· ≤ ·)) {place count : Nat} {item : α}
    (found : items[place]? = some item) (few : count ≤ place + 1) (mem : other ∈ items.take count) :
    other ≤ item := by
  obtain ⟨index, bound, rfl⟩ := getElem_of_mem mem
  rw [length_take] at bound
  refine pairwise_getElem? sorted (i := index) (by omega) ?_ found
  rw [getElem_take, getElem?_eq_getElem]

theorem le_of_mem_drop (sorted : items.Pairwise (· ≤ ·)) {place count : Nat} {item : α}
    (found : items[place]? = some item) (many : place ≤ count) (mem : other ∈ items.drop count) :
    item ≤ other := by
  obtain ⟨index, bound, rfl⟩ := getElem_of_mem mem
  rw [length_drop] at bound
  refine pairwise_getElem? sorted (j := count + index) (by omega) found ?_
  rw [getElem_drop, getElem?_eq_getElem]

theorem Window.above {target : α} {base : Nat} (window : Window items target base 1)
    (mem : other ∈ items.drop (base + 1)) : target < other := by
  obtain ⟨index, bound, rfl⟩ := getElem_of_mem mem
  rw [length_drop] at bound
  refine window.behind (base + 1 + index) _ (by omega) ?_
  rw [getElem_drop, getElem?_eq_getElem]

/-- The last place that is not above the target, where there is one. -/
theorem binarySearch_place (sorted : items.Pairwise (· ≤ ·)) (target : α) (filled : items ≠ []) :
    ∃ base item, items[base]? = some item ∧ Window items target base 1 ∧
      binarySearch items target =
        if item = target then .ok base else .error (if item < target then base + 1 else base) := by
  have positive : 0 < items.length := length_pos_iff.mpr filled
  have window := bisect_window sorted (Nat.le_succ _) positive (.whole items target)
  obtain ⟨item, found⟩ : ∃ item, items[bisect items target items.length items.length 0]? = some item :=
    ⟨_, getElem?_eq_getElem (Nat.lt_of_succ_le window.within)⟩
  refine ⟨_, item, found, window, ?_⟩
  simp only [binarySearch, found]

/-- Going on from `fromIndex` finds what a search of the whole list finds. -/
theorem find?_fromIndex (sorted : items.Pairwise (· ≤ ·)) (target : α) (wanted : α → Bool) :
    (items.drop (fromIndex items target)).find? wanted =
      items.find? fun item => decide (target ≤ item) && wanted item := by
  by_cases filled : items = []
  · simp [filled]
  have split (count : Nat) : items.find? (fun item => decide (target ≤ item) && wanted item) =
      ((items.take count).find? fun item => decide (target ≤ item) && wanted item).or
        ((items.drop count).find? fun item => decide (target ≤ item) && wanted item) := by
    rw [← List.find?_append, List.take_append_drop]
  have upper {count : Nat} (above : ∀ item ∈ items.drop count, target ≤ item) :
      ((items.drop count).find? fun item => decide (target ≤ item) && wanted item) =
        (items.drop count).find? wanted := by
    have whole : (items.drop count).filter (fun item => decide (target ≤ item)) = items.drop count :=
      List.filter_eq_self.mpr fun item mem => decide_eq_true (above item mem)
    conv_rhs => rw [← whole, List.find?_filter]
    simp
  obtain ⟨base, item, found, window, searched⟩ := binarySearch_place sorted target filled
  by_cases equal : item = target
  · subst equal
    have index : fromIndex items item = base := by simp [fromIndex, searched]
    rw [index, split base, upper fun other => le_of_mem_drop sorted found le_rfl]
    cases before : (items.take base).find? fun other => decide (item ≤ other) && wanted other with
    | none => rw [Option.none_or]
    | some other =>
      have accepted := List.find?_some before
      rw [Bool.and_eq_true, decide_eq_true_eq] at accepted
      have same : other = item := le_antisymm
        (le_of_mem_take sorted found (Nat.le_succ base) (List.mem_of_find?_eq_some before))
        accepted.1
      obtain ⟨bound, there⟩ := List.getElem?_eq_some_iff.mp found
      rw [Option.some_or, List.drop_eq_getElem_cons bound, there, ← same,
        List.find?_cons_of_pos accepted.2]
  · by_cases below : item < target
    · have index : fromIndex items target = base + 1 := by
        simp [fromIndex, searched, equal, below]
      have before : (items.take (base + 1)).find?
          (fun other => decide (target ≤ other) && wanted other) = none :=
        List.find?_eq_none.mpr fun other mem => by
          have := lt_of_le_of_lt (le_of_mem_take sorted found le_rfl mem) below
          simp [not_le.mpr this]
      rw [index, split (base + 1), before, Option.none_or, upper fun other mem =>
        (window.above mem).le]
    · have start : base = 0 := (window.first item found).resolve_right fun le =>
        below (lt_of_le_of_ne le equal)
      subst start
      have index : fromIndex items target = 0 := by simp [fromIndex, searched, equal, below]
      rw [index, split 0, List.take_zero, List.find?_nil, Option.none_or, upper fun other mem =>
        (not_lt.mp below).trans (le_of_mem_drop sorted found le_rfl mem)]

/-- What comes before `toIndex` is what is not above the target. -/
theorem take_toIndex (sorted : items.Pairwise (· ≤ ·)) (target : α) :
    items.take (toIndex items target) = items.filter fun item => decide (item ≤ target) := by
  by_cases filled : items = []
  · simp [filled]
  have cut {count : Nat} (below : ∀ item ∈ items.take count, item ≤ target)
      (above : ∀ item ∈ items.drop count, target < item) :
      items.take count = items.filter fun item => decide (item ≤ target) := by
    conv_rhs => rw [← take_append_drop count items]
    rw [filter_append, filter_eq_self.mpr fun item mem => by simp [below item mem],
      filter_eq_nil_iff.mpr fun item mem => by simp [above item mem], append_nil]
  obtain ⟨base, item, found, window, searched⟩ := binarySearch_place sorted target filled
  by_cases above : target < item
  · have start : base = 0 := (window.first item found).resolve_right (not_le.mpr above)
    subst start
    have index : toIndex items target = 0 := by simp [toIndex, searched, above.ne', above.not_gt]
    rw [index]
    exact cut (by simp) fun other mem =>
      lt_of_lt_of_le above (le_of_mem_drop sorted found le_rfl mem)
  · have index : toIndex items target = base + 1 := by
      rcases lt_or_eq_of_le (not_lt.mp above) with below | equal
      · simp [toIndex, searched, below.ne, below]
      · simp [toIndex, searched, equal]
    rw [index]
    exact cut (fun other mem => (le_of_mem_take sorted found le_rfl mem).trans (not_lt.mp above))
      fun other mem => window.above mem

/-- Going back from `toIndex` finds what a search of the whole list finds. -/
theorem find?_toIndex (sorted : items.Pairwise (· ≤ ·)) (target : α) (wanted : α → Bool) :
    (items.take (toIndex items target)).reverse.find? wanted =
      items.reverse.find? fun item => decide (item ≤ target) && wanted item := by
  rw [take_toIndex sorted, ← filter_reverse, find?_filter]
  simp

end FastPg.Bisect
