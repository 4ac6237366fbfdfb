import Mathlib

/-! # Comparison functions

Functions that compare two values and answer with a negative number, zero or a
positive number. Lawful ones order their values; they can be turned around, made
to place missing values, and tried one after the other. Sorting by a lawful
function and dropping repeated values gives a strictly ordered list.
-/

namespace FastPg

/-- The answers fit together as those of an order do. -/
structure LawfulCompare {α : Type*} (cmp : α → α → Int) : Prop where
  symm : ∀ a b, cmp a b < 0 ↔ 0 < cmp b a
  trans : ∀ a b c, cmp a b ≤ 0 → cmp b c ≤ 0 → cmp a c ≤ 0

/-- Try one function, and the other where it finds no difference. -/
def thenCompare {α : Type*} (first second : α → α → Int) (a b : α) : Int :=
  if first a b ≠ 0 then first a b else second a b

/-- Missing values are placed before or behind all others. -/
def optionCompare {α : Type*} (missing : Int) (cmp : α → α → Int) : Option α → Option α → Int
  | none, none => 0
  | none, some _ => missing
  | some _, none => -missing
  | some a, some b => cmp a b

namespace LawfulCompare

variable {α β : Type*} {cmp first second : α → α → Int}

section

variable (lawful : LawfulCompare cmp)
include lawful

theorem zero_iff (a b : α) : cmp a b = 0 ↔ cmp b a = 0 := by
  have := lawful.symm a b
  have := lawful.symm b a
  omega

theorem le_iff (a b : α) : cmp a b ≤ 0 ↔ 0 ≤ cmp b a := by
  have := lawful.symm b a
  omega

theorem total (a b : α) : cmp a b ≤ 0 ∨ cmp b a ≤ 0 := by
  have := lawful.symm b a
  omega

theorem lt_of_lt_of_le {a b c : α} (less : cmp a b < 0) (le : cmp b c ≤ 0) : cmp a c < 0 := by
  by_contra notLess
  have back : cmp c a ≤ 0 := by
    have := lawful.symm c a
    have := lawful.symm a c
    omega
  have around := lawful.trans b c a le back
  have := (lawful.symm a b).mp less
  omega

theorem lt_of_le_of_lt {a b c : α} (le : cmp a b ≤ 0) (less : cmp b c < 0) : cmp a c < 0 := by
  by_contra notLess
  have back : cmp c a ≤ 0 := by
    have := lawful.symm c a
    have := lawful.symm a c
    omega
  have around := lawful.trans c a b back le
  have := (lawful.symm b c).mp less
  omega

end

theorem constant : LawfulCompare fun _ _ : α => (0 : Int) :=
  ⟨fun _ _ => by omega, fun _ _ _ _ _ => Int.le_refl _⟩

theorem comap (lawful : LawfulCompare cmp) (f : β → α) : LawfulCompare fun a b => cmp (f a) (f b) :=
  ⟨fun a b => lawful.symm (f a) (f b), fun a b c => lawful.trans (f a) (f b) (f c)⟩

theorem reverse (lawful : LawfulCompare cmp) : LawfulCompare fun a b => -cmp a b := by
  constructor
  · intro a b
    have := lawful.symm b a
    omega
  · intro a b c ab bc
    have := lawful.trans c b a
    have := lawful.le_iff c b
    have := lawful.le_iff b a
    have := lawful.le_iff c a
    omega

theorem andThen (lawfulFirst : LawfulCompare first) (lawfulSecond : LawfulCompare second) :
    LawfulCompare (thenCompare first second) := by
  constructor
  · intro a b
    have := lawfulFirst.symm a b
    have := lawfulFirst.zero_iff a b
    have := lawfulSecond.symm a b
    unfold thenCompare
    split <;> split <;> omega
  · intro a b c ab bc
    unfold thenCompare at *
    have firstLe : first a b ≤ 0 ∧ first b c ≤ 0 := by
      split at ab <;> split at bc <;> omega
    have through := lawfulFirst.trans a b c firstLe.1 firstLe.2
    by_cases strictFirst : first a b < 0
    · have := lawfulFirst.lt_of_lt_of_le strictFirst firstLe.2
      rw [if_pos (by omega)]
      omega
    by_cases strictSecond : first b c < 0
    · have := lawfulFirst.lt_of_le_of_lt firstLe.1 strictSecond
      rw [if_pos (by omega)]
      omega
    · rw [if_neg (by omega)] at ab bc
      split
      · exact through
      · exact lawfulSecond.trans a b c ab bc

theorem option (lawful : LawfulCompare cmp) {missing : Int} (placed : missing ≠ 0) :
    LawfulCompare (optionCompare missing cmp) := by
  constructor
  · intro a b
    cases a <;> cases b <;> simp only [optionCompare]
    case some.some a b => exact lawful.symm a b
    all_goals omega
  · intro a b c ab bc
    cases a <;> cases b <;> cases c <;> simp only [optionCompare] at *
    case some.some.some a b c => exact lawful.trans a b c ab bc
    all_goals omega

end LawfulCompare

/-! ## Repeated values -/

/-- Drop what is the same as the value kept last. -/
def dropRepeatsFrom {α : Type*} (same : α → α → Bool) (last : α) : List α → List α
  | [] => []
  | a :: rest =>
    if same last a then dropRepeatsFrom same last rest else a :: dropRepeatsFrom same a rest

def dropRepeats {α : Type*} (same : α → α → Bool) : List α → List α
  | [] => []
  | a :: rest => a :: dropRepeatsFrom same a rest

section Sorting

variable {α : Type*} {cmp : α → α → Int} {same : α → α → Bool}

theorem dropRepeatsFrom_subset (list : List α) :
    ∀ {last a : α}, a ∈ dropRepeatsFrom same last list → a ∈ list := by
  induction list with
  | nil => exact fun inRest => inRest
  | cons b rest ih =>
    intro last a kept
    rw [dropRepeatsFrom] at kept
    split at kept
    · exact .tail _ (ih kept)
    · cases kept with
      | head => exact (.head _)
      | tail _ later => exact .tail _ (ih later)

theorem dropRepeats_subset {list : List α} {a : α} (kept : a ∈ dropRepeats same list) : a ∈ list := by
  cases list with
  | nil => exact kept
  | cons b rest =>
    cases kept with
    | head => exact (.head _)
    | tail _ later => exact .tail _ (dropRepeatsFrom_subset rest later)

/-- A value that is dropped is the same as one that is kept. -/
theorem exists_kept_from (reflexive : ∀ a, same a a = true) (list : List α) :
    ∀ {last a : α}, a ∈ list → ∃ b ∈ last :: dropRepeatsFrom same last list, same b a = true := by
  induction list with
  | nil => exact fun inNil => by cases inNil
  | cons b rest ih =>
    intro last a inList
    rw [dropRepeatsFrom]
    split
    · rename_i repeated
      cases inList with
      | head => exact ⟨last, (.head _), repeated⟩
      | tail _ later => exact ih later
    · cases inList with
      | head => exact ⟨b, .tail _ (.head _), reflexive b⟩
      | tail _ later =>
        obtain ⟨kept, inKept, sameKept⟩ := @ih b a later
        exact ⟨kept, .tail _ inKept, sameKept⟩

theorem exists_kept (reflexive : ∀ a, same a a = true) {list : List α} {a : α} (inList : a ∈ list) :
    ∃ b ∈ dropRepeats same list, same b a = true := by
  cases list with
  | nil => cases inList
  | cons first rest =>
    cases inList with
    | head => exact ⟨a, (.head _), reflexive a⟩
    | tail _ later => exact exists_kept_from reflexive rest later

/-- In an ordered list only neighbours can be the same, so that none are left. -/
theorem dropRepeatsFrom_pairwise (lawful : LawfulCompare cmp)
    (differ : ∀ a b, same a b = false → cmp a b ≠ 0) (list : List α) : ∀ {last : α},
      (last :: list).Pairwise (cmp · · ≤ 0) →
        (last :: dropRepeatsFrom same last list).Pairwise (cmp · · < 0) := by
  induction list with
  | nil => exact fun _ => List.pairwise_singleton _ _
  | cons b rest ih =>
    intro last ordered
    rw [List.pairwise_cons] at ordered
    obtain ⟨lastFirst, orderedRest⟩ := ordered
    rw [dropRepeatsFrom]
    split
    · apply ih
      rw [List.pairwise_cons] at orderedRest ⊢
      exact ⟨fun a inRest => lastFirst a (.tail _ inRest), orderedRest.2⟩
    · rename_i apart
      have less : cmp last b < 0 := by
        have := lastFirst b List.mem_cons_self
        have := differ last b (Bool.eq_false_iff.mpr apart)
        omega
      have later := ih orderedRest
      rw [List.pairwise_cons]
      refine ⟨fun a kept => ?_, later⟩
      cases kept with
      | head => exact less
      | tail _ inRest =>
        have next := List.rel_of_pairwise_cons later inRest
        exact lawful.lt_of_lt_of_le less (Int.le_of_lt next)

theorem dropRepeats_pairwise (lawful : LawfulCompare cmp)
    (differ : ∀ a b, same a b = false → cmp a b ≠ 0) {list : List α}
    (ordered : list.Pairwise (cmp · · ≤ 0)) : (dropRepeats same list).Pairwise (cmp · · < 0) := by
  cases list with
  | nil => exact List.Pairwise.nil
  | cons first rest => exact dropRepeatsFrom_pairwise lawful differ rest ordered

theorem mergeSort_pairwise (lawful : LawfulCompare cmp) (list : List α) :
    (list.mergeSort fun a b => cmp a b ≤ 0).Pairwise (cmp · · ≤ 0) := by
  have sorted : (list.mergeSort fun a b => decide (cmp a b ≤ 0)).Pairwise
      fun a b => decide (cmp a b ≤ 0) = true := List.pairwise_mergeSort
    (fun a b c ab bc => decide_eq_true
      (lawful.trans a b c (of_decide_eq_true ab) (of_decide_eq_true bc)))
    (fun a b => by
      rw [Bool.or_eq_true, decide_eq_true_eq, decide_eq_true_eq]
      exact lawful.total a b) list
  exact sorted.imp of_decide_eq_true

end Sorting

end FastPg
