import Mathlib.Data.List.Nodup

/-! # Association lists and duplicate-free lists

Small maps are lists of pairs read by the first entry under a key, written by
replacing that entry or appending one. Small sets are lists that refuse a
second copy of an element.
-/

namespace FastPg.Assoc

variable {κ ν : Type*} [DecidableEq κ]

/-- The value of the first entry under `key`. -/
def lookup : List (κ × ν) → κ → Option ν
  | [], _ => none
  | (k, v) :: rest, key => if k = key then some v else lookup rest key

/-- Replace the first entry under `key`, or append a new one. -/
def upsert : List (κ × ν) → κ → ν → List (κ × ν)
  | [], key, value => [(key, value)]
  | (k, v) :: rest, key, value =>
    if k = key then (k, value) :: rest else (k, v) :: upsert rest key value

/-- Append an entry only where the key has none. -/
def insertNew (entries : List (κ × ν)) (key : κ) (value : ν) : List (κ × ν) :=
  if (lookup entries key).isSome then entries else entries ++ [(key, value)]

def remove (entries : List (κ × ν)) (key : κ) : List (κ × ν) :=
  entries.filter fun entry => entry.1 ≠ key

/-- Write every entry of `more` in order. -/
def extend (entries more : List (κ × ν)) : List (κ × ν) :=
  more.foldl (fun acc entry => upsert acc entry.1 entry.2) entries

@[simp] theorem lookup_nil (key : κ) : lookup ([] : List (κ × ν)) key = none := rfl

theorem lookup_cons (k : κ) (v : ν) (rest : List (κ × ν)) (key : κ) :
    lookup ((k, v) :: rest) key = if k = key then some v else lookup rest key := rfl

theorem lookup_append (left right : List (κ × ν)) (key : κ) :
    lookup (left ++ right) key = (lookup left key).or (lookup right key) := by
  induction left with
  | nil => simp
  | cons entry rest ih =>
    obtain ⟨k, v⟩ := entry
    simp only [List.cons_append, lookup_cons]
    split <;> simp [ih]

theorem lookup_upsert (entries : List (κ × ν)) (key : κ) (value : ν) (other : κ) :
    lookup (upsert entries key value) other =
      if key = other then some value else lookup entries other := by
  induction entries with
  | nil => simp [upsert, lookup_cons]
  | cons entry rest ih =>
    obtain ⟨k, v⟩ := entry
    by_cases same : k = key
    · subst same
      simp only [upsert, if_true, lookup_cons]
      split <;> rfl
    · simp only [upsert, same, if_false, lookup_cons, ih]
      by_cases hit : k = other
      · subst hit
        simp [Ne.symm same]
      · simp [hit]

@[simp] theorem lookup_upsert_self (entries : List (κ × ν)) (key : κ) (value : ν) :
    lookup (upsert entries key value) key = some value := by
  simp [lookup_upsert]

variable {key : κ} {entries : List (κ × ν)} {value : ν} {entry : κ × ν}

theorem lookup_upsert_ne (entries : List (κ × ν)) {other : κ} (value : ν) (ne : key ≠ other) :
    lookup (upsert entries key value) other = lookup entries other := by
  simp [lookup_upsert, ne]

theorem lookup_remove (entries : List (κ × ν)) (key other : κ) :
    lookup (remove entries key) other = if key = other then none else lookup entries other := by
  induction entries with
  | nil => simp [remove]
  | cons entry rest ih =>
    obtain ⟨k, v⟩ := entry
    unfold remove at ih ⊢
    by_cases same : k = key
    · subst same
      simp only [List.filter_cons, ne_eq, not_true_eq_false, decide_false, Bool.false_eq_true,
        if_false, ih, lookup_cons]
      split <;> rfl
    · simp only [List.filter_cons, ne_eq, same, not_false_eq_true, decide_true, if_true,
        lookup_cons, ih]
      by_cases hit : k = other
      · subst hit
        simp [Ne.symm same]
      · simp [hit]

theorem mem_of_lookup (found : lookup entries key = some value) : (key, value) ∈ entries := by
  induction entries with
  | nil => simp at found
  | cons entry rest ih =>
    obtain ⟨k, v⟩ := entry
    rw [lookup_cons] at found
    split at found
    · rename_i same
      simp only [Option.some.injEq] at found
      simp [same, found]
    · exact .tail _ (ih found)

theorem lookup_isSome_of_mem (mem : (key, value) ∈ entries) : (lookup entries key).isSome := by
  induction entries with
  | nil => simp at mem
  | cons entry rest ih =>
    obtain ⟨k, v⟩ := entry
    rw [lookup_cons]
    split
    · rfl
    · rename_i ne
      rcases List.mem_cons.mp mem with same | later
      · simp only [Prod.mk.injEq] at same
        exact absurd same.1.symm ne
      · exact ih later

theorem lookup_eq_none :
    lookup entries key = none ↔ ∀ value, (key, value) ∉ entries := by
  constructor
  · intro absent value mem
    have := lookup_isSome_of_mem mem
    simp [absent] at this
  · intro absent
    cases found : lookup entries key with
    | none => rfl
    | some value => exact absurd (mem_of_lookup found) (absent value)

theorem mem_upsert (mem : entry ∈ upsert entries key value) :
    entry = (key, value) ∨ entry ∈ entries := by
  induction entries with
  | nil => simpa [upsert] using mem
  | cons head rest ih =>
    obtain ⟨k, v⟩ := head
    by_cases same : k = key
    · simp only [upsert, same, if_true, List.mem_cons] at mem ⊢
      tauto
    · simp only [upsert, same, if_false, List.mem_cons] at mem ⊢
      rcases mem with rfl | mem
      · exact .inr (.inl rfl)
      · rcases ih mem with rfl | mem
        · exact .inl rfl
        · exact .inr (.inr mem)

theorem mem_extend {more : List (κ × ν)} (mem : entry ∈ extend entries more) :
    entry ∈ more ∨ entry ∈ entries := by
  induction more generalizing entries with
  | nil => exact .inr mem
  | cons head rest ih =>
    simp only [extend, List.foldl_cons] at ih mem
    rcases ih mem with mem | mem
    · exact .inl (.tail _ mem)
    · rcases mem_upsert mem with rfl | mem
      · exact .inl (.head _)
      · exact .inr mem

section Unique

variable {α : Type*} [DecidableEq α]

/-- Append an element the list does not hold yet. -/
def pushUnique (items : List α) (item : α) : List α :=
  if item ∈ items then items else items ++ [item]

/-- Push every element of `more` in order. -/
def pushAll (items more : List α) : List α :=
  more.foldl pushUnique items

@[simp] theorem mem_pushUnique {items : List α} {item other : α} :
    other ∈ pushUnique items item ↔ other ∈ items ∨ other = item := by
  unfold pushUnique
  split
  · rename_i present
    constructor
    · exact .inl
    · rintro (mem | rfl)
      · exact mem
      · exact present
  · simp

@[simp] theorem mem_pushAll {items more : List α} {other : α} :
    other ∈ pushAll items more ↔ other ∈ items ∨ other ∈ more := by
  induction more generalizing items with
  | nil => simp [pushAll]
  | cons head rest ih =>
    simp only [pushAll, List.foldl_cons] at ih ⊢
    rw [ih, mem_pushUnique, List.mem_cons]
    tauto

end Unique

end FastPg.Assoc
