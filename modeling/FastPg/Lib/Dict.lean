import FastPg.Lib.Assoc

/-! # Maps with one entry per key

An association list that holds no key twice. Folding over its entries changes
what is observed at a key at most once, which is how loops over a map are read
key by key.
-/

namespace FastPg

open Assoc

structure Dict (κ ν : Type*) where
  entries : List (κ × ν)
  keyed : (entries.map Prod.fst).Nodup
  deriving DecidableEq, Repr

namespace Dict

variable {κ ν : Type*}

def empty : Dict κ ν := ⟨[], List.nodup_nil⟩

def isEmpty (dict : Dict κ ν) : Bool := dict.entries.isEmpty

variable [DecidableEq κ]

def get (dict : Dict κ ν) (key : κ) : Option ν := lookup dict.entries key

variable {entries more : List (κ × ν)}

theorem mem_keys_upsert {key other : κ} {value : ν} :
    other ∈ (upsert entries key value).map Prod.fst ↔
      other = key ∨ other ∈ entries.map Prod.fst := by
  induction entries with
  | nil => simp [upsert]
  | cons entry rest ih =>
    obtain ⟨k, v⟩ := entry
    by_cases same : k = key
    · simp [upsert, same]
    · simp only [upsert, same, if_false, List.map_cons, List.mem_cons, ih]
      tauto

theorem keyed_upsert (key : κ) (value : ν) (keyed : (entries.map Prod.fst).Nodup) :
    ((upsert entries key value).map Prod.fst).Nodup := by
  induction entries with
  | nil => simp [upsert]
  | cons entry rest ih =>
    obtain ⟨k, v⟩ := entry
    rw [List.map_cons, List.nodup_cons] at keyed
    by_cases same : k = key
    · simpa [upsert, same] using keyed
    · simp only [upsert, same, if_false, List.map_cons, List.nodup_cons, mem_keys_upsert]
      exact ⟨by simpa [same] using keyed.1, ih keyed.2⟩

theorem mem_keys_extend {other : κ} :
    other ∈ (Assoc.extend entries more).map Prod.fst ↔
      other ∈ entries.map Prod.fst ∨ other ∈ more.map Prod.fst := by
  induction more generalizing entries with
  | nil => simp [Assoc.extend]
  | cons entry rest ih =>
    simp only [Assoc.extend, List.foldl_cons] at ih ⊢
    rw [ih, mem_keys_upsert, List.map_cons, List.mem_cons]
    tauto

theorem keyed_extend (more : List (κ × ν)) (keyed : (entries.map Prod.fst).Nodup) :
    ((Assoc.extend entries more).map Prod.fst).Nodup := by
  induction more generalizing entries with
  | nil => exact keyed
  | cons entry rest ih => exact ih (keyed_upsert entry.1 entry.2 keyed)

/-- Without duplicate keys the entries written last are those written. -/
theorem lookup_extend_keyed (keyed : (more.map Prod.fst).Nodup) (key : κ) :
    lookup (Assoc.extend entries more) key = (lookup more key).or (lookup entries key) := by
  induction more generalizing entries with
  | nil => simp [Assoc.extend]
  | cons entry rest ih =>
    obtain ⟨k, v⟩ := entry
    rw [List.map_cons, List.nodup_cons] at keyed
    have tail := @ih (upsert entries k v) keyed.2
    simp only [Assoc.extend, List.foldl_cons] at tail ⊢
    rw [tail, lookup_upsert, lookup_cons]
    by_cases same : k = key
    · subst same
      have absent : lookup rest k = none :=
        lookup_eq_none.mpr fun value mem => keyed.1 (List.mem_map.mpr ⟨_, mem, rfl⟩)
      simp [absent]
    · simp [same]

def insert (dict : Dict κ ν) (key : κ) (value : ν) : Dict κ ν :=
  ⟨upsert dict.entries key value, keyed_upsert key value dict.keyed⟩

def erase (dict : Dict κ ν) (key : κ) : Dict κ ν :=
  ⟨remove dict.entries key, dict.keyed.sublist (List.filter_sublist.map Prod.fst)⟩

/-- Write every entry of another map. -/
def extend (dict more : Dict κ ν) : Dict κ ν :=
  more.entries.foldl (fun dict entry => dict.insert entry.1 entry.2) dict

@[simp] theorem get_empty (key : κ) : (empty : Dict κ ν).get key = none := rfl

@[simp] theorem get_insert (dict : Dict κ ν) (key other : κ) (value : ν) :
    (dict.insert key value).get other = if key = other then some value else dict.get other :=
  lookup_upsert dict.entries key value other

@[simp] theorem get_erase (dict : Dict κ ν) (key other : κ) :
    (dict.erase key).get other = if key = other then none else dict.get other :=
  lookup_remove dict.entries key other

variable {dict : Dict κ ν}

theorem get_of_isEmpty (nothing : dict.isEmpty = true) (key : κ) :
    dict.get key = none := by
  simp only [get, List.isEmpty_iff.mp nothing, lookup_nil]

/-- A loop over the entries that touches what is observed only at one key does
    so with the entry of that key. -/
theorem foldl_observe {β α : Type*} {f : β → κ × ν → β} {observe : β → α} {effect : ν → α → α}
    {key : κ} (step : ∀ state k value, observe (f state (k, value)) =
      if k = key then effect value (observe state) else observe state)
    (dict : Dict κ ν) (state : β) :
    observe (dict.entries.foldl f state) =
      (dict.get key).elim (observe state) fun value => effect value (observe state) := by
  obtain ⟨entries, keyed⟩ := dict
  -- After the entry of the key the rest of the list has none.
  have absent : ∀ (entries : List (κ × ν)) state, key ∉ entries.map Prod.fst →
      observe (entries.foldl f state) = observe state := by
    intro entries
    induction entries with
    | nil => exact fun _ _ => rfl
    | cons entry rest ih =>
      intro state other
      obtain ⟨k, value⟩ := entry
      rw [List.map_cons, List.mem_cons, not_or] at other
      rw [List.foldl_cons, ih _ other.2, step, if_neg (Ne.symm other.1)]
  simp only [get]
  induction entries generalizing state with
  | nil => rfl
  | cons entry rest ih =>
    obtain ⟨k, value⟩ := entry
    rw [List.map_cons, List.nodup_cons] at keyed
    rw [List.foldl_cons, lookup_cons]
    by_cases same : k = key
    · subst same
      rw [absent rest _ keyed.1, step, if_pos rfl, if_pos rfl]
      rfl
    · rw [ih _ keyed.2, step, if_neg same, if_neg same]

@[simp] theorem get_extend (dict more : Dict κ ν) (key : κ) :
    (dict.extend more).get key = (more.get key).or (dict.get key) := by
  have folded := @foldl_observe κ ν _ _ _ (fun dict entry => dict.insert entry.1 entry.2)
    (fun dict => dict.get key) (fun value _ => some value) key
    (fun state k value => get_insert state k key value) more dict
  rw [extend, folded]
  cases more.get key <;> rfl

theorem mem_entries {key : κ} {value : ν} :
    (key, value) ∈ dict.entries ↔ dict.get key = some value := by
  constructor
  · intro mem
    obtain ⟨entries, keyed⟩ := dict
    simp only [get] at mem ⊢
    induction entries with
    | nil => simp at mem
    | cons entry rest ih =>
      obtain ⟨k, v⟩ := entry
      rw [List.map_cons, List.nodup_cons] at keyed
      rw [lookup_cons]
      rcases List.mem_cons.mp mem with same | later
      · cases same
        exact if_pos rfl
      · have other : k ≠ key := by
          rintro rfl
          exact keyed.1 (List.mem_map.mpr ⟨_, later, rfl⟩)
        rw [if_neg other]
        exact ih keyed.2 later
  · exact mem_of_lookup

end Dict

end FastPg
