import Mathlib.Order.Lattice
import Mathlib.Data.List.Basic
import Mathlib.Data.List.Perm.Subperm

/-! # Ordered finite sets

A set is its strictly increasing list of elements; the order is part of the
value, so iteration in either direction needs no further argument.
-/

namespace FastPg

/-- A finite set kept as a strictly increasing list. -/
structure OrdSet (α : Type*) [LinearOrder α] where
  elems : List α
  sorted : elems.Pairwise (· < ·)

namespace OrdSet

variable {α : Type*} [LinearOrder α]

def empty : OrdSet α := ⟨[], .nil⟩

instance : Inhabited (OrdSet α) := ⟨empty⟩

instance : Membership α (OrdSet α) := ⟨fun set a => a ∈ set.elems⟩

instance (a : α) (set : OrdSet α) : Decidable (a ∈ set) := inferInstanceAs (Decidable (a ∈ set.elems))

variable {a : α} {set : OrdSet α}

theorem mem_def : a ∈ set ↔ a ∈ set.elems := Iff.rfl

@[simp] theorem not_mem_empty (a : α) : a ∉ (empty : OrdSet α) := by
  simp [mem_def, empty]

/-- Place an element before the first larger one. -/
def place (a : α) : List α → List α
  | [] => [a]
  | b :: rest => if a < b then a :: b :: rest else if a = b then b :: rest else b :: place a rest

variable {items : List α}

theorem mem_place {b : α} : b ∈ place a items ↔ b = a ∨ b ∈ items := by
  induction items with
  | nil => simp [place]
  | cons c rest ih =>
    simp only [place]
    split
    · simp
    · split
      · rename_i same
        subst same
        simp
      · simp only [List.mem_cons, ih]
        tauto

theorem place_sorted (sorted : items.Pairwise (· < ·)) :
    (place a items).Pairwise (· < ·) := by
  induction items with
  | nil => simp [place]
  | cons b rest ih =>
    obtain ⟨above, tail⟩ := List.pairwise_cons.mp sorted
    simp only [place]
    split
    · rename_i below
      refine List.pairwise_cons.mpr ⟨?_, sorted⟩
      intro c mem
      rcases List.mem_cons.mp mem with rfl | mem
      · exact below
      · exact lt_trans below (above c mem)
    · split
      · exact sorted
      · rename_i notBelow ne
        refine List.pairwise_cons.mpr ⟨?_, ih tail⟩
        intro c mem
        rcases mem_place.mp mem with rfl | mem
        · exact lt_of_le_of_ne (not_lt.mp notBelow) (Ne.symm ne)
        · exact above c mem

def insert (set : OrdSet α) (a : α) : OrdSet α := ⟨place a set.elems, place_sorted set.sorted⟩

def erase (set : OrdSet α) (a : α) : OrdSet α :=
  ⟨set.elems.filter (· ≠ a), set.sorted.filter _⟩

@[simp] theorem mem_insert {b : α} : b ∈ set.insert a ↔ b = a ∨ b ∈ set :=
  mem_place

@[simp] theorem mem_erase {b : α} : b ∈ set.erase a ↔ b ∈ set ∧ b ≠ a := by
  simp [mem_def, erase]

/-- Collect the elements of a list. -/
def ofList (items : List α) : OrdSet α := items.foldl insert empty

theorem mem_foldl_insert :
    a ∈ items.foldl insert set ↔ a ∈ set ∨ a ∈ items := by
  induction items generalizing set with
  | nil => simp
  | cons b rest ih =>
    simp only [List.foldl_cons, ih, mem_insert, List.mem_cons]
    tauto

@[simp] theorem mem_ofList : a ∈ ofList items ↔ a ∈ items := by
  simp [ofList, mem_foldl_insert]

/-! ## Sizes -/

theorem place_perm (absent : a ∉ items) :
    (place a items).Perm (a :: items) := by
  induction items with
  | nil => exact .refl _
  | cons b rest ih =>
    rw [List.mem_cons, not_or] at absent
    simp only [place]
    split
    · exact .refl _
    · rw [if_neg absent.1]
      exact ((ih absent.2).cons b).trans (.swap ..)

theorem length_insert (absent : a ∉ set) :
    (set.insert a).elems.length = set.elems.length + 1 :=
  (place_perm absent).length_eq

theorem nodup (set : OrdSet α) : set.elems.Nodup := set.sorted.imp ne_of_lt

theorem length_erase (present : a ∈ set) :
    (set.erase a).elems.length = set.elems.length - 1 := by
  have erased : (set.erase a).elems = set.elems.erase a := by
    rw [set.nodup.erase_eq_filter a, erase]
    exact List.filter_congr fun b _ => by simp [bne, beq_eq_decide]
  rw [erased, List.length_erase_of_mem present]

theorem length_ofList (distinct : items.Nodup) :
    (ofList items).elems.length = items.length := by
  have perm : (ofList items).elems.Perm items :=
    (List.perm_ext_iff_of_nodup (ofList items).nodup distinct).mpr fun _ => mem_ofList
  exact perm.length_eq

theorem length_ofList_le (items : List α) : (ofList items).elems.length ≤ items.length :=
  ((ofList items).nodup.subperm fun _ mem => mem_ofList.mp mem).length_le

theorem ext {a b : OrdSet α} (same : ∀ x, x ∈ a ↔ x ∈ b) : a = b := by
  obtain ⟨left, sorted⟩ := a
  obtain ⟨right, sorted'⟩ := b
  have perm : left.Perm right :=
    (List.perm_ext_iff_of_nodup (sorted.imp ne_of_lt) (sorted'.imp ne_of_lt)).mpr same
  have equal : left = right :=
    perm.eq_of_pairwise (fun _ _ _ _ below above => absurd above (lt_asymm below)) sorted sorted'
  subst equal
  rfl

/-! ## Searching upwards -/

/-- The first element that is not below a member is the member itself. -/
theorem find?_le (present : a ∈ set) :
    set.elems.find? (fun b => decide (a ≤ b)) = some a := by
  obtain ⟨before, after, split⟩ := List.append_of_mem (mem_def.mp present)
  have sorted := set.sorted
  rw [split, List.pairwise_append] at sorted
  have below : before.find? (fun b => decide (a ≤ b)) = none :=
    List.find?_eq_none.mpr fun b mem => by
      simpa using sorted.2.2 b mem a (List.mem_cons_self ..)
  simp [split, List.find?_append, below]

end OrdSet

end FastPg
