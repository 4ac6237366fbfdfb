import Mathlib

/-! # Reading back what was written

Readers take what they read from the front of a list. A reader reads back a value
from what was written for it if it leaves exactly what follows. Readers in a row read
back what was written in a row.
-/

namespace FastPg

open List

/-- A reader takes a value from the front of a list, or fails. -/
abbrev Scanner (σ α : Type) := StateT (List σ) Option α

namespace Scanner

variable {σ α β : Type}

def take (count : Nat) : Scanner σ (List σ) := fun input =>
  if count ≤ input.length then some (input.take count, input.drop count) else none

/-- What stands before the first `stop`, which is skipped. -/
def before [DecidableEq σ] (stop : σ) : Scanner σ (List σ) := fun input =>
  if stop ∈ input then
    some (input.takeWhile (· ≠ stop), (input.dropWhile (· ≠ stop)).drop 1)
  else none

def many (read : Scanner σ α) : Nat → Scanner σ (List α)
  | 0 => return []
  | count + 1 => do return (← read) :: (← many read count)

/-- A value that takes all of the input. -/
def whole (read : Scanner σ α) (input : List σ) : Option α :=
  match read input with
  | some (value, []) => some value
  | _ => none

/-- Values up to the end of the input, at most `fuel` of them. -/
def upToEnd (read : Scanner σ α) : Nat → List σ → Option (List α)
  | _, [] => some []
  | 0, _ :: _ => none
  | fuel + 1, input => do
    let (value, rest) ← read input
    return value :: (← upToEnd read fuel rest)

/-- The reader reads the value back from what was written for it. -/
def Decodes (read : Scanner σ α) (value : α) (written : List σ) : Prop :=
  ∀ rest, read (written ++ rest) = some (value, rest)

namespace Decodes

variable {read : Scanner σ α} {value : α} {written : List σ}

theorem pure : Decodes (pure value : Scanner σ α) value [] := fun _ => rfl

theorem bind {next : α → Scanner σ β} {value' : β} {written' : List σ}
    (first : Decodes read value written) (second : Decodes (next value) value' written') :
    Decodes (read >>= next) value' (written ++ written') := by
  intro rest
  rw [append_assoc]
  exact (congrArg (Option.bind · _) (first (written' ++ rest))).trans (second rest)

/-- A reader that ends with a value made from the one read. -/
theorem map (f : α → β) (reads : Decodes read value written) :
    Decodes (read >>= fun value => Pure.pure (f value)) (f value) written :=
  fun rest => (congrArg (Option.bind · _) (reads rest)).trans rfl

theorem take {count : Nat} (length : written.length = count) :
    Decodes (Scanner.take count) written written := by
  intro rest
  rw [Scanner.take, if_pos (by simp [length]), take_left' length, drop_left' length]

theorem before [DecidableEq σ] {stop : σ} (absent : stop ∉ written) :
    Decodes (Scanner.before stop) written (written ++ [stop]) := by
  intro rest
  have all : ∀ entry ∈ written, decide (entry ≠ stop) = true := by
    intro entry mem
    exact decide_eq_true fun same => absent (same ▸ mem)
  rw [Scanner.before, if_pos (by simp), append_assoc, takeWhile_append_of_pos all,
    dropWhile_append_of_pos all]
  simp

theorem many {ι : Type} {items : List ι} {value : ι → α} {write : ι → List σ}
    (each : ∀ item ∈ items, Decodes read (value item) (write item)) :
    Decodes (Scanner.many read items.length) (items.map value) (items.flatMap write) := by
  induction items with
  | nil => exact pure
  | cons item items ih =>
    obtain ⟨first, others⟩ := forall_mem_cons.mp each
    exact first.bind ((ih others).map (value item :: ·))

theorem whole (reads : Decodes read value written) : read.whole written = some value := by
  have read := reads []
  rw [append_nil] at read
  rw [Scanner.whole, read]

theorem upToEnd {ι : Type} {items : List ι} {value : ι → α} {write : ι → List σ} {fuel : Nat}
    (each : ∀ item ∈ items, Decodes read (value item) (write item) ∧ write item ≠ [])
    (enough : (items.flatMap write).length ≤ fuel) :
    read.upToEnd fuel (items.flatMap write) = some (items.map value) := by
  induction items generalizing fuel with
  | nil => cases fuel <;> rfl
  | cons item items ih =>
    obtain ⟨⟨reads, filled⟩, others⟩ := forall_mem_cons.mp each
    have step := reads (items.flatMap write)
    rw [flatMap_cons] at enough ⊢
    obtain ⟨entry, part, written⟩ := exists_cons_of_ne_nil filled
    rw [written, cons_append] at step enough ⊢
    rw [length_cons, length_append] at enough
    obtain ⟨fuel, rfl⟩ : ∃ smaller, fuel = smaller + 1 := ⟨fuel - 1, by omega⟩
    have rest := ih others (show _ ≤ fuel by omega)
    simp [Scanner.upToEnd, step, rest]

end Decodes

end FastPg.Scanner
