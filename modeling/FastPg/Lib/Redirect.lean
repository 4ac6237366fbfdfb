import Mathlib.Data.List.Basic
import Mathlib.Logic.Relation

/-! # Following partial maps

`follow` takes a bounded number of hops along a partial map and stops where the
map ends. `walk` does the same over two maps, the first taking precedence, and
reports which hops it took. A map whose hops are paths of another one is a
shortcut of it: every walk that ends, ends at the same place.
-/

namespace FastPg.Redirect

variable {α : Type*}

/-- Take at most `fuel` hops along `next`. -/
def follow (next : α → Option α) : Nat → α → α
  | 0, a => a
  | fuel + 1, a => match next a with
      | some b => follow next fuel b
      | none => a

/-- What is found first on the way along `next`, at no more than `fuel` places. -/
def seek {β : Type*} (next : α → Option α) (find : α → Option β) : Nat → α → Option β
  | 0, _ => none
  | fuel + 1, a => match find a with
      | some found => some found
      | none => match next a with
          | some b => seek next find fuel b
          | none => none

/-- The map that tries `upper` first. -/
def orElse (upper lower : α → Option α) (a : α) : Option α := (upper a).or (lower a)

/-- Where a walk ended, whether it took a hop of the upper map, and the points
    it left by the lower map before the first upper hop. -/
structure Trail (α : Type*) where
  final : α
  usedUpper : Bool
  visited : List α

def walk (upper lower : α → Option α) : Nat → Bool → List α → α → Trail α
  | 0, used, visited, a => ⟨a, used, visited⟩
  | fuel + 1, used, visited, a =>
    match upper a with
    | some b => walk upper lower fuel true visited b
    | none => match lower a with
        | some b => walk upper lower fuel used (if used then visited else visited ++ [a]) b
        | none => ⟨a, used, visited⟩

theorem walk_final (upper lower : α → Option α) (fuel : Nat) (used : Bool) (visited : List α)
    (a : α) : (walk upper lower fuel used visited a).final = follow (orElse upper lower) fuel a := by
  induction fuel generalizing used visited a with
  | zero => rfl
  | succ fuel ih =>
    simp only [walk, follow, orElse]
    cases hop : upper a with
    | some b => simpa using ih true visited b
    | none =>
      cases hop' : lower a with
      | some b => simpa using ih used _ b
      | none => simp

/-- A walk ends where it began, if there is no hop, or else at the target of a hop. -/
theorem follow_end (next : α → Option α) (fuel : Nat) (a : α) :
    (follow next (fuel + 1) a = a ∧ next a = none) ∨
      ∃ b, next b = some (follow next (fuel + 1) a) := by
  induction fuel generalizing a with
  | zero =>
    cases hop : next a with
    | none => exact .inl ⟨by simp [follow, hop], rfl⟩
    | some b => exact .inr ⟨a, by simp [follow, hop]⟩
  | succ fuel ih =>
    cases hop : next a with
    | none => exact .inl ⟨by simp [follow, hop], rfl⟩
    | some b =>
      have step : follow next (fuel + 2) a = follow next (fuel + 1) b := by
        simp [follow, hop]
      cases ih b with
      | inl stays => exact .inr ⟨a, by rw [step, stays.1, hop]⟩
      | inr target => exact .inr (step ▸ target)

/-- Every point a walk reports as visited was left by the lower map. -/
theorem walk_visited (upper lower : α → Option α) (fuel : Nat) (used : Bool) (visited : List α)
    (a : α) (known : ∀ b ∈ visited, (lower b).isSome) :
    ∀ b ∈ (walk upper lower fuel used visited a).visited, (lower b).isSome := by
  induction fuel generalizing used visited a with
  | zero => exact known
  | succ fuel ih =>
    unfold walk
    cases hop : upper a with
    | some b => exact ih true visited b known
    | none =>
      cases hop' : lower a with
      | none => exact known
      | some b =>
        apply ih
        intro c mem
        split at mem
        · exact known c mem
        · rcases List.mem_append.mp mem with old | new
          · exact known c old
          · rw [List.mem_singleton.mp new, hop']
            rfl

/-! ## Shortcuts -/

/-- One hop. -/
def Hop (next : α → Option α) (a b : α) : Prop := next a = some b

/-- The walk from `a` ends at `e`, in at most the given number of hops. -/
inductive Ends (next : α → Option α) : Nat → α → α → Prop where
  | stop {fuel : Nat} {a : α} (last : next a = none) : Ends next fuel a a
  | hop {fuel : Nat} {a b e : α} (first : Hop next a b) (rest : Ends next fuel b e) :
      Ends next (fuel + 1) a e

namespace Ends

variable {next next' : α → Option α} {fuel : Nat} {a b e : α}

theorem follow_eq (ends : Ends next fuel a e) : follow next fuel a = e := by
  induction ends with
  | @stop fuel a last => cases fuel <;> simp [follow, last]
  | hop first _ ih => simpa [follow, show next _ = some _ from first] using ih

theorem mono {more : Nat} (enough : fuel ≤ more) (ends : Ends next fuel a e) : Ends next more a e := by
  induction ends generalizing more with
  | stop last => exact .stop last
  | hop first _ ih =>
    obtain ⟨less, rfl⟩ := Nat.exists_eq_add_of_lt (Nat.lt_of_lt_of_le (Nat.succ_pos _) enough)
    exact .hop first (ih (by omega))

/-- From any place on the way fewer hops are left. -/
theorem after (ends : Ends next fuel a e) (path : Relation.TransGen (Hop next) a b) :
    ∃ left < fuel, Ends next left b e := by
  induction path with
  | single first =>
    cases ends with
    | stop last => simp [Hop, last] at first
    | @hop less _ _ _ first' rest =>
      cases Option.some.inj (first'.symm.trans first)
      exact ⟨less, Nat.lt_succ_self less, rest⟩
  | tail _ last ih =>
    obtain ⟨left, fewer, rest⟩ := ih
    cases rest with
    | stop ended => simp [Hop, ended] at last
    | @hop less _ _ _ last' rest =>
      cases Option.some.inj (last'.symm.trans last)
      exact ⟨less, by omega, rest⟩

end Ends

/-- Every hop of the second map is a path of the first, and it ends where the
    first does. -/
structure Shortcuts (next next' : α → Option α) : Prop where
  path : ∀ {a b}, Hop next' a b → Relation.TransGen (Hop next) a b
  last : ∀ {a}, next' a = none → next a = none

namespace Shortcuts

variable {next next' next'' : α → Option α} {fuel : Nat} {a e : α}

theorem refl : Shortcuts next next := ⟨fun hop => .single hop, fun last => last⟩

theorem trans (first : Shortcuts next next') (second : Shortcuts next' next'') :
    Shortcuts next next'' where
  path := by
    intro a b hop
    exact Relation.TransGen.closed (fun _ _ hop => first.path hop) _ _ (second.path hop)
  last := fun ended => first.last (second.last ended)

theorem none_iff (shortcuts : Shortcuts next next') : next' a = none ↔ next a = none := by
  refine ⟨shortcuts.last, fun last => ?_⟩
  cases hop : next' a with
  | none => rfl
  | some b =>
    obtain ⟨c, first, _⟩ := Relation.TransGen.head'_iff.mp (shortcuts.path hop)
    simp [Hop, last] at first

/-- A walk that ends takes no more hops over shortcuts, and ends there too. -/
theorem ends (shortcuts : Shortcuts next next') (ends : Ends next fuel a e) :
    Ends next' fuel a e := by
  induction fuel using Nat.strongRecOn generalizing a with
  | ind fuel ih =>
    cases hop : next' a with
    | none =>
      have stopped := shortcuts.last hop
      cases ends with
      | stop => exact .stop hop
      | hop first => simp [Hop, stopped] at first
    | some b =>
      obtain ⟨left, fewer, rest⟩ := ends.after (shortcuts.path hop)
      obtain ⟨more, rfl⟩ := Nat.exists_eq_add_of_lt fewer
      exact .hop hop ((ih left fewer rest).mono (by omega))

/-- Shortcuts of the lower map, where the upper one has no say. -/
theorem orElse {upper lower lower' : α → Option α} (shortcuts : Shortcuts lower lower')
    (apart : ∀ a, (upper a).isSome → lower a = none) :
    Shortcuts (orElse upper lower) (orElse upper lower') where
  path := by
    intro a b hop
    simp only [Hop, Redirect.orElse] at hop
    cases above : upper a with
    | some c =>
      refine .single ?_
      simpa [Hop, Redirect.orElse, above] using hop
    | none =>
      rw [above, Option.none_or] at hop
      refine (shortcuts.path hop).lift id fun x y step => ?_
      cases taken : upper x with
      | none => simpa [Hop, Redirect.orElse, taken] using step
      | some z => simp [Hop, apart x (by simp [taken])] at step
  last := by
    intro a ended
    simp only [Redirect.orElse, Option.or_eq_none_iff] at ended ⊢
    exact ⟨ended.1, shortcuts.last ended.2⟩

end Shortcuts

variable {upper : α → Option α} {fuel : Nat}

/-- Where the maps have no point in common, the lower one alone ends as soon. -/
theorem Ends.lower {lower : α → Option α} {a e : α} (apart : ∀ a, (upper a).isSome → lower a = none)
    (ends : Ends (orElse upper lower) fuel a e) :
    ∃ e', Ends lower fuel a e' := by
  induction ends with
  | stop last =>
    simp only [orElse, Option.or_eq_none_iff] at last
    exact ⟨_, .stop last.2⟩
  | @hop fuel a b e first _ ih =>
    cases above : upper a with
    | some c => exact ⟨a, .stop (apart a (by simp [above]))⟩
    | none =>
      obtain ⟨e', rest⟩ := ih
      exact ⟨e', .hop (by simpa [Hop, orElse, above] using first) rest⟩

theorem Ends.last {next : α → Option α} {a e : α} (ends : Ends next fuel a e) :
    next e = none := by
  induction ends with
  | stop last => exact last
  | hop _ _ ih => exact ih

/-! ## Searching along shortcuts -/

section Seek

variable {β : Type*} {next : α → Option α} {find : α → Option β} {fuel more : Nat} {a b e : α}

theorem seek_hop (missing : find a = none) (hop : Hop next a b) :
    seek next find (fuel + 1) a = seek next find fuel b := by
  have hop' : next a = some b := hop
  simp [seek, missing, hop']

theorem seek_stop (last : next a = none) : seek next find (fuel + 1) a = find a := by
  cases here : find a <;> simp [seek, here, last]

theorem seek_found {found : β} (here : find a = some found) :
    seek next find (fuel + 1) a = some found := by
  simp [seek, here]

/-- Where the walk ends, more places are not reached. -/
theorem Ends.seek_enough (ends : Ends next fuel a e) (enough : fuel ≤ more) :
    seek next find (more + 1) a = seek next find (fuel + 1) a := by
  induction ends generalizing more with
  | stop last => rw [seek_stop last, seek_stop last]
  | @hop fuel a b e first rest ih =>
    cases here : find a with
    | some found => rw [seek_found here, seek_found here]
    | none =>
      obtain ⟨less, rfl⟩ : ∃ less, more = less + 1 := ⟨more - 1, by omega⟩
      rw [seek_hop here first, seek_hop here first]
      exact ih (by omega)

/-- Places at which nothing is found can be passed over. -/
theorem Ends.seek_path {left : Nat} (ends : Ends next fuel a e)
    (path : Relation.TransGen (fun x y => Hop next x y ∧ find x = none) a b)
    (rest : Ends next left b e) : seek next find (fuel + 1) a = seek next find (left + 1) b := by
  induction path using Relation.TransGen.head_induction_on generalizing fuel with
  | single last =>
    cases ends with
    | stop stopped => simp [Hop, stopped] at last
    | @hop less _ c _ first tail =>
      cases Option.some.inj (first.symm.trans last.1)
      rw [seek_hop last.2 last.1]
      rcases Nat.le_total less left with fewer | fewer
      · exact (tail.seek_enough fewer).symm
      · exact rest.seek_enough fewer
  | head first _ ih =>
    cases ends with
    | stop stopped => simp [Hop, stopped] at first
    | @hop less _ c _ hop tail =>
      cases Option.some.inj (hop.symm.trans first.1)
      rw [seek_hop first.2 first.1]
      exact ih tail

/-- A search finds the same over shortcuts of the lower map, if nothing is found
    at the places that the lower map leaves. -/
theorem Shortcuts.seek {upper lower lower' : α → Option α} (shortcuts : Shortcuts lower lower')
    (apart : ∀ a, (upper a).isSome → lower a = none) (blind : ∀ a, (lower a).isSome → find a = none)
    (ends : Ends (Redirect.orElse upper lower) fuel a e) (enough : fuel ≤ more) :
    Redirect.seek (Redirect.orElse upper lower') find (more + 1) a =
      Redirect.seek (Redirect.orElse upper lower) find (fuel + 1) a := by
  induction fuel using Nat.strongRecOn generalizing a more with
  | ind fuel ih =>
    cases hop' : Redirect.orElse upper lower' a with
    | none => rw [seek_stop hop', seek_stop ((shortcuts.orElse apart).last hop')]
    | some b =>
      cases here : find a with
      | some found => rw [seek_found here, seek_found here]
      | none =>
        have path : Relation.TransGen
            (fun x y => Hop (Redirect.orElse upper lower) x y ∧ find x = none) a b := by
          cases above : upper a with
          | some c =>
            refine .single ⟨?_, here⟩
            simpa [Hop, Redirect.orElse, above] using hop'
          | none =>
            have below : Hop lower' a b := by
              simpa [Hop, Redirect.orElse, above] using hop'
            refine (shortcuts.path below).lift id fun x y step => ?_
            have left : lower x = some y := step
            have free : upper x = none := by
              cases taken : upper x with
              | none => rfl
              | some z => simp [apart x (by simp [taken])] at left
            exact ⟨by simp [Hop, Redirect.orElse, free, left], blind x (by simp [left])⟩
        have plain : Relation.TransGen (Hop (Redirect.orElse upper lower)) a b :=
          path.lift id fun _ _ step => step.1
        obtain ⟨left, fewer, rest⟩ := ends.after plain
        obtain ⟨less, rfl⟩ : ∃ less, more = less + 1 := ⟨more - 1, by omega⟩
        rw [seek_hop here hop', ih left fewer rest (by omega), ends.seek_path path rest]

end Seek

theorem walk_used (upper lower : α → Option α) (fuel : Nat) (visited : List α) (a : α) :
    (walk upper lower fuel true visited a).usedUpper = true := by
  induction fuel generalizing visited a with
  | zero => rfl
  | succ fuel ih =>
    unfold walk
    split
    · exact ih _ _
    · split
      · exact ih _ _
      · rfl

/-- A walk that took no upper hop leaves every visited point for its end along
    the lower map, and the upper one has no hop on the way. -/
theorem walk_paths {lower : α → Option α} {visited : List α} {a : α}
    (known : ∀ v ∈ visited, Relation.TransGen (fun x y => upper x = none ∧ Hop lower x y) v a)
    (unused : (walk upper lower fuel false visited a).usedUpper = false) :
    ∀ v ∈ (walk upper lower fuel false visited a).visited,
      Relation.TransGen (fun x y => upper x = none ∧ Hop lower x y) v
        (walk upper lower fuel false visited a).final := by
  induction fuel generalizing visited a with
  | zero => exact known
  | succ fuel ih =>
    unfold walk at unused ⊢
    cases above : upper a with
    | some b =>
      rw [above] at unused
      simp [walk_used] at unused
    | none =>
      cases hop : lower a with
      | none => exact known
      | some b =>
        simp only [above, hop, Bool.false_eq_true, if_false] at unused ⊢
        refine ih (fun v mem => ?_) unused
        rcases List.mem_append.mp mem with old | new
        · exact (known v old).tail ⟨above, hop⟩
        · rw [List.mem_singleton.mp new]
          exact .single ⟨above, hop⟩

end FastPg.Redirect
