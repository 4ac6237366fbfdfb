import Mathlib
import FastPg.Lib.Transition

/-! # Caches of catalog lookups

A lookup reads the generation, then looks in the cache, which is emptied where it was
filled under another generation. On a miss it computes the value from the catalog,
reads the generation again and stores the value under it. The caches of columns,
indexes and primary keys all work like this; keys and values are left open here, and a
value is known by the number of commits that the catalog it was computed from had seen.
-/

namespace FastPg.Catalog.Caches

open Transition

variable {κ : Type*}

/-- Where a thread stands in a lookup; `started` counts the commits before it. A session
    with uncommitted changes passes the cache by. -/
inductive Phase (κ : Type*) where
  | idle
  | looking (key : κ) (started : Nat)
  | looked (key : κ) (started generation : Nat)
  | computing (key : κ) (started : Nat) (uncommitted : Bool)
  | computed (key : κ) (started : Nat) (uncommitted : Bool) (value : Nat)
  | storing (key : κ) (started value generation : Nat)
  | returned (key : κ) (started value : Nat)

structure System (κ : Type*) where
  commits : Nat
  generation : Nat
  cacheGeneration : Nat
  entries : κ → Option Nat
  threads : Nat → Phase κ

def System.initial : System κ := ⟨0, 1, 1, fun _ => none, fun _ => .idle⟩

inductive Event (κ : Type*) where
  | start (thread : Nat) (key : κ) (uncommitted : Bool)
  | advance (thread : Nat)
  | commit

def maxGeneration : Nat := 2 ^ 64 - 1

def bumpGeneration (generation : Nat) : Nat := max (min (generation + 1) maxGeneration) 1

namespace System

def set (system : System κ) (thread : Nat) (phase : Phase κ) : System κ :=
  { system with threads := fun other => if other = thread then phase else system.threads other }

def withCatalogLookupCache (system : System κ) (generation : Nat) : System κ :=
  if system.cacheGeneration = generation then system
  else { system with cacheGeneration := generation, entries := fun _ => none }

variable [DecidableEq κ]

def store (system : System κ) (key : κ) (value : Nat) : System κ :=
  { system with entries := fun other => if other = key then some value else system.entries other }

/-- The next step of a lookup. All reads of the catalog count as the first one. -/
def advance (system : System κ) (thread : Nat) : System κ :=
  match system.threads thread with
  | .looking key started => system.set thread (.looked key started system.generation)
  | .looked key started generation =>
    let system := system.withCatalogLookupCache generation
    match system.entries key with
    | some value => system.set thread (.returned key started value)
    | none => system.set thread (.computing key started false)
  | .computing key started uncommitted =>
    system.set thread (.computed key started uncommitted system.commits)
  | .computed key started true value => system.set thread (.returned key started value)
  | .computed key started false value =>
    system.set thread (.storing key started value system.generation)
  | .storing key started value generation =>
    ((system.withCatalogLookupCache generation).store key value).set thread
      (.returned key started value)
  | _ => system

/-- A commit holds the catalog's lock until the new generation is stored. -/
def step (system : System κ) : Event κ → Option (System κ)
  | .start thread key uncommitted => match system.threads thread with
    | .idle | .returned _ _ _ => some (system.set thread (if uncommitted
        then .computing key system.commits true else .looking key system.commits))
    | _ => none
  | .advance thread => some (system.advance thread)
  | .commit => some { system with
      commits := system.commits + 1, generation := bumpGeneration system.generation }

/-- No lookup has read the catalog, and not yet the generation it will store the value
    under; and there is a further generation. -/
def MayCommit (system : System κ) : Event κ → Prop
  | .commit => system.generation < maxGeneration ∧
      ∀ thread key started value, system.threads thread ≠ .computed key started false value
  | _ => True

end System

/-- What a thread holds is not older than its lookup, and what it will store not older
    than the generation it is stored under. -/
def Phase.Fresh (commits : Nat) : Phase κ → Prop
  | .idle => True
  | .looking _ started | .computing _ started _ => started ≤ commits
  | .looked _ started generation => started ≤ commits ∧ started + 1 ≤ generation
  | .computed _ started uncommitted value =>
    started ≤ value ∧ (uncommitted = false → value = commits)
  | .storing _ started value generation => started ≤ value ∧ generation ≤ value + 1
  | .returned _ started value => started ≤ value

structure System.Coherent (system : System κ) : Prop where
  generation : system.generation = system.commits + 1
  cached : ∀ key value, system.entries key = some value → system.cacheGeneration ≤ value + 1
  threads : ∀ thread, (system.threads thread).Fresh system.commits

namespace System.Coherent

variable {system : System κ}

theorem set (coherent : system.Coherent) (thread : Nat) {phase : Phase κ}
    (fresh : phase.Fresh system.commits) : (system.set thread phase).Coherent := by
  refine ⟨coherent.generation, coherent.cached, fun other => ?_⟩
  by_cases same : other = thread
  · simpa [System.set, same] using fresh
  · simpa [System.set, same] using coherent.threads other

theorem withCatalogLookupCache (coherent : system.Coherent) (generation : Nat) :
    (system.withCatalogLookupCache generation).Coherent ∧
      (system.withCatalogLookupCache generation).cacheGeneration = generation ∧
      (system.withCatalogLookupCache generation).commits = system.commits := by
  rw [System.withCatalogLookupCache]
  split
  · exact ⟨coherent, ‹_›, rfl⟩
  · exact ⟨⟨coherent.generation, fun _ _ => nofun, coherent.threads⟩, rfl, rfl⟩

theorem commit (coherent : system.Coherent) (may : system.MayCommit (.commit)) :
    Coherent { system with
      commits := system.commits + 1, generation := bumpGeneration system.generation } := by
  have generation := coherent.generation
  refine ⟨?_, coherent.cached, fun thread => ?_⟩
  · have below := may.1
    simp only [bumpGeneration]
    omega
  · have fresh := coherent.threads thread
    have pending := may.2 thread
    dsimp only
    cases phase : system.threads thread with
    | computed key started uncommitted value =>
      rw [phase] at fresh
      cases uncommitted with
      | true => exact ⟨fresh.1, nofun⟩
      | false => exact absurd phase (pending key started value)
    | idle => trivial
    | storing | returned =>
      rw [phase] at fresh
      exact fresh
    | looking | computing =>
      rw [phase] at fresh
      exact Nat.le_succ_of_le fresh
    | looked =>
      rw [phase] at fresh
      exact ⟨Nat.le_succ_of_le fresh.1, fresh.2⟩

variable [DecidableEq κ]

theorem store (coherent : system.Coherent) (key : κ) {value : Nat}
    (young : system.cacheGeneration ≤ value + 1) : (system.store key value).Coherent := by
  refine ⟨coherent.generation, fun other found stored => ?_, coherent.threads⟩
  by_cases same : other = key
  · simp only [System.store, same, if_true, Option.some.injEq] at stored
    exact stored ▸ young
  · simp only [System.store, same, if_false] at stored
    exact coherent.cached other found stored

theorem advance (coherent : system.Coherent) (thread : Nat) : (system.advance thread).Coherent := by
  have fresh := coherent.threads thread
  have generation := coherent.generation
  fun_cases System.advance system thread with
  | case1 key started phase =>
    rw [phase] at fresh
    exact coherent.set thread ⟨fresh, by rw [generation]; exact Nat.succ_le_succ fresh⟩
  | case2 key started read phase cached value hit =>
    rw [phase] at fresh
    obtain ⟨kept, filled, commits⟩ := coherent.withCatalogLookupCache read
    have young := kept.cached key value hit
    rw [filled] at young
    exact kept.set thread (Nat.le_of_succ_le_succ (fresh.2.trans young))
  | case3 key started read phase cached miss =>
    rw [phase] at fresh
    obtain ⟨kept, filled, commits⟩ := coherent.withCatalogLookupCache read
    exact kept.set thread (commits ▸ fresh.1)
  | case4 key started uncommitted phase =>
    rw [phase] at fresh
    exact coherent.set thread ⟨fresh, fun _ => rfl⟩
  | case5 key started value phase =>
    rw [phase] at fresh
    exact coherent.set thread fresh.1
  | case6 key started value phase =>
    rw [phase] at fresh
    exact coherent.set thread ⟨fresh.1, by rw [generation, fresh.2 rfl]⟩
  | case7 key started value read phase =>
    rw [phase] at fresh
    obtain ⟨kept, filled, -⟩ := coherent.withCatalogLookupCache read
    exact (kept.store key (filled.trans_le fresh.2)).set thread fresh.1
  | case8 => exact coherent

theorem step {event : Event κ} {next : System κ} (coherent : system.Coherent)
    (may : system.MayCommit event) (stepped : system.step event = some next) : next.Coherent := by
  cases event with
  | start thread key uncommitted =>
    have started : next = system.set thread (if uncommitted
        then .computing key system.commits true else .looking key system.commits) := by
      rw [System.step] at stepped
      split at stepped <;> simp_all
    rw [started]
    exact coherent.set thread (by split <;> exact le_rfl)
  | advance thread =>
    cases stepped
    exact coherent.advance thread
  | commit =>
    cases stepped
    exact coherent.commit may

end System.Coherent

variable [DecidableEq κ]

/-- In every run in which no commit falls between a lookup's reading of the catalog and
    of the generation, no lookup returns a value older than its start. -/
theorem lookups_coherent {system : System κ}
    (reached : Reaches System.step System.MayCommit System.initial system)
    {thread started value : Nat} {key : κ}
    (returned : system.threads thread = .returned key started value) : started ≤ value := by
  have initial : (System.initial : System κ).Coherent := ⟨rfl, fun _ _ => nofun, fun _ => trivial⟩
  have coherent : system.Coherent :=
    reached.invariant initial fun _ _ _ kept may stepped => kept.step may stepped
  have fresh := coherent.threads thread
  rw [returned] at fresh
  exact fresh

/-- A lookup after a commit, by a thread alone. -/
theorem lookup_after_commit : ∃ system : System Unit,
    Reaches System.step System.MayCommit System.initial system ∧
      system.threads 0 = .returned () 1 1 ∧ 1 ≤ 1 := by
  have committed := @Reaches.tail _ _ (System.step (κ := Unit)) System.MayCommit .initial .initial
    .commit _ .refl ⟨by decide, fun _ _ _ _ => nofun⟩ rfl
  have start (system : System Unit) : system.MayCommit (.start 0 () false) := trivial
  have next (system : System Unit) : system.MayCommit (.advance 0) := trivial
  have missed := ((committed.tail (start _) rfl).tail (next _) rfl).tail (next _) rfl
  have reached := ((missed.tail (next _) rfl).tail (next _) rfl).tail (next _) rfl
  exact ⟨_, reached, rfl, @lookups_coherent _ _ _ reached 0 1 1 () rfl⟩

/-- A commit falls between the reading of the catalog and the reading of the
    generation: the old value is stored under the new generation. -/
def storedLate : List (Event Unit) :=
  [.start 0 () false, .advance 0, .advance 0, .advance 0, .commit, .advance 0, .advance 0,
    .start 1 () false, .advance 1, .advance 1]

theorem lookup_returns_old : ∃ system, run System.step System.initial storedLate = some system ∧
    system.threads 1 = .returned () 1 0 :=
  ⟨_, rfl, rfl⟩

end FastPg.Catalog.Caches
