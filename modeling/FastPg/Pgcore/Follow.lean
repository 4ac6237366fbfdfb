import FastPg.Lib.Transition
import FastPg.Pgcore.Backend

/-! # Storage follows the transaction outcome

The levels of storage are those of the open transaction, except that storage
may not have opened its first level yet, and that an aborted block may leave
levels behind until it is exited. Every command keeps them so, as long as no
`BEGIN` finds changes it would publish and no `COPY` bracket meets a block that
storage does not know to be explicit.
-/

namespace FastPg.Pgcore

open Transition List Option

/-! ## Storage calls -/

namespace Store

variable (store : Store)

/-- Everything published, with everything that would be. -/
def total : List Change := store.published ++ store.stack.reverse.flatten

@[simp] theorem total_subxactCommit : store.subxactCommit.total = store.total := by
  unfold subxactCommit
  split
  next levels => simp [total, levels]
  next => rfl

@[simp] theorem total_times_subxactCommit (count : Nat) :
    (times subxactCommit count store).total = store.total := by
  induction count generalizing store with
  | zero => rfl
  | succ count ih =>
    rw [times, ih]
    exact store.total_subxactCommit

@[simp] theorem total_xactCommitIfImplicit : store.xactCommitIfImplicit.total = store.total := by
  obtain ⟨stack, explicit, published⟩ := store
  cases explicit with
  | true => rfl
  | false =>
    match stack with
    | [] => rfl
    | [] :: outer => simp [xactCommitIfImplicit, commitEmptyImplicitTransaction, total]
    | (_ :: _) :: outer =>
      simp [xactCommitIfImplicit, commitEmptyImplicitTransaction, total, commitAll]

/-- Committing everything publishes the total. -/
theorem xactCommit_eq : store.xactCommit = ⟨[], false, store.total⟩ := rfl

/-- With at most one level left, the commit of an implicit transaction leaves
    nothing open. -/
theorem xactCommitIfImplicit_eq (implicit : store.explicit = false)
    (short : store.stack.length ≤ 1) : store.xactCommitIfImplicit = ⟨[], false, store.total⟩ := by
  obtain ⟨stack, explicit, published⟩ := store
  cases implicit
  match stack with
  | [] => simp [xactCommitIfImplicit, commitEmptyImplicitTransaction, total]
  | [[]] => simp [xactCommitIfImplicit, commitEmptyImplicitTransaction, total]
  | [_ :: _] => simp [xactCommitIfImplicit, commitEmptyImplicitTransaction, total, commitAll]
  | _ :: _ :: _ => simp at short

@[simp] theorem subxactAbort_published : store.subxactAbort.published = store.published := by
  unfold subxactAbort
  split <;> rfl

@[simp] theorem times_subxactAbort_published (count : Nat) :
    (times subxactAbort count store).published = store.published := by
  induction count generalizing store with
  | zero => rfl
  | succ count ih => simp [times, ih]

@[simp] theorem xactAbortIfImplicit_published :
    store.xactAbortIfImplicit.published = store.published := by
  unfold xactAbortIfImplicit
  split <;> rfl

@[simp] theorem times_subxactCommit_published (count : Nat) :
    (times subxactCommit count store).published = store.published := by
  induction count generalizing store with
  | zero => rfl
  | succ count ih =>
    rw [times, ih]
    unfold subxactCommit
    split <;> rfl

theorem xactAbort_eq : store.xactAbort = ⟨[], false, store.published⟩ := rfl

/-- Releasing the levels above `parent`, innermost first. -/
theorem times_subxactCommit {count : Nat} {inner : List (List Change)} (long : inner.length = count)
    (parent : List Change) (outer : List (List Change)) (explicit : Bool) (published : List Change) :
    times subxactCommit count ⟨inner ++ parent :: outer, explicit, published⟩ =
      ⟨(parent ++ inner.reverse.flatten) :: outer, explicit, published⟩ := by
  induction count generalizing inner with
  | zero => simp [times, length_eq_zero_iff.mp long]
  | succ count ih =>
    match inner with
    | [top] => simp_all [times, subxactCommit]
    | top :: next :: rest =>
      -- The first release merges `top` into `next`.
      have merged := @ih ((next ++ top) :: rest) (by simpa using long)
      simpa [times, subxactCommit] using merged

theorem times_subxactAbort (inner : List (List Change)) (parent : List Change)
    (outer : List (List Change)) (explicit : Bool) (published : List Change) :
    times subxactAbort inner.length ⟨inner ++ parent :: outer, explicit, published⟩ =
      ⟨parent :: outer, explicit, published⟩ := by
  induction inner with
  | nil => rfl
  | cons top rest ih =>
    cases rest with
    | nil => rfl
    | cons next rest => simpa [times, subxactAbort] using ih

end Store

/-! ## How the levels correspond -/

/-- Storage holds the changes of the levels, or has opened no level yet. -/
def Aligned (stack : List (List Change)) (levels : List Level) : Prop :=
  stack = levels.map Level.changes ∨ (stack = [] ∧ levels.map Level.changes = [[]])

/-- The outermost level is the transaction itself. -/
def Rooted : List Level → Prop
  | [] => False
  | [bottom] => bottom.savepoint = none
  | _ :: next :: outer => Rooted (next :: outer)

/-- Storage corresponds to the open transaction. -/
inductive Tracks : Sql → Store → Prop where
  | idle {failed : Bool} {committed : List Change} :
      Tracks ⟨.idle, failed, [], committed⟩ ⟨[], false, committed⟩
  | command {block : TransactionBlock} {stack : List (List Change)} {changes committed : List Change}
      (outside : block = .started ∨ block = .implicit) (aligned : Aligned stack [⟨none, changes⟩]) :
      Tracks ⟨block, false, [⟨none, changes⟩], committed⟩ ⟨stack, false, committed⟩
  | live {levels : List Level} {stack : List (List Change)} {explicit : Bool}
      {committed : List Change} (rooted : Rooted levels) (aligned : Aligned stack levels) :
      Tracks ⟨.explicit, false, levels, committed⟩ ⟨stack, explicit, committed⟩
  /-- What storage still holds of an aborted block is dropped when it is exited. -/
  | lost {level : Level} {stack : List (List Change)} {explicit : Bool} {committed : List Change}
      (root : level.savepoint = none) (cleared : level.changes = [])
      (dropped : explicit = false → stack = []) :
      Tracks ⟨.explicit, true, [level], committed⟩ ⟨stack, explicit, committed⟩
  | sublost {top : Level} {outer : List Level} {explicit : Bool} {committed : List Change}
      (cleared : top.changes = []) (rooted : Rooted outer) :
      Tracks ⟨.explicit, true, top :: outer, committed⟩
        ⟨outer.map Level.changes, explicit, committed⟩

variable {outer inner : List Level} {name : SavepointName}

theorem Tracks.published {sql : Sql} {store : Store} (tracks : Tracks sql store) :
    store.published = sql.committed := by
  cases tracks <;> rfl

theorem Rooted.cons {levels : List Level} (rooted : Rooted levels) (level : Level) :
    Rooted (level :: levels) := by
  cases levels with
  | nil => exact rooted.elim
  | cons next outer => exact rooted

variable {levels : List Level} {stack : List (List Change)}

theorem Rooted.ne_nil (rooted : Rooted levels) : levels ≠ [] := by
  rintro rfl
  exact rooted

/-- What a commit would publish. -/
theorem Aligned.total (aligned : Aligned stack levels) (explicit : Bool) (committed : List Change) :
    Store.total ⟨stack, explicit, committed⟩ =
      committed ++ (levels.reverse.map Level.changes).flatten := by
  rcases aligned with rfl | ⟨rfl, empty⟩
  · simp [Store.total]
  · rw [map_reverse, empty]
    rfl

theorem Aligned.length_le (aligned : Aligned stack levels) : stack.length ≤ levels.length := by
  rcases aligned with rfl | ⟨rfl, -⟩ <;> simp

/-- Once storage has a level, it has them all. -/
theorem Aligned.ensured (aligned : Aligned stack levels) (some : levels ≠ []) (explicit : Bool)
    (published : List Change) :
    Store.ensureTransaction ⟨stack, explicit, published⟩ =
      ⟨levels.map Level.changes, explicit, published⟩ := by
  rcases aligned with rfl | ⟨rfl, empty⟩
  · cases levels with
    | nil => exact absurd rfl some
    | cons level outer => rfl
  · rw [empty]
    rfl

theorem Aligned.write {top : Level} (aligned : Aligned stack (top :: outer)) (rows : List Change)
    (explicit : Bool) (published : List Change) :
    ∃ stack', Store.write ⟨stack, explicit, published⟩ rows = ⟨stack', explicit, published⟩ ∧
      Aligned stack' ({ top with changes := top.changes ++ rows } :: outer) := by
  unfold Store.write
  split
  next none =>
    refine ⟨stack, rfl, ?_⟩
    simpa [none] using aligned
  next =>
    rw [aligned.ensured (by simp)]
    exact ⟨_, rfl, .inl rfl⟩

theorem splitAt_spec (found : Sql.splitAt name levels = some (inner, outer)) :
    levels = inner ++ outer ∧ inner ≠ [] ∧ (Rooted levels → Rooted outer) := by
  induction levels generalizing inner with
  | nil => cases found
  | cons level rest ih =>
    unfold Sql.splitAt at found
    split at found
    next named =>
      cases found
      refine ⟨rfl, by simp, fun rooted => ?_⟩
      cases outer with
      | nil => simp [named, Rooted] at rooted
      | cons next outer => exact rooted
    next =>
      obtain ⟨⟨tail, below⟩, deeper, same⟩ := map_eq_some_iff.mp found
      cases same
      obtain ⟨rfl, some, deeperRooted⟩ := ih deeper
      refine ⟨rfl, by simp, fun rooted => deeperRooted ?_⟩
      cases tail with
      | nil => exact absurd rfl some
      | cons next tail => exact rooted

/-- A named savepoint leaves a level outside it, so storage has every level. -/
theorem Aligned.of_splitAt (aligned : Aligned stack levels) (rooted : Rooted levels)
    (found : Sql.splitAt name levels = some (inner, outer)) :
    ∃ parent rest, outer = parent :: rest ∧ Rooted (parent :: rest) ∧
      stack = inner.map Level.changes ++ parent.changes :: rest.map Level.changes := by
  obtain ⟨rfl, some, outside⟩ := splitAt_spec found
  cases outer with
  | nil => exact (outside rooted).elim
  | cons parent rest =>
    refine ⟨parent, rest, rfl, outside rooted, ?_⟩
    rcases aligned with rfl | ⟨-, single⟩
    · simp
    · have long := congrArg List.length single
      have inside := length_pos_of_ne_nil some
      simp only [length_map, length_append, length_cons, length_nil] at long
      omega

namespace Backend

/-- The storage of a backend corresponds to its transaction. -/
def Follows (backend : Backend) : Prop := Tracks backend.sql backend.store

variable {pending : List Statement}

theorem Follows.start {backend : Backend} (follows : backend.Follows) : backend.start.Follows := by
  obtain ⟨sql, store, pending⟩ := backend
  have kept := follows
  cases follows with
  | idle => exact .command (.inl rfl) (.inr ⟨rfl, rfl⟩)
  | command outside aligned => rcases outside with rfl | rfl <;> exact kept
  | live | lost | sublost => exact kept

variable {backend : Backend} {name : SavepointName}

/-- A transaction outside a block is published as it ends. -/
theorem onCommit_command {block : TransactionBlock} {changes committed : List Change}
    (aligned : Aligned stack [⟨none, changes⟩]) :
    onCommit ⟨⟨block, false, [⟨none, changes⟩], committed⟩, ⟨stack, false, committed⟩, pending⟩ =
      ⟨[], false, committed ++ changes⟩ := by
  have short : stack.length ≤ 1 := aligned.length_le
  have all := aligned.total false committed
  unfold onCommit
  simp only [length_singleton, Nat.sub_self, Store.times]
  rw [Store.xactCommitIfImplicit_eq _ rfl short, all]
  simp

/-- What a statement of the loop may find, if it is a `BEGIN`: a block that
    storage knows to be explicit, or a transaction that has changed nothing and
    has no savepoint. -/
def Careful (backend : Backend) : Statement → Prop
  | .begin _ optionsFail => backend.store.explicit = true ∨
      (optionsFail = false ∧ backend.sql.changes = [] ∧ backend.sql.levels.length ≤ 1)
  | .copy .. => False
  | _ => True

/-- The backend follows once the statement is completed, or aborted. -/
def Settles (result : Backend × Bool) : Prop :=
  if result.2 then result.1.Follows else result.1.abort.Follows

/-- After the end of a transaction storage holds nothing. -/
theorem follows_ended {sql : Sql} {pending : List Statement} (idle : sql.block = .idle)
    (none : sql.levels = []) (chained : Bool) :
    Follows ⟨if chained then sql.chain else sql, ⟨[], false, sql.committed⟩, pending⟩ := by
  obtain ⟨block, failed, levels, committed⟩ := sql
  cases idle
  cases none
  cases chained with
  | true => exact .live rfl (.inr ⟨rfl, rfl⟩)
  | false => exact .idle

theorem onAbort_published (backend : Backend) :
    backend.onAbort.published = backend.store.published := by
  unfold onAbort
  split
  · rfl
  · simp

/-- Storage and the block both start a transaction from one without changes. -/
theorem xactBegin_fresh {level : Level} (aligned : Aligned stack [level])
    (none : level.changes = []) (published : List Change) :
    Store.xactBegin ⟨stack, false, published⟩ = ⟨[[]], true, published⟩ := by
  rcases aligned with rfl | ⟨rfl, -⟩
  · simp [none, Store.xactBegin, Store.xactCommitIfImplicit, Store.commitEmptyImplicitTransaction,
      Store.ensureTransaction]
  · rfl

/-- The commit of a live block publishes all its changes. -/
theorem onCommit_xactCommit {backend : Backend} {levels : List Level}
    (aligned : Aligned backend.store.stack levels)
    (published : backend.store.published = backend.sql.committed)
    (same : backend.sql.levels = levels) :
    backend.onCommit.xactCommit = ⟨[], false, backend.sql.committed ++ backend.sql.changes⟩ := by
  have all := aligned.total backend.store.explicit backend.store.published
  rw [Store.xactCommit_eq]
  unfold onCommit Sql.changes
  rw [Store.total_xactCommitIfImplicit, Store.total_times_subxactCommit, same, ← published]
  exact congrArg (Store.mk [] false) all

/-- An error outside a block, after a forced abort of storage. -/
theorem abort_forced {sql : Sql} {store : Store}
    (outside : sql.block = .started ∨ sql.block = .implicit)
    (published : store.published = sql.committed) :
    Follows (Backend.abort ⟨sql, store.xactAbort, pending⟩) := by
  obtain ⟨block, failed, levels, committed⟩ := sql
  cases published
  rcases outside with rfl | rfl
  · exact .idle
  · exact .idle

/-- The end of a transaction whose changes are dropped. -/
theorem follows_dropped (published : backend.store.published = backend.sql.committed)
    (chained : Bool) :
    Follows { backend with
      sql := if chained then backend.sql.abortTransaction.chain else backend.sql.abortTransaction
      store := backend.onAbort.xactAbort } := by
  have none : backend.onAbort.xactAbort = ⟨[], false, backend.sql.abortTransaction.committed⟩ := by
    rw [Store.xactAbort_eq, onAbort_published, published]
    rfl
  rw [none]
  exact follows_ended rfl rfl chained

theorem splitAt_single {level : Level} (root : level.savepoint = none) :
    Sql.splitAt name [level] = none := by
  simp [Sql.splitAt, root]

variable (follows : backend.Follows)
include follows

theorem Follows.beginImplicit : backend.beginImplicit.Follows := by
  obtain ⟨sql, store, pending⟩ := backend
  have kept := follows
  cases follows with
  | idle => exact .idle
  | command outside aligned =>
    rcases outside with rfl | rfl <;> exact .command (.inr rfl) aligned
  | live | lost | sublost => exact kept

theorem Follows.endImplicit : backend.endImplicit.Follows := by
  obtain ⟨sql, store, pending⟩ := backend
  have kept := follows
  cases follows with
  | idle => exact .idle
  | command outside aligned =>
    rcases outside with rfl | rfl <;> exact .command (.inl rfl) aligned
  | live | lost | sublost => exact kept

theorem Follows.finish : backend.finish.Follows := by
  obtain ⟨sql, store, pending⟩ := backend
  have kept := follows
  cases follows with
  | idle => exact .idle
  | command outside aligned =>
    rcases outside with rfl | rfl
    · unfold Follows Backend.finish
      dsimp only
      rw [onCommit_command aligned]
      simpa [Sql.finish, Sql.commitTransaction, Sql.changes] using Tracks.idle
    · exact .command (.inr rfl) aligned
  | live | lost | sublost => exact kept

theorem Follows.abort : backend.abort.Follows := by
  obtain ⟨sql, store, pending⟩ := backend
  cases follows with
  | idle => exact .idle
  | command outside aligned => rcases outside with rfl | rfl <;> exact .idle
  | @live levels stack explicit committed rooted aligned =>
    match levels with
    | [] => exact rooted.elim
    | [top] =>
      cases explicit with
      | true => exact .lost rooted rfl (fun implicit => by cases implicit)
      | false => exact .lost rooted rfl (fun _ => rfl)
    | top :: next :: outer =>
      rcases aligned with rfl | ⟨-, single⟩
      · exact .sublost rfl rooted
      · simp at single
  | lost root _ dropped => exact .lost root rfl dropped
  | @sublost top outer explicit committed _ rooted =>
    match outer with
    | [] => exact rooted.elim
    | next :: outer => exact .sublost rfl rooted

theorem Follows.settles (ok : Bool) :
    Settles (backend, ok) := by
  cases ok with
  | true => exact follows
  | false => exact follows.abort

theorem begin_settles {bare optionsFail : Bool}
    (open_ : backend.sql.block ≠ .idle) (careful : backend.Careful (.begin bare optionsFail)) :
    Settles (backend.execute (.begin bare optionsFail)) := by
  obtain ⟨sql, store, pending⟩ := backend
  cases follows with
  | idle => exact absurd rfl open_
  | @command block stack changes committed outside aligned =>
    rcases careful with known | ⟨rfl, none, -⟩
    · cases known
    · have empty : changes = [] := by simpa [Sql.changes] using none
      have begun : Follows ⟨⟨.explicit, false, [⟨Option.none, changes⟩], committed⟩,
          Store.xactBegin ⟨stack, false, committed⟩, pending⟩ := by
        rw [xactBegin_fresh aligned empty]
        exact .live rfl (.inl (by simp [empty]))
      rcases outside with rfl | rfl <;> exact begun
  | @live levels stack explicit committed rooted aligned =>
    apply Follows.settles
    cases explicit with
    | true =>
      have same : Store.xactBegin ⟨stack, true, committed⟩ =
          ⟨levels.map Level.changes, true, committed⟩ := aligned.ensured rooted.ne_nil true _
      dsimp only
      rw [same]
      exact .live rooted (.inl rfl)
    | false =>
      rcases careful with known | ⟨-, none, single⟩
      · cases known
      · match levels with
        | [level] =>
          have empty : level.changes = [] := by simpa [Sql.changes] using none
          dsimp only
          rw [xactBegin_fresh aligned empty]
          exact .live rooted (.inl (by simp [empty]))
        | [] => exact rooted.elim
        | _ :: _ :: _ => simp at single
  | @lost level stack explicit committed root cleared dropped =>
    apply Follows.settles
    cases explicit with
    | true =>
      obtain ⟨stack', same⟩ : ∃ stack', Store.xactBegin ⟨stack, true, committed⟩ =
          ⟨stack', true, committed⟩ := by
        cases stack with
        | nil => exact ⟨_, rfl⟩
        | cons top outer => exact ⟨_, rfl⟩
      dsimp only
      rw [same]
      exact .lost root cleared (fun implicit => by cases implicit)
    | false =>
      rw [dropped rfl]
      exact .lost root cleared (fun implicit => by cases implicit)
  | @sublost top outer explicit committed cleared rooted =>
    apply Follows.settles
    match outer with
    | [] => exact rooted.elim
    | next :: outer =>
      rcases careful with known | ⟨-, -, single⟩
      · cases known
        exact .sublost cleared rooted
      · simp at single

theorem commit_settles {chained fails : Bool}
    (open_ : backend.sql.block ≠ .idle) : Settles (backend.execute (.commit chained fails)) := by
  obtain ⟨sql, store, pending⟩ := backend
  have dropped := @follows_dropped ⟨sql, store, pending⟩ follows.published chained
  have committed := @onCommit_xactCommit ⟨sql, store, pending⟩ sql.levels
  have kept := follows
  cases follows with
  | idle => exact absurd rfl open_
  | @command block stack changes published outside aligned =>
    cases chained with
    | true => rcases outside with rfl | rfl <;> exact kept.abort
    | false =>
      have ended : Follows ⟨⟨.idle, false, [], published ++ changes⟩,
        ⟨[], false, published ++ changes⟩, pending⟩ := .idle
      rcases outside with rfl | rfl
      · -- Nothing was open: the command commits by itself.
        change Follows ⟨Sql.commitTransaction _, Store.xactAbort (onCommit _), _⟩
        rw [onCommit_command aligned]
        simpa [Sql.commitTransaction, Sql.changes, Store.xactAbort_eq] using ended
      · cases fails with
        | true => exact abort_forced (.inr rfl) (onAbort_published _)
        | false =>
          change Follows ⟨Sql.commitTransaction _, Store.xactCommit (onCommit _), _⟩
          rw [committed aligned rfl rfl]
          simpa [Sql.commitTransaction, Sql.changes] using ended
  | @live levels stack explicit published rooted aligned =>
    cases fails with
    | true => exact abort_forced (.inl rfl) (by simp)
    | false =>
      have result := @follows_ended (Sql.commitTransaction ⟨.explicit, false, levels, published⟩)
        pending rfl rfl chained
      change Follows ⟨_, Store.xactCommit (onCommit _), _⟩
      rw [committed aligned rfl rfl]
      exact result
  | lost => exact dropped
  | sublost => exact dropped

theorem rollback_settles {chained : Bool}
    (open_ : backend.sql.block ≠ .idle) : Settles (backend.execute (.rollback chained)) := by
  obtain ⟨sql, store, pending⟩ := backend
  have dropped := @follows_dropped ⟨sql, store, pending⟩ follows.published chained
  have kept := follows
  cases follows with
  | idle => exact absurd rfl open_
  | command outside =>
    cases chained with
    | true => rcases outside with rfl | rfl <;> exact kept.abort
    | false => rcases outside with rfl | rfl <;> exact dropped
  | live | lost | sublost =>
    cases chained with
    | true => exact dropped
    | false => exact dropped

theorem savepoint_settles
    (sane : backend.sql.failed = false) : Settles (backend.execute (.savepoint name)) := by
  obtain ⟨sql, store, pending⟩ := backend
  have failure := follows.abort
  cases follows with
  | idle => exact failure
  | command outside aligned =>
    rcases outside with rfl | rfl <;> exact failure
  | @live levels stack explicit committed rooted aligned =>
    have opened : Store.subxactBegin ⟨stack, explicit, committed⟩ =
        ⟨[] :: levels.map Level.changes, explicit, committed⟩ := by
      unfold Store.subxactBegin
      rw [aligned.ensured rooted.ne_nil]
    change Follows ⟨_, Store.subxactBegin _, _⟩
    rw [opened]
    exact .live (rooted.cons _) (.inl rfl)
  | lost | sublost => cases sane

theorem release_settles
    (sane : backend.sql.failed = false) : Settles (backend.execute (.release name)) := by
  cases found : Sql.splitAt name backend.sql.levels with
  | none => simpa [Settles, execute, Sql.execute, found] using follows.abort
  | some split =>
    obtain ⟨inner, outer⟩ := split
    obtain ⟨sql, store, pending⟩ := backend
    cases follows with
    | idle => cases found
    | command => simp [splitAt_single] at found
    | @live levels stack explicit committed rooted aligned =>
      obtain ⟨parent, rest, rfl, below, rfl⟩ := aligned.of_splitAt rooted found
      have merged := Store.times_subxactCommit (@List.length_map _ _ inner Level.changes)
        parent.changes (rest.map Level.changes) explicit committed
      have result : Tracks ⟨.explicit, false, Sql.releaseInto inner (parent :: rest), committed⟩
          ⟨(parent.changes ++ (inner.map Level.changes).reverse.flatten) ::
            rest.map Level.changes, explicit, committed⟩ := by
        refine .live ?_ (.inl (by simp [Sql.releaseInto]))
        cases rest with
        | nil => exact below
        | cons next rest => exact below
      simp only [Settles, execute, Sql.execute, found, merged]
      exact result
    | lost | sublost => cases sane

theorem rollbackTo_settles : Settles (backend.execute (.rollbackTo name)) := by
  cases found : Sql.splitAt name backend.sql.levels with
  | none => simpa [Settles, execute, Sql.execute, found] using follows.abort
  | some split =>
    obtain ⟨inner, outer⟩ := split
    obtain ⟨sql, store, pending⟩ := backend
    have restarted : ∀ (parent : Level) (rest : List Level) (explicit : Bool)
        (committed : List Change), Rooted (parent :: rest) →
        Tracks ⟨.explicit, false, ⟨some name, []⟩ :: parent :: rest, committed⟩
          (Store.subxactBegin ⟨parent.changes :: rest.map Level.changes, explicit, committed⟩) :=
      fun _ _ _ _ below => .live (below.cons _) (.inl rfl)
    cases follows with
    | idle => cases found
    | command => simp [splitAt_single] at found
    | lost root => simp [splitAt_single root] at found
    | @live levels stack explicit committed rooted aligned =>
      obtain ⟨parent, rest, rfl, below, rfl⟩ := aligned.of_splitAt rooted found
      have dropped := Store.times_subxactAbort (inner.map Level.changes) parent.changes
        (rest.map Level.changes) explicit committed
      rw [length_map] at dropped
      simp only [Settles, execute, Sql.execute, found, unaborted, Bool.false_eq_true, if_false,
        Nat.sub_zero, dropped]
      exact restarted parent rest explicit committed below
    | @sublost top outer' explicit committed _ rooted =>
      obtain ⟨same, some, outside⟩ := splitAt_spec found
      have below := outside (rooted.cons top)
      cases inner with
      | nil => exact absurd rfl some
      | cons aborted inner =>
        -- The innermost level is aborted already and takes no callback.
        obtain ⟨rfl, rfl⟩ := cons.inj same
        cases outer with
        | nil => exact below.elim
        | cons parent rest =>
          have dropped := Store.times_subxactAbort (inner.map Level.changes) parent.changes
            (rest.map Level.changes) explicit committed
          rw [length_map] at dropped
          simp only [append_eq] at found
          simp only [Settles, execute, Sql.execute, found, unaborted, if_true,
            length_cons, Nat.add_sub_cancel, append_eq, map_append,
            map_cons, dropped]
          exact restarted parent rest explicit committed below

theorem change_settles {rows : List Change} {fails : Bool} (open_ : backend.sql.block ≠ .idle)
    (sane : backend.sql.failed = false) : Settles (backend.execute (.change rows fails)) := by
  obtain ⟨sql, store, pending⟩ := backend
  apply Follows.settles
  cases follows with
  | idle => exact absurd rfl open_
  | @command block stack changes committed outside aligned =>
    obtain ⟨stack', written, aligned'⟩ := aligned.write rows false committed
    change Tracks _ (Store.write _ _)
    rw [written]
    exact .command outside aligned'
  | @live levels stack explicit committed rooted aligned =>
    cases levels with
    | nil => exact rooted.elim
    | cons top outer =>
      obtain ⟨stack', written, aligned'⟩ := aligned.write rows explicit committed
      change Tracks _ (Store.write _ _)
      rw [written]
      refine .live ?_ aligned'
      cases outer with
      | nil => exact rooted
      | cons next outer => exact rooted
  | lost | sublost => cases sane

/-- Every statement but a `COPY`, in a started command that does not reject it. -/
theorem execute_settles {statement : Statement}
    (open_ : backend.sql.block ≠ .idle) (allowed : backend.sql.failed = false ∨ statement.exits = true)
    (careful : backend.Careful statement) : Settles (backend.execute statement) := by
  cases statement with
  | begin => exact begin_settles follows open_ careful
  | commit => exact commit_settles follows open_
  | rollback => exact rollback_settles follows open_
  | savepoint =>
    have sane := allowed.resolve_right Bool.false_ne_true
    exact savepoint_settles follows sane
  | release =>
    have sane := allowed.resolve_right Bool.false_ne_true
    exact release_settles follows sane
  | rollbackTo => exact rollbackTo_settles follows
  | change =>
    have sane := allowed.resolve_right Bool.false_ne_true
    exact change_settles follows open_ sane
  | copy => exact careful.elim

end Backend

end FastPg.Pgcore
