import FastPg.Storage.Lossless

/-! # Any sequence of page operations

Appends, state changes and restores in any order keep the byte extents of the
line pointers apart, aligned and counted under their states, and a tuple can be
read back until it dies. A refused append leaves the page as it was unless the
refusal came after the bytes were written.
-/

namespace FastPg.Storage.Page

open List

inductive PageOp where
  | append (tuple : Bytes) (state : LinePointerState)
  | appendInput (input : RowInput) (state : LinePointerState)
  | markDead (offset : Nat)
  | markLive (offset : Nat)
  | restore (checkpoint : PageCheckpoint)

/-- The bytes an append brings. A row is written in place with the length
    `tuple_storage_len` gave, which the writer never refuses. -/
def PageOp.appends : PageOp → Option (Bytes × LinePointerState)
  | .append tuple state => some (tuple, state)
  | .appendInput input state => (encodeTuple input).map (·, state)
  | _ => none

/-- The page after an operation, with the tid an append handed out. -/
def step (page : Page) (op : PageOp) : Page × Option Tid :=
  match op.appends, op with
  | some (tuple, state), _ => page.appendTupleWithState tuple state
  | none, .markDead offset => ((page.markDead offset).1, none)
  | none, .markLive offset => ((page.markLive offset).1, none)
  | none, .restore checkpoint => (page.restoreToPreservingTidSpace checkpoint, none)
  | none, _ => (page, none)

def run (page : Page) (ops : List PageOp) : Page := ops.foldl (fun page op => (page.step op).1) page

/-- Whether an operation marks the tuple at an offset dead. -/
def PageOp.kills (offset : Nat) : PageOp → Prop
  | .markDead other => other = offset
  | .restore checkpoint => checkpoint.lineCount < offset
  | _ => False

def extent (line : LinePointer) : Nat × Nat := (line.offset, line.offset + line.len)

def extents (page : Page) : List (Nat × Nat) := page.linePointers.map extent

def tupleBytes (page : Page) : LinePointerState → Nat
  | .pending => page.pendingTupleBytes
  | .live => page.liveTupleBytes
  | .dead => page.deadTupleBytes

/-- Ranges follow each other at aligned positions, and each counter is the total
    length of its lines. -/
structure Sound (page : Page) : Prop where
  disjoint : page.extents.Pairwise fun a b => a.2 ≤ b.1
  aligned : ∀ range ∈ page.extents, datumAlignment ∣ range.1
  counted : ∀ state, page.tupleBytes state = stateBytes page.linePointers state

variable {page page' : Page} {tuple : Bytes} {state : LinePointerState} {result : Option Tid}
  {offset : Nat} {line : LinePointer} {op : PageOp}

theorem extents_end {range : Nat × Nat} (member : range ∈ page.extents) : range.2 ≤ page.used := by
  obtain ⟨line, stored, rfl⟩ := mem_map.mp member
  exact page.within line stored

theorem Sound.of_extents (sound : page.Sound) (same : page'.extents = page.extents)
    (counted : ∀ state, page'.tupleBytes state = stateBytes page'.linePointers state) :
    page'.Sound :=
  ⟨same ▸ sound.disjoint, same ▸ sound.aligned, counted⟩

theorem stateBytes_cons (lines : List LinePointer) :
    stateBytes (line :: lines) state =
      (if line.state = state then line.len else 0) + stateBytes lines state := by
  by_cases counted : line.state = state <;> simp [stateBytes, counted]

/-- Changing the state of a line moves its length from one counter to another. -/
theorem stateBytes_modify {lines : List LinePointer} {i : Nat} (found : lines[i]? = some line)
    (state other : LinePointerState) :
    stateBytes (lines.modify i (withState state)) other +
        (if line.state = other then line.len else 0) =
      stateBytes lines other + if state = other then line.len else 0 := by
  induction lines generalizing i with
  | nil => simp at found
  | cons head rest ih =>
    cases i with
    | zero =>
      cases found
      simp only [modify_zero_cons, stateBytes_cons, withState]
      omega
    | succ i =>
      have later := ih found
      simp only [modify_succ_cons, stateBytes_cons]
      omega

/-- A line that was not dead changes its state. -/
theorem Sound.setState (sound : page.Sound) (found : page.line offset = some line)
    (alive : line.state ≠ .dead) (changes : line.state ≠ state) :
    (addState state line.len (subState line.state line.len
      (page.modifyLine offset (withState state) fun _ => ⟨rfl, rfl⟩))).Sound := by
  have stored : page.linePointers[offset - 1]? = some line := by
    simpa [Page.line, line_offset_ne_zero found] using found
  apply sound.of_extents
  · have same : extent ∘ withState state = extent := rfl
    simp only [extents, addState_linePointers, subState_linePointers, modifyLine]
    apply ext_getElem?
    intro i
    simp only [getElem?_map, getElem?_modify]
    split <;> simp [same]
  · intro other
    have moved := stateBytes_modify stored state other
    have before := sound.counted other
    rw [addState_linePointers, subState_linePointers]
    simp only [modifyLine]
    cases was : line.state <;> cases state <;> cases other <;>
      simp_all [addState, subState, tupleBytes] <;> omega

theorem Sound.marked {goes : LinePointerState → LinePointerState} (sound : page.Sound)
    (marked : page.Marked offset goes page') (stays : goes .dead = .dead) : page'.Sound := by
  cases marked with
  | same => exact sound
  | moves found moved =>
    exact sound.setState found (fun dead => moved (by rw [dead, stays])) (Ne.symm moved)

theorem Sound.restore (sound : page.Sound) (checkpoint : PageCheckpoint) :
    (page.restoreToPreservingTidSpace checkpoint).Sound := by
  apply sound.of_extents
  · have dead : extent ∘ withState .dead = extent := rfl
    simp only [extents, restoreToPreservingTidSpace, recomputeTupleBytes]
    rw [map_append, map_map, dead, ← map_append, take_append_drop]
  · intro state
    cases state <;> rfl

/-- What an append may do: nothing, raise the mark of the used bytes for a tuple
    beyond 32 bits, or add a line. -/
theorem append_cases (h : page.appendTupleWithState tuple state = (page', result)) :
    (result = none ∧ page' = page) ∨ ∃ fits,
      ((2 ^ 32 ≤ page.alignedUsed ∨ 2 ^ 32 ≤ tuple.length) ∧ page' = page.fill tuple fits) ∨
      (result ≠ none ∧ page' = addState state tuple.length ((page.fill tuple fits).pushLine
        ⟨page.alignedUsed, tuple.length, state, 0, 0, 0⟩ (page.fill_used tuple fits).ge)) := by
  unfold appendTupleWithState at h
  split at h
  · cases h
    exact .inl ⟨rfl, rfl⟩
  · split at h
    · rename_i fits
      dsimp only at h
      split at h
      · cases h
        exact .inr ⟨fits, .inr ⟨by simp, rfl⟩⟩
      · rename_i small
        cases h
        exact .inr ⟨fits, .inl ⟨by omega, rfl⟩⟩
    · cases h
      exact .inl ⟨rfl, rfl⟩

theorem Sound.append (sound : page.Sound)
    (h : page.appendTupleWithState tuple state = (page', result)) : page'.Sound := by
  rcases append_cases h with ⟨-, rfl⟩ | ⟨fits, ⟨-, rfl⟩ | ⟨-, rfl⟩⟩
  · exact sound
  · have same : (page.fill tuple fits).extents = page.extents := rfl
    apply sound.of_extents same
    intro other
    have before := sound.counted other
    cases other <;> exact before
  · have grown : (addState state tuple.length ((page.fill tuple fits).pushLine
        ⟨page.alignedUsed, tuple.length, state, 0, 0, 0⟩ (page.fill_used tuple fits).ge)).extents =
        page.extents ++ [(page.alignedUsed, page.alignedUsed + tuple.length)] := by
      simp [extents, pushLine, Page.fill, extent]
    refine ⟨?_, ?_, ?_⟩
    · rw [grown, pairwise_append]
      refine ⟨sound.disjoint, pairwise_singleton .., ?_⟩
      intro before member last new
      cases mem_singleton.mp new
      exact (extents_end member).trans page.used_le_alignedUsed
    · rw [grown]
      intro range member
      rcases mem_append.mp member with member | new
      · exact sound.aligned range member
      · cases mem_singleton.mp new
        exact Nat.dvd_mul_left ..
    · intro other
      have before := sound.counted other
      simp only [addState_linePointers, pushLine, Page.fill]
      cases state <;> cases other <;> simp_all [addState, tupleBytes, stateBytes]

theorem Sound.step (sound : page.Sound) (op : PageOp) : (page.step op).1.Sound := by
  unfold Page.step
  split
  · exact sound.append rfl
  · exact sound.marked (page.markDead_marked _) rfl
  · exact sound.marked (page.markLive_marked _) rfl
  · exact sound.restore _
  · exact sound

theorem Sound.run (sound : page.Sound) (ops : List PageOp) : (page.run ops).Sound := by
  induction ops generalizing page with
  | nil => exact sound
  | cons op ops ih => exact ih (sound.step op)

/-- An operation that does not kill a tuple leaves it readable. -/
theorem row_step (found : page.row offset = some (state, tuple)) (alive : state ≠ .dead)
    (spared : ¬ op.kills offset) :
    ∃ state, state ≠ .dead ∧ (page.step op).1.row offset = some (state, tuple) := by
  have inside := row_isSome_iff.mp (by rw [found]; rfl : (page.row offset).isSome)
  unfold Page.step
  split
  · rename_i added other _
    obtain ⟨-, ⟨-, -, same⟩ | ⟨-, -, -, grown⟩⟩ :=
      appendTupleWithState_spec (Prod.eta (page.appendTupleWithState added other)).symm
    · exact ⟨state, alive, (same offset).trans found⟩
    · have earlier : offset ≠ page.linePointers.length + 1 := by omega
      exact ⟨state, alive, by rw [grown, if_neg earlier, found]⟩
  · rename_i other _
    have differs : offset ≠ other := fun same => spared same.symm
    exact ⟨state, alive, by rw [(page.markDead_marked _).row, if_neg differs, found]⟩
  · rename_i other _
    rw [(page.markLive_marked other).row]
    cases state <;> by_cases same : offset = other <;> simp_all
  · rename_i checkpoint _
    have kept : offset ≤ checkpoint.lineCount := Nat.le_of_not_lt spared
    exact ⟨state, alive, by rw [row_restore, if_pos kept, found]⟩
  · exact ⟨state, alive, found⟩

theorem row_run (found : page.row offset = some (state, tuple)) (alive : state ≠ .dead)
    {ops : List PageOp} (spared : ∀ op ∈ ops, ¬ op.kills offset) :
    ∃ state, state ≠ .dead ∧ (page.run ops).row offset = some (state, tuple) := by
  induction ops generalizing page state with
  | nil => exact ⟨state, alive, found⟩
  | cons op ops ih =>
    obtain ⟨next, nextAlive, nextFound⟩ := row_step found alive (spared op mem_cons_self)
    exact ih nextFound nextAlive fun other member => spared other (mem_cons_of_mem _ member)

end FastPg.Storage.Page
