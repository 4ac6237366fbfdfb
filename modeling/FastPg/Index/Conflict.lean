import FastPg.Storage.Engine
import FastPg.Storage.KeyForms

/-! # Unique checks and equality probes

The unique check of an index insertion and the equality probe of a unique index
turn datums into a key and look that key up. The check of a primary key asks the
key maps and nothing else; the check of any other unique index scans the visible
rows. A probe asks the primary-key maps first, whatever unique index it is for,
and scans the visible rows if they lead nowhere.

If the maps are in order, both find a row exactly if a visible row has the key.
-/

namespace FastPg.Storage

open Assoc Redirect Transition Option
open List hiding insert lookup

inductive ConflictLookup where
  | found (tid : Tid)
  | noConflict
  | missing
  deriving DecidableEq, Repr

namespace RelationStorage

section Model

variable (relation : RelationStorage) (overlays : Overlays) (rowCount : Nat)

def primaryKeyConflictCurrentSessionOrEmpty (key : IndexKey) (replacing : Option Tid) :
    ConflictLookup :=
  match relation.primaryKeyOverlayLookup overlays rowCount key with
  | .found tid =>
    if some tid = replacing.map overlays.resolveUpdate then .noConflict else .found tid
  | .hidden | .missing => if rowCount = 0 then .noConflict else .missing

/-- `fastpg_storage2_unique_index_conflict_with_spec`, once the key is built. -/
def conflictForKey (spec : UniqueIndexSpec) (key : IndexKey) (replacing : Option Tid) : Option Tid :=
  let slow := relation.findVisibleByIndexKeyExcludingRead overlays spec key replacing
  if spec.isPrimary then
    match relation.primaryKeyConflictCurrentSessionOrEmpty overlays rowCount key replacing with
    | .found tid => some tid
    | .noConflict => none
    | .missing => slow
  else slow

/-- `fastpg_storage2_unique_index_conflict_with_spec`: the unique check of
    `fastpg_mem_index_insert`. -/
def uniqueIndexConflictWithSpec (spec : UniqueIndexSpec) (datums : List KeyDatum)
    (replacing : Option Tid) : Option Tid :=
  (indexKeyForKeyDatums spec datums).bind fun key =>
    relation.conflictForKey overlays rowCount spec key replacing

/-- The specification a probe looks a key up with. -/
def probeSpec (spec : UniqueIndexSpec) : UniqueIndexSpec :=
  { spec with isPrimary := true, nullsNotDistinct := false }

/-- The shortcuts of a probe for one by-value column: the one-row cache, then
    `fastpg_storage2_primary_key_index_lookup_single_byval_with_spec`. -/
def probeSingleByval (spec : UniqueIndexSpec) (datums : List KeyDatum) (cached : Option Tid) :
    RelationStorage × Option Tid :=
  match spec.columns, datums with
  | [column], [datum] =>
    if column.typbyval ∧ datum.isNull = false then
      match cached with
      | some tid => (relation, some tid)
      | none => relation.primaryKeyIndexLookup overlays rowCount (.single (.byValue datum.value))
    else (relation, none)
  | _, _ => (relation, none)

/-- The equality probe of a unique index in `fastpg_mem_index_get_tuple`. -/
def probe (spec : UniqueIndexSpec) (datums : List KeyDatum) (cached : Option Tid) : Option Tid :=
  match relation.probeSingleByval overlays rowCount spec datums cached with
  | (_, some tid) => some tid
  | (relation, none) =>
    (indexKeyForKeyDatums (probeSpec spec) datums).bind fun key =>
      (relation.primaryKeyIndexLookupWithSpec overlays rowCount (probeSpec spec) key).2

end Model

/-! ## States in order -/

section Order

variable (relation : RelationStorage) (overlays : Overlays) (rowCount : Nat)

/-- The rows the session sees are listed, are the ends of their redirects and
    can be decoded, no chain of redirects is too long to follow, and the cached
    row count is zero only if all of them are the session's own. -/
structure RowsInOrder : Prop where
  listed : ∀ {tid}, (relation.physicalVisibleTupleSlice overlays tid).isSome →
    tid ∈ relation.visibleTids overlays
  pending : ∀ {tid}, (overlays.visiblePendingSlice tid).isSome → tid ∈ relation.visibleTids overlays
  decoded : ∀ {tid}, tid ∈ relation.visibleTids overlays →
    (relation.findVisibleTuple overlays tid).isSome
  ended : Ended relation overlays
  settled : ∀ {tid}, tid ∈ relation.visibleTids overlays → relation.hotNext overlays tid = none
  counted : rowCount = 0 → ∀ {tid}, tid ∈ relation.visibleTids overlays →
    (overlays.visiblePendingSlice tid).isSome
  quiet : overlays.hasVisibilityDeltas = false → ∀ tid, overlays.tidRedirect tid = none ∧
    relation.physicalVisibleTupleSlice overlays tid = relation.tupleSlice tid false

/-- The row at a tid has the given key in an index. -/
def HoldsKey (spec : UniqueIndexSpec) (key : IndexKey) (tid : Tid) : Prop :=
  (relation.findVisibleTuple overlays tid).bind (indexKeyForDecoded spec) = some key

/-- A level or the committed map has an entry for the key. -/
def HasEntry (key : IndexKey) (tid : Tid) : Prop :=
  (∃ level ∈ overlays, lookup level.primaryKeyInserts key = some tid) ∨
    lookup relation.primaryKeyIndex key = some tid

/-- The entries of a key lead to rows with that key, and a level that deleted
    the key hides no row that has it. -/
structure KeysInOrder (spec : UniqueIndexSpec) (key : IndexKey) : Prop where
  own : ∀ {level tid}, level ∈ overlays → lookup level.primaryKeyInserts key = some tid →
    (relation.findVisibleTuple overlays (overlays.resolveUpdate tid)).isSome →
      overlays.resolveUpdate tid ∈ relation.visibleTids overlays ∧
        relation.HoldsKey overlays spec key (overlays.resolveUpdate tid)
  entries : ∀ {tid}, relation.HasEntry overlays key tid →
    relation.resolveTidRedirect overlays tid ∈ relation.visibleTids overlays →
      relation.HoldsKey overlays spec key (relation.resolveTidRedirect overlays tid)
  unhidden : ∀ {inner level outer}, overlays = inner ++ level :: outer →
    key ∈ level.primaryKeyDeletes →
      (∃ tid ∈ relation.visibleTids overlays, relation.HoldsKey overlays spec key tid) →
        ∃ other ∈ inner ++ [level], ∃ tid, lookup other.primaryKeyInserts key = some tid ∧
          overlays.resolveUpdate tid ∈ relation.visibleTids overlays

/-- Every row with a primary key is the one its entry leads to. -/
structure PrimaryInOrder (spec : UniqueIndexSpec) (key : IndexKey) : Prop where
  complete : ∀ {tid}, tid ∈ relation.visibleTids overlays →
    relation.HoldsKey overlays spec key tid →
      (∃ level ∈ overlays, ∃ entry, lookup level.primaryKeyInserts key = some entry ∧
        overlays.resolveUpdate entry = tid) ∨
      rowCount ≠ 0 ∧ ∃ entry, lookup relation.primaryKeyIndex key = some entry ∧
        relation.resolveTidRedirect overlays entry = tid
  single : ∀ {tid other}, tid ∈ relation.visibleTids overlays →
    relation.HoldsKey overlays spec key tid → other ∈ relation.visibleTids overlays →
      relation.HoldsKey overlays spec key other → tid = other

end Order

end RelationStorage

/-! ## The levels of a session -/

/-- An entry of a level leads to a visible row. -/
def LeadsTo (visible : Tid → Bool) (all : Overlays) (key : IndexKey) (level : RelationOverlay)
    (tid : Tid) : Prop :=
  ∃ entry, lookup level.primaryKeyInserts key = some entry ∧ all.resolveUpdate entry = tid ∧
    visible tid = true ∧ all.invalidateTid tid = false

section Levels

variable {visible : Tid → Bool} {all : Overlays} {key : IndexKey} {levels : Overlays}
  {level : RelationOverlay} {tid : Tid}

theorem overlayLookup_leads (leads : LeadsTo visible all key level tid) (rest : Overlays) :
    overlayLookup visible all key (level :: rest) = .found tid := by
  obtain ⟨entry, stored, rfl, seen, valid⟩ := leads
  simp [overlayLookup, stored, Option.filter, seen, valid]

theorem overlayLookup_passes (none_ : ∀ tid, ¬LeadsTo visible all key level tid) (rest : Overlays) :
    overlayLookup visible all key (level :: rest) =
      if key ∈ level.primaryKeyDeletes then .hidden else overlayLookup visible all key rest := by
  have gone : ((lookup level.primaryKeyInserts key).map all.resolveUpdate).filter
      (fun tid => visible tid && !all.invalidateTid tid) = none := by
    rw [filter_eq_none_iff]
    intro tid entry good
    obtain ⟨first, stored, leads⟩ := map_eq_some_iff.mp entry
    simp only [Bool.and_eq_true, Bool.not_eq_true'] at good
    exact none_ tid ⟨first, stored, leads, good⟩
  rw [overlayLookup, gone]

theorem overlayLookup_found (found : overlayLookup visible all key levels = .found tid) :
    ∃ level ∈ levels, LeadsTo visible all key level tid := by
  induction levels with
  | nil => cases found
  | cons level rest ih =>
    by_cases hit : ∃ tid, LeadsTo visible all key level tid
    · obtain ⟨other, leads⟩ := hit
      rw [overlayLookup_leads leads] at found
      cases found
      exact ⟨level, .head _, leads⟩
    · rw [overlayLookup_passes (not_exists.mp hit)] at found
      split at found
      · cases found
      · obtain ⟨other, mem, leads⟩ := ih found
        exact ⟨other, .tail _ mem, leads⟩

/-- A hidden key was deleted by a level, and no entry of that level or of one
    inside it leads to a visible row. -/
theorem overlayLookup_hidden (hidden : overlayLookup visible all key levels = .hidden) :
    ∃ inner level outer, levels = inner ++ level :: outer ∧ key ∈ level.primaryKeyDeletes ∧
      ∀ other ∈ inner ++ [level], ∀ tid, ¬LeadsTo visible all key other tid := by
  induction levels with
  | nil => cases hidden
  | cons level rest ih =>
    by_cases hit : ∃ tid, LeadsTo visible all key level tid
    · obtain ⟨other, leads⟩ := hit
      rw [overlayLookup_leads leads] at hidden
      cases hidden
    · rw [overlayLookup_passes (not_exists.mp hit)] at hidden
      split at hidden
      · rename_i deleted
        refine ⟨[], level, rest, rfl, deleted, ?_⟩
        intro other mem
        rw [nil_append, mem_singleton] at mem
        exact mem ▸ not_exists.mp hit
      · obtain ⟨inner, other, outer, rfl, deleted, misses⟩ := ih hidden
        refine ⟨level :: inner, other, outer, rfl, deleted, ?_⟩
        intro each mem
        rcases mem_cons.mp mem with rfl | later
        · exact not_exists.mp hit
        · exact misses each later

theorem overlayLookup_missing (missing : overlayLookup visible all key levels = .missing) :
    ∀ level ∈ levels, key ∉ level.primaryKeyDeletes ∧ ∀ tid, ¬LeadsTo visible all key level tid := by
  induction levels with
  | nil => simp
  | cons level rest ih =>
    by_cases hit : ∃ tid, LeadsTo visible all key level tid
    · obtain ⟨other, leads⟩ := hit
      rw [overlayLookup_leads leads] at missing
      cases missing
    · rw [overlayLookup_passes (not_exists.mp hit)] at missing
      split at missing
      · cases missing
      · rename_i kept
        intro each mem
        rcases mem_cons.mp mem with rfl | later
        · exact ⟨kept, not_exists.mp hit⟩
        · exact ih missing each later

end Levels

namespace RelationStorage

variable {relation : RelationStorage} {overlays : Overlays} {rowCount : Nat}
  {spec : UniqueIndexSpec} {key : IndexKey} {tid : Tid}

/-! ## What a visible row looks like -/

theorem visible_of_mem (mem : tid ∈ relation.visibleTids overlays) :
    (relation.physicalVisibleTupleSlice overlays tid).isSome := by
  unfold visibleTids at mem
  exact (mem_filter.mp mem).2

theorem valid_of_mem (mem : tid ∈ relation.visibleTids overlays) :
    overlays.invalidateTid tid = false := by
  have seen := visible_of_mem mem
  rw [physicalVisibleTupleSlice_eq] at seen
  by_contra struck
  rw [Bool.not_eq_false] at struck
  simp [struck] at seen

namespace RowsInOrder

variable (rows : RowsInOrder relation overlays rowCount)

include rows

theorem visibleEntry_eq_some {entry : Tid} (found : relation.visibleEntry overlays entry = some tid) :
    relation.resolveTidRedirect overlays entry = tid ∧ tid ∈ relation.visibleTids overlays := by
  unfold visibleEntry at found
  dsimp only at found
  split at found
  · rename_i seen
    cases found
    exact ⟨rfl, rows.listed seen⟩
  · cases found

theorem committedEntry_eq (same : overlays.hasVisibilityDeltas = false) (key : IndexKey) :
    relation.committedEntry key =
      (lookup relation.primaryKeyIndex key).bind (relation.visibleEntry overlays) := by
  have hops : relation.hotNext [] = relation.hotNext overlays := by
    funext tid
    unfold hotNext orElse
    rw [(rows.quiet same tid).1]
    rfl
  unfold committedEntry
  cases lookup relation.primaryKeyIndex key with
  | none => rfl
  | some entry =>
    dsimp only [bind_eq_bind, bind_some]
    unfold visibleEntry resolveTidRedirect
    dsimp only
    rw [hops, (rows.quiet same _).2]
    cases relation.tupleSlice (follow (relation.hotNext overlays) maxHotRedirectHops entry) false
      <;> simp

/-- The lookup through the maps ends at a visible row that an entry leads to. -/
theorem primaryKeyLookupRead_eq_some (found : relation.primaryKeyLookupRead overlays key = some tid) :
    tid ∈ relation.visibleTids overlays ∧
      ∃ entry, relation.HasEntry overlays key entry ∧
        relation.resolveTidRedirect overlays entry = tid := by
  have committed : ∀ {tid}, (lookup relation.primaryKeyIndex key).bind
      (relation.visibleEntry overlays) = some tid → tid ∈ relation.visibleTids overlays ∧
        ∃ entry, relation.HasEntry overlays key entry ∧
          relation.resolveTidRedirect overlays entry = tid := by
    intro tid found
    obtain ⟨entry, stored, leads⟩ := bind_eq_some_iff.mp found
    have resolved := rows.visibleEntry_eq_some leads
    exact ⟨resolved.2, entry, .inr stored, resolved.1⟩
  unfold primaryKeyLookupRead at found
  split at found
  · have through : ∀ levels : Overlays, (∀ level ∈ levels, level ∈ overlays) →
        relation.primaryKeyLookupFrom overlays key levels = some tid →
          tid ∈ relation.visibleTids overlays ∧ ∃ entry, relation.HasEntry overlays key entry ∧
            relation.resolveTidRedirect overlays entry = tid := by
      intro levels within found
      induction levels with
      | nil => exact committed found
      | cons level rest ih =>
        unfold primaryKeyLookupFrom at found
        split at found
        · rename_i hit
          cases found
          obtain ⟨entry, stored, leads⟩ := bind_eq_some_iff.mp hit
          have resolved := rows.visibleEntry_eq_some leads
          exact ⟨resolved.2, entry, .inl ⟨level, within level (.head _), stored⟩,
            resolved.1⟩
        · split at found
          · cases found
          · exact ih (fun other mem => within other (.tail _ mem)) found
    exact through overlays (fun _ mem => mem) found
  · rename_i plain
    rw [rows.committedEntry_eq (by simpa using plain)] at found
    exact committed found

/-- A committed entry that leads to a visible row is found unless a level
    deleted the key. -/
theorem primaryKeyLookupRead_isSome {entry : Tid}
    (kept : ∀ level ∈ overlays, key ∉ level.primaryKeyDeletes)
    (stored : lookup relation.primaryKeyIndex key = some entry)
    (mem : relation.resolveTidRedirect overlays entry ∈ relation.visibleTids overlays) :
    (relation.primaryKeyLookupRead overlays key).isSome := by
  have committed : ((lookup relation.primaryKeyIndex key).bind
      (relation.visibleEntry overlays)).isSome := by
    simp [stored, visibleEntry, visible_of_mem mem]
  unfold primaryKeyLookupRead
  split
  · have through : ∀ levels : Overlays, (∀ level ∈ levels, key ∉ level.primaryKeyDeletes) →
        (relation.primaryKeyLookupFrom overlays key levels).isSome := by
      intro levels kept
      induction levels with
      | nil => exact committed
      | cons level rest ih =>
        unfold primaryKeyLookupFrom
        split
        · rfl
        · rw [if_neg (kept level (mem_cons_self ..))]
          exact ih fun other mem => kept other (.tail _ mem)
    exact through overlays kept
  · rename_i plain
    rw [rows.committedEntry_eq (by simpa using plain)]
    exact committed

variable (keys : KeysInOrder relation overlays spec key)

include keys

/-- A lookup in the levels that finds something finds a visible row with the key. -/
theorem primaryKeyOverlayLookup_found
    (found : relation.primaryKeyOverlayLookup overlays rowCount key = .found tid) :
    tid ∈ relation.visibleTids overlays ∧ relation.HoldsKey overlays spec key tid := by
  have shared : ∀ {tid}, overlayLookup
      (fun tid => (relation.findVisibleTuple overlays tid).isSome) overlays key overlays = .found tid →
        tid ∈ relation.visibleTids overlays ∧ relation.HoldsKey overlays spec key tid := by
    intro tid found
    obtain ⟨level, mem, entry, stored, rfl, seen, -⟩ := overlayLookup_found found
    exact keys.own mem stored seen
  unfold primaryKeyOverlayLookup at found
  dsimp only at found
  split at found
  · split at found
    · exact shared found
    · obtain ⟨level, mem, entry, stored, rfl, seen, -⟩ := overlayLookup_found found
      exact keys.own mem stored (rows.decoded (rows.pending seen))
  · exact shared found

theorem primaryKeyOverlayLookup_hidden
    (hidden : relation.primaryKeyOverlayLookup overlays rowCount key = .hidden) :
    ¬∃ tid ∈ relation.visibleTids overlays, relation.HoldsKey overlays spec key tid := by
  -- an entry at the deleting level or inside it would have been found
  have hides : ∀ {visible : Tid → Bool},
      (∀ tid ∈ relation.visibleTids overlays, visible tid = true) →
      overlayLookup visible overlays key overlays = .hidden →
        ¬∃ tid ∈ relation.visibleTids overlays, relation.HoldsKey overlays spec key tid := by
    intro visible sees hidden row
    obtain ⟨inner, level, outer, split, deleted, misses⟩ := overlayLookup_hidden hidden
    obtain ⟨other, mem, entry, stored, seen⟩ := keys.unhidden split deleted row
    exact misses other mem _ ⟨entry, stored, rfl, sees _ seen, valid_of_mem seen⟩
  have shared := @hides (fun tid => (relation.findVisibleTuple overlays tid).isSome)
    fun tid mem => rows.decoded mem
  unfold primaryKeyOverlayLookup at hidden
  dsimp only at hidden
  split at hidden
  · rename_i empty
    split at hidden
    · exact shared hidden
    · exact hides (fun tid mem => rows.counted empty mem) hidden
  · exact shared hidden

omit keys in
theorem primaryKeyOverlayLookup_missing
    (missing : relation.primaryKeyOverlayLookup overlays rowCount key = .missing) :
    ∀ level ∈ overlays, key ∉ level.primaryKeyDeletes ∧
      ∀ entry, lookup level.primaryKeyInserts key = some entry →
        overlays.resolveUpdate entry ∉ relation.visibleTids overlays := by
  have shared : overlayLookup (fun tid => (relation.findVisibleTuple overlays tid).isSome)
      overlays key overlays = .missing := by
    unfold primaryKeyOverlayLookup at missing
    dsimp only at missing
    split at missing
    · split at missing
      · exact missing
      · rename_i other
        exact absurd missing other
    · exact missing
  intro level mem
  obtain ⟨kept, misses⟩ := overlayLookup_missing shared level mem
  refine ⟨kept, fun entry stored seen => ?_⟩
  exact misses _ ⟨entry, stored, rfl, rows.decoded seen, valid_of_mem seen⟩

theorem primaryKeyLookupRead_found (found : relation.primaryKeyLookupRead overlays key = some tid) :
    tid ∈ relation.visibleTids overlays ∧ relation.HoldsKey overlays spec key tid := by
  obtain ⟨mem, entry, stored, rfl⟩ := rows.primaryKeyLookupRead_eq_some found
  exact ⟨mem, keys.entries stored mem⟩

end RowsInOrder

/-! ## The unique check -/

/-- The row that is checked is not itself an old version. -/
def Current (relation : RelationStorage) (overlays : Overlays) (replacing : Option Tid) : Prop :=
  ∀ tid ∈ replacing, overlays.resolveUpdate tid = tid ∧
    relation.resolveTidRedirect overlays tid = tid

variable {replacing : Option Tid}

theorem Current.map_update (current : Current relation overlays replacing) :
    replacing.map overlays.resolveUpdate = replacing := by
  cases replacing with
  | none => rfl
  | some tid => rw [map_some, (current tid rfl).1]

theorem Current.map_resolve (current : Current relation overlays replacing) :
    replacing.map (relation.resolveTidRedirect overlays) = replacing := by
  cases replacing with
  | none => rfl
  | some tid => rw [map_some, (current tid rfl).2]

theorem findVisibleByScan_isSome (replacing : Option Tid) :
    (relation.findVisibleByScan overlays spec key replacing).isSome ↔
      ∃ tid ∈ relation.visibleTids overlays, some tid ≠ replacing ∧
        relation.HoldsKey overlays spec key tid := by
  unfold findVisibleByScan HoldsKey
  rw [find?_isSome]
  simp

/-- The unique check reports a conflict exactly if another visible row has the key. -/
theorem conflictForKey_isSome (rows : RowsInOrder relation overlays rowCount)
    (keys : KeysInOrder relation overlays spec key)
    (primary : spec.isPrimary = true → PrimaryInOrder relation overlays rowCount spec key)
    (current : Current relation overlays replacing) :
    (relation.conflictForKey overlays rowCount spec key replacing).isSome ↔
      ∃ tid ∈ relation.visibleTids overlays, some tid ≠ replacing ∧
        relation.HoldsKey overlays spec key tid := by
  unfold conflictForKey findVisibleByIndexKeyExcludingRead primaryKeyConflictCurrentSessionOrEmpty
  dsimp only
  rw [current.map_resolve, current.map_update]
  by_cases isPrimary : spec.isPrimary = true
  · have inOrder := primary isPrimary
    -- without a row that has the key the maps lead nowhere
    have nothing : (¬∃ tid ∈ relation.visibleTids overlays, relation.HoldsKey overlays spec key tid) →
        relation.primaryKeyLookupRead overlays key = none := by
      intro none_
      by_contra found
      obtain ⟨tid, found⟩ := ne_none_iff_exists'.mp found
      exact none_ ⟨tid, rows.primaryKeyLookupRead_found keys found⟩
    rw [if_pos isPrimary, if_pos isPrimary]
    cases answer : relation.primaryKeyOverlayLookup overlays rowCount key with
    | found tid =>
      obtain ⟨mem, holds⟩ := rows.primaryKeyOverlayLookup_found keys answer
      by_cases same : some tid = replacing
      · simp only [same, if_true, isSome_none, Bool.false_eq_true, false_iff]
        rintro ⟨other, seen, ne, held⟩
        exact ne (inOrder.single seen held mem holds ▸ same)
      · simp only [same, if_false, isSome_some, true_iff]
        exact ⟨tid, mem, same, holds⟩
    | hidden =>
      have none_ := rows.primaryKeyOverlayLookup_hidden keys answer
      rw [nothing none_]
      have empty : ¬∃ tid ∈ relation.visibleTids overlays, some tid ≠ replacing ∧
          relation.HoldsKey overlays spec key tid := by
        rintro ⟨tid, mem, -, holds⟩
        exact none_ ⟨tid, mem, holds⟩
      by_cases zero : rowCount = 0 <;> simp [zero, empty]
    | missing =>
      have misses := rows.primaryKeyOverlayLookup_missing answer
      by_cases zero : rowCount = 0
      · simp only [zero, if_true, isSome_none, Bool.false_eq_true, false_iff]
        rintro ⟨tid, mem, -, holds⟩
        rcases inOrder.complete mem holds with ⟨level, within, entry, stored, rfl⟩ | ⟨some_, -⟩
        · exact (misses level within).2 entry stored mem
        · exact some_ zero
      · simp only [zero, if_false]
        constructor
        · intro found
          obtain ⟨tid, found⟩ := isSome_iff_exists.mp found
          obtain ⟨found, ne⟩ := filter_eq_some_iff.mp found
          obtain ⟨mem, holds⟩ := rows.primaryKeyLookupRead_found keys found
          exact ⟨tid, mem, by simpa using ne, holds⟩
        · rintro ⟨tid, mem, ne, holds⟩
          have looked : (relation.primaryKeyLookupRead overlays key).isSome := by
            rcases inOrder.complete mem holds with
              ⟨level, within, entry, stored, rfl⟩ | ⟨-, entry, stored, rfl⟩
            · exact absurd mem ((misses level within).2 entry stored)
            · exact rows.primaryKeyLookupRead_isSome (fun level within => (misses level within).1)
                stored mem
          obtain ⟨other, found⟩ := isSome_iff_exists.mp looked
          obtain ⟨seen, held⟩ := rows.primaryKeyLookupRead_found keys found
          have same : other = tid := inOrder.single seen held mem holds
          simp [found, Option.filter, same, ne]
  · rw [if_neg isPrimary, if_neg isPrimary]
    exact findVisibleByScan_isSome replacing

/-! ## Compression while probing -/

/-- A change of the redirects after which the session sees what it saw. -/
structure SameSight (before after : RelationStorage) (overlays : Overlays) : Prop where
  same : SameRelation after before
  keys : after.primaryKeyIndex = before.primaryKeyIndex
  hops : Shortcuts (before.hotNext overlays) (after.hotNext overlays)

namespace SameSight

variable {after : RelationStorage} (sight : SameSight relation after overlays)

include sight

theorem resolve (ended : Ended relation overlays) (tid : Tid) :
    after.resolveTidRedirect overlays tid = relation.resolveTidRedirect overlays tid :=
  (sight.hops.ends (ended.resolves tid)).follow_eq

theorem findVisibleTuple (ended : Ended relation overlays) :
    after.findVisibleTuple overlays = relation.findVisibleTuple overlays := by
  funext tid
  unfold RelationStorage.findVisibleTuple visibleTupleSlice
  rw [sight.resolve ended, sight.resolve ended, sight.same.physicalVisibleTupleSlice]

theorem visibleTids : after.visibleTids overlays = relation.visibleTids overlays := by
  unfold RelationStorage.visibleTids
  rw [sight.same.liveTids, sight.same.physicalVisibleTupleSlice]

theorem rows (rows : RowsInOrder relation overlays rowCount) :
    RowsInOrder after overlays rowCount where
  listed := by
    rw [sight.same.physicalVisibleTupleSlice, sight.visibleTids]
    exact rows.listed
  pending := by
    rw [sight.visibleTids]
    exact rows.pending
  decoded := by
    rw [sight.visibleTids, sight.findVisibleTuple rows.ended]
    exact rows.decoded
  ended := rows.ended.shortcuts sight.hops
  settled := by
    intro tid mem
    rw [sight.visibleTids] at mem
    exact sight.hops.none_iff.mpr (rows.settled mem)
  counted := by
    rw [sight.visibleTids]
    exact rows.counted
  quiet := by
    intro plain tid
    rw [sight.same.physicalVisibleTupleSlice, sight.same.tupleSlice]
    exact rows.quiet plain tid

theorem holdsKey (ended : Ended relation overlays) :
    after.HoldsKey overlays spec key = relation.HoldsKey overlays spec key := by
  funext tid
  unfold HoldsKey
  rw [sight.findVisibleTuple ended]

theorem keysInOrder (ended : Ended relation overlays)
    (keys : KeysInOrder relation overlays spec key) : KeysInOrder after overlays spec key where
  own := by
    rw [sight.findVisibleTuple ended, sight.visibleTids, sight.holdsKey ended]
    exact keys.own
  entries := by
    intro tid stored
    unfold HasEntry at stored
    rw [sight.keys] at stored
    rw [sight.resolve ended, sight.visibleTids, sight.holdsKey ended]
    exact keys.entries stored
  unhidden := by
    rw [sight.visibleTids, sight.holdsKey ended]
    exact keys.unhidden

end SameSight

theorem SameSight.refl : SameSight relation relation overlays := ⟨⟨rfl, rfl, rfl, rfl⟩, rfl, .refl⟩

theorem SameSight.trans {middle after : RelationStorage} (first : SameSight relation middle overlays)
    (second : SameSight middle after overlays) : SameSight relation after overlays :=
  ⟨second.same.trans first.same, second.keys.trans first.keys, first.hops.trans second.hops⟩

theorem SameSight.of_compress {here here' : Local} (compressed : here.Compress here')
    (quiet : here.overlays.hasVisibilityDeltas = false → ∀ tid, here.overlays.tidRedirect tid = none) :
    SameSight here.relation here'.relation here.overlays := by
  cases compressed with
  | hot levels tid resolves =>
    refine ⟨resolveTidRedirectCompress_same .., (resolveTidRedirectCompress_entries ..).2.1, ?_⟩
    apply resolveTidRedirectCompress_hotNext
    intro other own
    rcases resolves with rfl | ⟨-, plain⟩
    · exact own
    · exact quiet plain other
  | update levels tid resolves =>
    have hops : (here.relation.resolveUpdateRedirectCompress levels tid).1.hotNext here.overlays =
        here.relation.hotNext here.overlays := by
      unfold hotNext
      rw [resolveUpdateRedirectCompress_hotRedirects]
    refine ⟨resolveUpdateRedirectCompress_same .., ?_, hops ▸ .refl⟩
    unfold resolveUpdateRedirectCompress
    dsimp only
    split <;> rfl

theorem primaryKeyLookup_sight (rows : RowsInOrder relation overlays rowCount) (key : IndexKey) :
    SameSight relation (relation.primaryKeyLookup overlays key).1 overlays := by
  have compressed := @Local.primaryKeyLookup_compresses ⟨relation, overlays⟩ key
  have along : ∀ here : Local, Local.Compresses ⟨relation, overlays⟩ here →
      here.overlays = overlays ∧ SameSight relation here.relation overlays := by
    intro here steps
    induction steps with
    | refl => exact ⟨rfl, .refl⟩
    | @tail middle last _ step ih =>
      obtain ⟨levels, sight⟩ := ih
      have next := SameSight.of_compress step fun plain tid =>
        levels ▸ (rows.quiet (levels ▸ plain) tid).1
      have kept : last.overlays = middle.overlays := by
        cases step <;> rfl
      exact ⟨kept.trans levels, sight.trans (levels ▸ next)⟩
  exact (along _ compressed).2

/-! ## The equality probe -/

theorem primaryKeyIndexLookup_found (rows : RowsInOrder relation overlays rowCount)
    (keys : KeysInOrder relation overlays spec key)
    (found : (relation.primaryKeyIndexLookup overlays rowCount key).2 = some tid) :
    tid ∈ relation.visibleTids overlays ∧ relation.HoldsKey overlays spec key tid := by
  unfold primaryKeyIndexLookup at found
  split at found
  · rename_i answer
    cases found
    exact rows.primaryKeyOverlayLookup_found keys answer
  · cases found
  · rw [rows.ended.primaryKeyLookup] at found
    exact rows.primaryKeyLookupRead_found keys found

theorem primaryKeyIndexLookup_sight (rows : RowsInOrder relation overlays rowCount)
    (key : IndexKey) :
    SameSight relation (relation.primaryKeyIndexLookup overlays rowCount key).1 overlays := by
  unfold primaryKeyIndexLookup
  split
  · exact .refl
  · exact .refl
  · exact primaryKeyLookup_sight rows key

/-- What the maps do not lead to is looked for among the visible rows, so a
    probe finds a row exactly if one has the key. -/
theorem primaryKeyIndexLookupWithSpec_isSome (rows : RowsInOrder relation overlays rowCount)
    (keys : KeysInOrder relation overlays spec key) :
    (relation.primaryKeyIndexLookupWithSpec overlays rowCount spec key).2.isSome ↔
      ∃ tid ∈ relation.visibleTids overlays, relation.HoldsKey overlays spec key tid := by
  unfold primaryKeyIndexLookupWithSpec
  cases answer : relation.primaryKeyOverlayLookup overlays rowCount key with
  | found tid =>
    simp only [isSome_some, true_iff]
    exact ⟨tid, rows.primaryKeyOverlayLookup_found keys answer⟩
  | hidden =>
    simp only [isSome_none, Bool.false_eq_true, false_iff]
    exact rows.primaryKeyOverlayLookup_hidden keys answer
  | missing =>
    have sight := primaryKeyLookup_sight rows key
    have looked := rows.ended.primaryKeyLookup key
    dsimp only
    cases step : relation.primaryKeyLookup overlays key with
    | mk after hit =>
      rw [step] at sight looked
      dsimp only at sight looked
      cases hit with
      | some tid =>
        simp only [isSome_some, true_iff]
        exact ⟨tid, rows.primaryKeyLookupRead_found keys looked.symm⟩
      | none =>
        have scanned := @findVisibleByScan_isSome after overlays
          { spec with isPrimary := false } key none
        have unmarked : relation.HoldsKey overlays { spec with isPrimary := false } key =
            relation.HoldsKey overlays spec key := rfl
        rw [sight.visibleTids, sight.holdsKey rows.ended, unmarked] at scanned
        simpa [findVisibleByIndexKeyExcluding] using scanned

theorem indexKeyForKeyDatums_single {column : IndexColumnSpec} {datum : KeyDatum}
    (columns : spec.columns = [column]) (byval : column.typbyval = true)
    (notNull : datum.isNull = false) :
    indexKeyForKeyDatums spec [datum] = some (.single (.byValue datum.value)) := by
  simp [indexKeyForKeyDatums, columns, indexKeyPartForKeyDatum, byval, notNull, IndexKey.ofParts]

theorem probe_isSome (rows : RowsInOrder relation overlays rowCount) {datums : List KeyDatum}
    (keys : ∀ key, indexKeyForKeyDatums (probeSpec spec) datums = some key →
      KeysInOrder relation overlays (probeSpec spec) key)
    {cached : Option Tid}
    (fresh : ∀ tid ∈ cached, ∀ key, indexKeyForKeyDatums (probeSpec spec) datums = some key →
      tid ∈ relation.visibleTids overlays ∧ relation.HoldsKey overlays (probeSpec spec) key tid) :
    (relation.probe overlays rowCount spec datums cached).isSome ↔
      ∃ key, indexKeyForKeyDatums (probeSpec spec) datums = some key ∧
        ∃ tid ∈ relation.visibleTids overlays,
          relation.HoldsKey overlays (probeSpec spec) key tid := by
  have slow : ∀ after, SameSight relation after overlays →
      (((indexKeyForKeyDatums (probeSpec spec) datums).bind fun key =>
        (after.primaryKeyIndexLookupWithSpec overlays rowCount (probeSpec spec) key).2).isSome ↔
      ∃ key, indexKeyForKeyDatums (probeSpec spec) datums = some key ∧
        ∃ tid ∈ relation.visibleTids overlays,
          relation.HoldsKey overlays (probeSpec spec) key tid) := by
    intro after sight
    cases built : indexKeyForKeyDatums (probeSpec spec) datums with
    | none => simp
    | some key =>
      have looked := primaryKeyIndexLookupWithSpec_isSome (sight.rows rows)
        (sight.keysInOrder rows.ended (keys key built))
      rw [sight.visibleTids, sight.holdsKey rows.ended] at looked
      simpa using looked
  unfold probe
  cases step : relation.probeSingleByval overlays rowCount spec datums cached with
  | mk after hit =>
    unfold probeSingleByval at step
    split at step
    · rename_i column datum columns
      split at step
      · rename_i byval
        have built := @indexKeyForKeyDatums_single (probeSpec spec) column datum columns
          byval.1 byval.2
        split at step
        · rename_i tid
          cases step
          simp only [isSome_some, true_iff]
          exact ⟨_, built, tid, fresh tid rfl _ built⟩
        · have sight := primaryKeyIndexLookup_sight rows
            (IndexKey.single (IndexKeyPart.byValue datum.value))
          cases hit with
          | some tid =>
            have found := @primaryKeyIndexLookup_found _ _ _ _ _ tid rows (keys _ built)
              (by rw [step])
            simp only [isSome_some, true_iff]
            exact ⟨_, built, tid, found⟩
          | none =>
            rw [step] at sight
            exact slow after sight
      · cases step
        exact slow relation .refl
    · cases step
      exact slow relation .refl

end RelationStorage

end FastPg.Storage
