import FastPg.Storage.Visibility

/-! # Key lookups and unique checks

Lookups by primary key go through the key entries of the session's levels,
innermost first, then through the committed key map. Every hit is resolved by
HOT redirects and checked for visibility. The write-locked variants compress
the redirect chains they follow; the read-locked ones do not.
-/

namespace FastPg.Storage

open Assoc

namespace RelationStorage

/-- Resolve a key entry; `none` where the row it leads to is not visible. -/
def visibleEntry (relation : RelationStorage) (overlays : Overlays) (tid : Tid) : Option Tid :=
  let resolved := relation.resolveTidRedirect overlays tid
  if (relation.physicalVisibleTupleSlice overlays resolved).isSome then some resolved else none

def visibleEntryCompress (relation : RelationStorage) (overlays : Overlays) (tid : Tid) :
    RelationStorage × Option Tid :=
  let (compressed, resolved) := relation.resolveTidRedirectCompress overlays tid
  (compressed,
    if (compressed.physicalVisibleTupleSlice overlays resolved).isSome then some resolved else none)

/-- The committed entry of a key, for a session without changes. -/
def committedEntry (relation : RelationStorage) (key : IndexKey) : Option Tid := do
  let tid ← lookup relation.primaryKeyIndex key
  let resolved := relation.resolveTidRedirect [] tid
  (relation.tupleSlice resolved false).map fun _ => resolved

def committedEntryCompress (relation : RelationStorage) (key : IndexKey) :
    RelationStorage × Option Tid :=
  match lookup relation.primaryKeyIndex key with
  | none => (relation, none)
  | some tid =>
    let (compressed, resolved) := relation.resolveTidRedirectCompress [] tid
    (compressed, (compressed.tupleSlice resolved false).map fun _ => resolved)

/-- The levels of a stack from the inside out, then the committed map. A level
    that deleted the key ends the search. -/
def primaryKeyLookupFrom (relation : RelationStorage) (all : Overlays) (key : IndexKey) :
    Overlays → Option Tid
  | [] => (lookup relation.primaryKeyIndex key).bind (relation.visibleEntry all)
  | overlay :: rest =>
    match (lookup overlay.primaryKeyInserts key).bind (relation.visibleEntry all) with
    | some tid => some tid
    | none =>
      if key ∈ overlay.primaryKeyDeletes then none
      else relation.primaryKeyLookupFrom all key rest

def primaryKeyLookupRead (relation : RelationStorage) (overlays : Overlays) (key : IndexKey) :
    Option Tid :=
  if Overlays.hasVisibilityDeltas overlays then relation.primaryKeyLookupFrom overlays key overlays
  else relation.committedEntry key

def primaryKeyLookupCompressFrom (all : Overlays) (key : IndexKey) :
    Overlays → RelationStorage → RelationStorage × Option Tid
  | [], relation =>
    match lookup relation.primaryKeyIndex key with
    | none => (relation, none)
    | some tid => relation.visibleEntryCompress all tid
  | overlay :: rest, relation =>
    let (relation, hit) := match lookup overlay.primaryKeyInserts key with
      | none => (relation, none)
      | some tid => relation.visibleEntryCompress all tid
    match hit with
    | some tid => (relation, some tid)
    | none =>
      if key ∈ overlay.primaryKeyDeletes then (relation, none)
      else primaryKeyLookupCompressFrom all key rest relation

/-- `primary_key_lookup`: the lookup under the write lock. -/
def primaryKeyLookup (relation : RelationStorage) (overlays : Overlays) (key : IndexKey) :
    RelationStorage × Option Tid :=
  if Overlays.hasVisibilityDeltas overlays then
    primaryKeyLookupCompressFrom overlays key overlays relation
  else relation.committedEntryCompress key

/-- The first visible row other than the replaced one whose stored key matches. -/
def findVisibleByScan (relation : RelationStorage) (overlays : Overlays) (spec : UniqueIndexSpec)
    (key : IndexKey) (replacing : Option Tid) : Option Tid :=
  (relation.visibleTids overlays).find? fun tid =>
    some tid ≠ replacing &&
      (relation.findVisibleTuple overlays tid).bind (indexKeyForDecoded spec) = some key

/-- `find_visible_by_index_key_excluding_read`. -/
def findVisibleByIndexKeyExcludingRead (relation : RelationStorage) (overlays : Overlays)
    (spec : UniqueIndexSpec) (key : IndexKey) (replacing : Option Tid) : Option Tid :=
  let replacing := replacing.map (relation.resolveTidRedirect overlays)
  if spec.isPrimary then
    (relation.primaryKeyLookupRead overlays key).filter fun tid => some tid ≠ replacing
  else relation.findVisibleByScan overlays spec key replacing

/-- `find_visible_by_index_key_excluding`. -/
def findVisibleByIndexKeyExcluding (relation : RelationStorage) (overlays : Overlays)
    (spec : UniqueIndexSpec) (key : IndexKey) (replacing : Option Tid) :
    RelationStorage × Option Tid :=
  let (relation, replacing) := match replacing with
    | none => (relation, none)
    | some tid =>
      let (compressed, resolved) := relation.resolveTidRedirectCompress overlays tid
      (compressed, some resolved)
  if spec.isPrimary then
    let (relation, hit) := relation.primaryKeyLookup overlays key
    (relation, hit.filter fun tid => some tid ≠ replacing)
  else (relation, relation.findVisibleByScan overlays spec key replacing)

/-- `unique_index_conflict_for_input_read`: the first unique index in which the
    row would be a duplicate. -/
def uniqueIndexConflictForInputRead (relation : RelationStorage) (overlays : Overlays)
    (specs : List UniqueIndexSpec) (input : RowInput) (replacing : Option Tid) : Option Nat :=
  specs.findSome? fun spec => do
    let key ← indexKeyForInput spec input
    (relation.findVisibleByIndexKeyExcludingRead overlays spec key replacing).map fun _ =>
      spec.indexOid

/-- `unique_index_conflict_for_input`, with the chains it compresses. -/
def uniqueIndexConflictForInput (overlays : Overlays) (input : RowInput) (replacing : Option Tid) :
    List UniqueIndexSpec → RelationStorage → RelationStorage × Option Nat
  | [], relation => (relation, none)
  | spec :: rest, relation =>
    match indexKeyForInput spec input with
    | none => uniqueIndexConflictForInput overlays input replacing rest relation
    | some key =>
      let (relation, hit) :=
        relation.findVisibleByIndexKeyExcluding overlays spec key replacing
      match hit with
      | some _ => (relation, some spec.indexOid)
      | none => uniqueIndexConflictForInput overlays input replacing rest relation

end RelationStorage

end FastPg.Storage
