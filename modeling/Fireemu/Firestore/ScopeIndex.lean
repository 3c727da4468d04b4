import Fireemu.Firestore.Document
import Fireemu.Firestore.ListingTrie
import Fireemu.Library.GroupedIndex

/-!
# Scope indexes

The store finds the documents of a query scope through indexes derived from history: the retained
and the live paths by parent and collection and by collection, the live paths, the listing trie,
and for each collection group with a time-to-live policy the live documents by their expiry field.
-/

namespace Fireemu

open Library (SortedMap SortedSet GroupedIndex GroupedIndex.addTo GroupedIndex.removeFrom)

/-- Paths by parent document (`⊥` for a root collection) and collection. -/
abbrev DirectCollectionPaths := GroupedIndex (WithBot DocumentPath ×ₗ CollectionId) DocumentPath

/-- Paths by collection. -/
abbrev CollectionGroupPaths := GroupedIndex CollectionId DocumentPath

/-- The live documents of a group whose expiry field holds a timestamp. -/
structure TtlExpiryIndex where
  field : FieldPath
  entries : SortedSet (Timestamp ×ₗ DocumentPath)

/-- A time-to-live policy. -/
structure TtlPolicy where
  field : FieldPath
  expirationOffset : Option LogicalDuration

/-- The time-to-live policies of a database. -/
abbrev TtlCatalog := SortedMap CollectionId TtlPolicy

/-- The indexes derived from history. -/
structure ScopeIndexes where
  directCollectionPaths : DirectCollectionPaths
  liveDirectCollectionPaths : DirectCollectionPaths
  listingTrie : ListingTrie
  collectionGroupPaths : CollectionGroupPaths
  liveCollectionGroupPaths : CollectionGroupPaths
  livePaths : SortedSet DocumentPath
  ttlExpiryIndexes : SortedMap CollectionId TtlExpiryIndex

/-- The group of a path in the indexes by parent and collection. -/
def directKey (path : DocumentPath) : WithBot DocumentPath ×ₗ CollectionId :=
  toLex (match path.parentDocument with
    | none => ⊥
    | some parent => (parent : WithBot DocumentPath), path.collectionId)

namespace ScopeIndexes

/-- The indexes of an empty history. -/
def empty : ScopeIndexes where
  directCollectionPaths := SortedMap.empty
  liveDirectCollectionPaths := SortedMap.empty
  listingTrie := .empty
  collectionGroupPaths := SortedMap.empty
  liveCollectionGroupPaths := SortedMap.empty
  livePaths := SortedMap.empty
  ttlExpiryIndexes := SortedMap.empty

/-- Indexes a newly retained path. -/
def insertScopePath (ix : ScopeIndexes) (path : DocumentPath) : ScopeIndexes :=
  { ix with
    directCollectionPaths := GroupedIndex.addTo ix.directCollectionPaths (directKey path) path
    listingTrie := ix.listingTrie.insertRetained path
    collectionGroupPaths := GroupedIndex.addTo ix.collectionGroupPaths path.collectionId path }

/-- Indexes a path that became live; it is retained already. -/
def insertLiveScopePath (ix : ScopeIndexes) (path : DocumentPath) : ScopeIndexes :=
  { ix with
    liveDirectCollectionPaths :=
      GroupedIndex.addTo ix.liveDirectCollectionPaths (directKey path) path
    liveCollectionGroupPaths :=
      GroupedIndex.addTo ix.liveCollectionGroupPaths path.collectionId path
    livePaths := ix.livePaths.add path
    listingTrie := ix.listingTrie.adjustLive path true }

/-- Drops a path that is no longer retained. -/
def removeScopePath (ix : ScopeIndexes) (path : DocumentPath) : ScopeIndexes :=
  { ix with
    directCollectionPaths := GroupedIndex.removeFrom ix.directCollectionPaths (directKey path) path
    listingTrie := ix.listingTrie.removeRetained path
    collectionGroupPaths := GroupedIndex.removeFrom ix.collectionGroupPaths path.collectionId path }

/-- Drops a path that stopped being live. -/
def removeLiveScopePath (ix : ScopeIndexes) (path : DocumentPath) : ScopeIndexes :=
  { ix with
    liveDirectCollectionPaths :=
      GroupedIndex.removeFrom ix.liveDirectCollectionPaths (directKey path) path
    liveCollectionGroupPaths :=
      GroupedIndex.removeFrom ix.liveCollectionGroupPaths path.collectionId path
    livePaths := ix.livePaths.erase path
    listingTrie := ix.listingTrie.adjustLive path false }

/-- The timestamp a document has in an expiry field. -/
def expiryTimestamp (field : FieldPath) (document : Option Document) : Option Timestamp :=
  match document.bind fun d => getField d.fields field with
  | some (.timestamp t) => some t
  | _ => none

/-- Enters or takes out the expiry entry of a path whose current document is given. -/
def updateTtlExpiryPath (ix : ScopeIndexes) (path : DocumentPath) (current : Option Document)
    (insert : Bool) : ScopeIndexes :=
  match ix.ttlExpiryIndexes.get path.collectionId with
  | none => ix
  | some index =>
      match expiryTimestamp index.field current with
      | none => ix
      | some at_ =>
          let key := toLex (at_, path)
          let entries := if insert then index.entries.add key else index.entries.erase key
          { ix with
            ttlExpiryIndexes := ix.ttlExpiryIndexes.insert path.collectionId
              { index with entries } }

/-- The expiry entries of the live documents of a group. -/
def ttlEntries (ix : ScopeIndexes) (get : DocumentPath → Option Document) (group : CollectionId)
    (field : FieldPath) : SortedSet (Timestamp ×ₗ DocumentPath) :=
  (GroupedIndex.group ix.liveCollectionGroupPaths group).toList.foldl
    (fun entries path =>
      match expiryTimestamp field (get path) with
      | some t => entries.add (toLex (t, path))
      | none => entries)
    SortedMap.empty

/-- Makes the expiry indexes those of a catalog: groups without a policy are dropped, groups with a
new policy or a new field are built. -/
def syncTtlExpiryIndexes (ix : ScopeIndexes) (get : DocumentPath → Option Document)
    (catalog : TtlCatalog) : ScopeIndexes :=
  let kept := ix.ttlExpiryIndexes.filter fun group _ => catalog.contains group
  { ix with
    ttlExpiryIndexes := catalog.entries.foldl
      (fun indexes (group, policy) =>
        match indexes.get group with
        | some index =>
            if index.field = policy.field then indexes
            else indexes.insert group ⟨policy.field, ttlEntries ix get group policy.field⟩
        | none =>
            indexes.insert group ⟨policy.field, ttlEntries ix get group policy.field⟩)
      kept }

/-- The indexes of a history given by its paths, each with whether it is live. -/
def rebuildScopePaths (paths : List (DocumentPath × Bool)) : ScopeIndexes :=
  paths.foldl
    (fun ix (path, live) =>
      let ix := ix.insertScopePath path
      if live then ix.insertLiveScopePath path else ix)
    empty

end ScopeIndexes

end Fireemu
