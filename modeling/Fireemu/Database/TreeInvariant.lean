import Fireemu.Database.Tree
import Fireemu.Library.Fallible

/-!
# What writes do to a tree

`replace` is described by the children it leaves: the child on the way to the written location is
replaced in turn and all others stay.  From that follows what a write does to every location.

A tree is sound when every location it holds lies within the limits, has valid keys, and is not an
empty map.  Every write keeps this that is made at such a location.
-/

namespace Fireemu.Database

open Library (OrdList.get OrdList.insert OrdList.erase OrdList.get_insert OrdList.get_erase
  OrdList.get_cons OrdList.mem_of_get bind_eq_ok ite_throw_eq_ok foldlM_rule mapM_eq_ok forM_eq_ok)
open List
variable {key : Str} {path : Path} {m node : Node} {limits : Limits}

/-! ### Locations of a node -/

/-- The node at a path below a node that may be absent. -/
def lookup (node : Option Node) (path : Path) : Option Node :=
  node.bind fun node => node.descendant path

@[simp] theorem lookup_nil (node : Option Node) : lookup node [] = node := by
  cases node <;> rfl

@[simp] theorem lookup_none {path : Path} : lookup none path = none := rfl

theorem lookup_cons {node : Option Node} : lookup node (key :: path) = lookup (childOf node key) path := by
  cases node <;> rfl

theorem lookup_append (node : Option Node) (path path' : Path) :
    lookup node (path ++ path') = lookup (lookup node path) path' := by
  induction path generalizing node with
  | nil => simp
  | cons key path ih => rw [cons_append, lookup_cons, ih, ← lookup_cons]

theorem Tree.get_eq {t : Tree} : t.get path = lookup t.root path := rfl

/-- Whether a node is not an empty map. -/
def Node.proper : Node → Bool
  | .children [] _ => false
  | _ => true

theorem Node.proper_withPriority {priority : Option Priority} :
    (node.withPriority priority).proper = node.proper := by
  cases node with
  | leaf => rfl
  | children entries => cases entries <;> rfl

theorem Node.child_withPriority {priority : Option Priority} :
    (node.withPriority priority).child key = node.child key := by
  cases node <;> rfl

/-! ### Replacing a location -/

theorem childOf_replace_self {node : Option Node} {value : Option Node} :
    childOf (replace node (key :: path) value) key = replace (childOf node key) path value := by
  rcases node with _ | ⟨leaf, priority⟩ | ⟨entries, priority⟩
  · cases h : replace none path value <;> simp [replace, h, childOf, Node.child, OrdList.get_cons]
  · cases h : replace none path value <;> simp [replace, h, childOf, Node.child, OrdList.get_cons]
  · cases h : replace (OrdList.get key entries) path value with
    | some child => simp [replace, h, childOf, Node.child, OrdList.get_insert]
    | none =>
      have hchild : childOf (some (.children entries priority)) key = OrdList.get key entries := rfl
      rw [hchild, h]
      by_cases hrest : (OrdList.erase key entries).isEmpty
      · simp [replace, h, hrest, childOf]
      · simp [replace, h, hrest, childOf, Node.child, OrdList.get_erase]

variable {key' : Str}

theorem childOf_replace_of_ne (node : Option Node) (hne : key' ≠ key) (path : Path) (value : Option Node) :
    childOf (replace node (key :: path) value) key' = childOf node key' := by
  rcases node with _ | ⟨leaf, priority⟩ | ⟨entries, priority⟩
  · cases h : replace none path value <;> simp [replace, h, childOf, Node.child, OrdList.get_cons, hne]
  · cases h : replace none path value <;> simp [replace, h, childOf, Node.child, OrdList.get_cons, hne]
  · have hrest : OrdList.get key' (OrdList.erase key entries) = OrdList.get key' entries := by
      rw [OrdList.get_erase, if_neg hne]
    cases h : replace (OrdList.get key entries) path value with
    | some child => simp [replace, h, childOf, Node.child, OrdList.get_insert, hne, hrest]
    | none =>
      by_cases he : (OrdList.erase key entries).isEmpty
      · -- nothing is left, so there was nothing else
        have hnone : OrdList.get key' entries = none := by
          rw [← hrest, isEmpty_iff.1 he]
          rfl
        simp [replace, h, he, childOf, Node.child, hnone]
      · simp [replace, h, he, childOf, Node.child, hrest]

/-- Below the written location stands what was written. -/
theorem lookup_replace_self (node : Option Node) (path : Path) (value : Option Node) (below : Path) :
    lookup (replace node path value) (path ++ below) = lookup value below := by
  induction path generalizing node with
  | nil => rw [nil_append, replace]
  | cons key path ih => rw [cons_append, lookup_cons, childOf_replace_self, ih]

variable {other : Path} {value : Option Node} {priority : Option Priority}

/-- A location beside the written one stays. -/
theorem lookup_replace_beside (node : Option Node) (h : ¬ path <+: other) (h' : ¬ other <+: path) :
    lookup (replace node path value) other = lookup node other := by
  induction path generalizing node other with
  | nil => exact absurd nil_prefix h
  | cons key path ih =>
    cases other with
    | nil => exact absurd nil_prefix h'
    | cons key' =>
      rw [lookup_cons, lookup_cons]
      by_cases hkey : key' = key
      · subst hkey
        rw [childOf_replace_self]
        refine ih _ (fun hp => h ?_) fun hp => h' ?_
        · exact cons_prefix_cons.2 ⟨rfl, hp⟩
        · exact cons_prefix_cons.2 ⟨rfl, hp⟩
      · rw [childOf_replace_of_ne node hkey]

/-- At an ancestor of the written location stands a node in which the rest of the path is
replaced. -/
theorem lookup_replace_ancestor (node : Option Node) {ancestor : Path} :
    lookup (replace node (ancestor ++ path) value) ancestor = replace (lookup node ancestor) path value := by
  induction ancestor generalizing node with
  | nil => simp
  | cons key ancestor ih => rw [cons_append, lookup_cons, childOf_replace_self, ih, ← lookup_cons]

/-- A node with a child is not an empty map. -/
theorem proper_replace {node : Option Node} (hnode : ∀ n, node = some n → n.proper = true)
    (h : replace node (key :: path) value = some m) : m.proper = true := by
  rcases node with _ | ⟨leaf, priority⟩ | ⟨entries, priority⟩
  · obtain ⟨child, -, rfl⟩ := Option.map_eq_some_iff.1 h
    rfl
  · rw [replace] at h
    split at h
    · cases h
      rfl
    · cases h
      rfl
  · rw [replace] at h
    split at h
    · cases h
      rename_i child _
      cases hi : OrdList.insert key child (OrdList.erase key entries) with
      | nil =>
        have hget := OrdList.get_insert key key child (OrdList.erase key entries)
        rw [hi, if_pos rfl] at hget
        cases hget
      | cons => rfl
    · split_ifs at h with he
      cases h
      cases hrest : OrdList.erase key entries with
      | nil => exact absurd (by rw [hrest]; rfl) he
      | cons => rfl

/-- A node that is still there has its priority. -/
theorem priority_replace (h : replace (some node) (key :: path) value = some m) :
    m.priority = node.priority := by
  cases node with
  | leaf =>
    rw [replace] at h
    split at h <;> cases h <;> rfl
  | children =>
    rw [replace] at h
    split at h
    · cases h
      rfl
    · split_ifs at h
      cases h
      rfl

/-! ### Setting a priority -/

theorem child_setPriority : (setPriority priority node (key :: path)).child key' =
      if key' = key then (node.child key).map fun child => setPriority priority child path
      else node.child key' := by
  cases node with
  | leaf =>
    rw [setPriority]
    split_ifs <;> rfl
  | children entries =>
    rw [setPriority]
    cases hget : OrdList.get key entries with
    | none =>
      simp only [Node.child]
      split_ifs with hkey
      · rw [hkey, hget]
        rfl
      · rfl
    | some child =>
      simp only [Node.child, OrdList.get_insert, hget, Option.map_some]
      split_ifs <;> rfl

theorem proper_setPriority (h : node.proper = true) : (setPriority priority node path).proper = true := by
  cases path with
  | nil => rw [setPriority, Node.proper_withPriority, h]
  | cons key path =>
    cases node with
    | leaf => rfl
    | children entries own =>
      rw [setPriority]
      split
      · exact h
      · rename_i child hget
        cases hi : OrdList.insert key (setPriority priority child path) entries with
        | nil =>
          have hget := OrdList.get_insert key key (setPriority priority child path) entries
          rw [hi, if_pos rfl] at hget
          cases hget
        | cons => rfl

/-- Setting a priority changes only priorities. -/
theorem descendant_setPriority (h : (setPriority priority node path).descendant other = some m) :
    ∃ n, node.descendant other = some n ∧ (m = n ∨ ∃ rest, m = setPriority priority n rest) := by
  induction other generalizing node path with
  | nil =>
    cases h
    exact ⟨node, rfl, .inr ⟨path, rfl⟩⟩
  | cons key' other ih =>
    rw [Node.descendant] at h ⊢
    cases path with
    | nil =>
      rw [setPriority, Node.child_withPriority] at h
      exact ⟨m, h, .inl rfl⟩
    | cons =>
      rw [child_setPriority] at h
      split_ifs at h with hkey
      · subst hkey
        cases hchild : node.child key' with
        | none =>
          rw [hchild] at h
          cases h
        | some =>
          rw [hchild] at h
          exact ih h
      · exact ⟨m, h, .inl rfl⟩

/-! ### Building nodes -/

/-- Induction on JSON values: on the items of arrays and the members of objects. -/
theorem Json.induction {P : Json → Prop} (null : P .null) (bool : ∀ b, P (.bool b))
    (number : ∀ n, P (.number n)) (string : ∀ s, P (.string s))
    (array : ∀ items, (∀ item ∈ items, P item) → P (.array items))
    (object : ∀ members, (∀ key value, (key, value) ∈ members → P value) → P (.object members))
    (json : Json) : P json :=
  @Json.rec P (fun items => ∀ item ∈ items, P item)
    (fun members => ∀ key value, (key, value) ∈ members → P value) (fun member => P member.2)
    null bool number string array object
    (fun _ h => absurd h not_mem_nil)
    (fun _ _ hitem hi item h => (mem_cons.1 h).elim (fun heq => heq ▸ hitem) (hi item))
    (fun _ _ h => absurd h not_mem_nil)
    (fun _ _ hm hmembers key value h => (mem_cons.1 h).elim
      (fun heq => by rw [← heq] at hm; exact hm) (hmembers key value))
    (fun _ _ h => h) json

theorem Node.buildItems_eq {items : List Json} : buildItems limits items = items.map (build limits) := by
  induction items with
  | nil => rfl
  | cons item items ih => rw [buildItems, ih, map_cons]

theorem Node.buildMembers_eq {members : List (Str × Json)} :
    buildMembers limits members = members.map fun (key, value) => (key, value, build limits value) := by
  induction members with
  | nil => rfl
  | cons member members ih => rw [buildMembers, ih, map_cons]

theorem Position.child_of : (Position.of path).child key = Position.of (path ++ [key]) := by
  unfold Position.child Position.of Path.byteLen
  rcases path with _ | ⟨first, path⟩
  · simp
  · simp only [length_append, length_cons, length_nil, map_append, map_cons,
      map_nil, sum_append, sum_cons, sum_nil, Position.mk.injEq, true_and]
    rw [if_pos (by omega)]
    omega

/-- A node fits at a path: everything below it has valid keys, lies within the limits and is no empty
map.  The path itself is not checked for its length. -/
def Fits (limits : Limits) (path : Path) (node : Node) : Prop :=
  ∀ below m, node.descendant below = some m → (∀ key ∈ below, validateKey key = .ok ()) ∧
    path.length + below.length ≤ limits.maxDepth ∧
    (below ≠ [] → (path ++ below : Path).byteLen ≤ limits.maxPathBytes) ∧ m.proper = true

theorem fits_leaf (h : path.length ≤ limits.maxDepth) {value : Leaf} :
    Fits limits path (.leaf value priority) := by
  intro below m hm
  cases below with
  | nil =>
    cases hm
    exact ⟨nofun, by simpa using h, fun hne => absurd rfl hne, rfl⟩
  | cons => cases hm

theorem fits_children (h : path.length ≤ limits.maxDepth) {entries : List (Str × Node)} (hne : entries ≠ [])
    (he : ∀ key node, OrdList.get key entries = some node → validateKey key = .ok () ∧
      (path ++ [key] : Path).byteLen ≤ limits.maxPathBytes ∧ Fits limits (path ++ [key]) node) :
    Fits limits path (.children entries priority) := by
  intro below m hm
  cases below with
  | nil =>
    cases hm
    refine ⟨nofun, by simpa using h, fun hne => absurd rfl hne, ?_⟩
    cases entries with
    | nil => exact absurd rfl hne
    | cons => rfl
  | cons key below =>
    obtain ⟨node, hnode, hm⟩ := Option.bind_eq_some_iff.1 hm
    obtain ⟨hkey, hb, hfits⟩ := he key node hnode
    obtain ⟨hkeys, hd, hlong, hp⟩ := hfits below m hm
    refine ⟨?_, ?_, fun _ => ?_, hp⟩
    · intro key' hkey'
      rcases mem_cons.1 hkey' with rfl | hkey'
      · exact hkey
      · exact hkeys key' hkey'
    · rw [length_append, length_singleton] at hd
      rw [length_cons]
      omega
    · rw [append_cons]
      cases below with
      | nil => rwa [append_nil]
      | cons => exact hlong (cons_ne_nil _ _)

theorem fits_withPriority (h : Fits limits path node) : Fits limits path (node.withPriority priority) := by
  intro below m hm
  cases below with
  | nil =>
    cases hm
    obtain ⟨hkeys, hd, hlong, hp⟩ := h [] node rfl
    exact ⟨hkeys, hd, hlong, by rw [Node.proper_withPriority, hp]⟩
  | cons key below =>
    rw [Node.descendant, Node.child_withPriority] at hm
    exact h (key :: below) m hm

theorem checkPathBytes_eq_ok {bytes : ℕ} :
    checkPathBytes bytes limits = .ok () ↔ bytes ≤ limits.maxPathBytes := by
  unfold checkPathBytes
  split_ifs with h
  · exact iff_of_false nofun (by omega)
  · exact iff_of_true rfl (by omega)

/-- Adding an entry checks its key and its path before it is built. -/
theorem addEntry_eq_ok {children children' : List (Str × Node)} {build : Builder}
    (h : Node.addEntry limits (.of path) children (key, build) = .ok children') :
    validateKey key = .ok () ∧ (path ++ [key] : Path).byteLen ≤ limits.maxPathBytes ∧
      ∃ built, build (.of (path ++ [key])) = .ok built ∧
        children' = built.elim children fun child => OrdList.insert key child children := by
  obtain ⟨⟨⟩, hkey, h⟩ := bind_eq_ok.1 h
  obtain ⟨⟨⟩, hbytes, h⟩ := bind_eq_ok.1 h
  obtain ⟨built, hb, h⟩ := bind_eq_ok.1 h
  rw [Position.child_of] at hbytes hb
  refine ⟨hkey, checkPathBytes_eq_ok.1 hbytes, built, hb, ?_⟩
  cases built <;> cases h <;> rfl

theorem fits_fromEntries (hd : path.length ≤ limits.maxDepth) {entries : List (Str × Builder)}
    (hent : ∀ entry ∈ entries, ∀ path child, entry.2 (.of path) = .ok (some child) → Fits limits path child)
    (h : Node.fromEntries limits entries priority (.of path) = .ok (some node)) : Fits limits path node := by
  obtain ⟨children, hfold, h⟩ := bind_eq_ok.1 h
  -- every child was built from an entry with a valid key and a path within the limit
  have hc := foldlM_rule (fun children => ∀ key node, OrdList.get key children = some node →
      validateKey key = .ok () ∧ (path ++ [key] : Path).byteLen ≤ limits.maxPathBytes ∧
        Fits limits (path ++ [key]) node) (fun children children' entry hmem hold hadd key child hget => by
    obtain ⟨hkey, hbytes, built, hb, rfl⟩ := addEntry_eq_ok hadd
    cases built with
    | none => exact hold key child hget
    | some =>
      rw [Option.elim_some, OrdList.get_insert] at hget
      split_ifs at hget with heq
      · cases hget
        rw [heq]
        exact ⟨hkey, hbytes, hent entry hmem _ _ hb⟩
      · exact hold key child hget) (fun _ _ hnone => by cases hnone) hfold
  by_cases he : children.isEmpty = true
  · rw [if_pos he] at h
    split_ifs at h <;> cases h
  · rw [if_neg he] at h
    cases h
    exact fits_children hd (fun hnil => he (by rw [hnil]; rfl)) hc

theorem fits_fromObject (hd : path.length ≤ limits.maxDepth) {members : List (Str × Json × Builder)}
    (hm : ∀ member ∈ members, ∀ path child, member.2.2 (.of path) = .ok (some child) → Fits limits path child)
    (h : Node.fromObject limits members (.of path) = .ok (some node)) : Fits limits path node := by
  unfold Node.fromObject at h
  obtain ⟨-, h⟩ := ite_throw_eq_ok.1 h
  obtain ⟨priority, -, h⟩ := bind_eq_ok.1 h
  have hrest : ∀ member ∈ OrdList.erase priorityKey members, member ∈ members := fun member hmem =>
    (mem_filter.1 hmem).1
  dsimp only at h
  split at h
  · rename_i value build hget
    obtain ⟨-, h⟩ := ite_throw_eq_ok.1 h
    obtain ⟨built, hb, h⟩ := bind_eq_ok.1 h
    obtain ⟨-, h⟩ := ite_throw_eq_ok.1 h
    cases built with
    | none => cases h
    | some =>
      cases h
      exact fits_withPriority (hm _ (hrest _ (OrdList.mem_of_get hget)) _ _ hb)
  · refine fits_fromEntries hd (fun entry hmem => ?_) h
    obtain ⟨member, hmember, rfl⟩ := mem_map.1 hmem
    exact hm member (hrest member hmember)

/-- What is built for a path fits there. -/
theorem fits_build {json : Json} (h : Node.build limits json (.of path) = .ok (some node)) :
    Fits limits path node := by
  induction json using Json.induction generalizing path node with
  | null =>
    rw [Node.build] at h
    split_ifs at h
    cases h
  | bool | number | string =>
    rw [Node.build] at h
    split_ifs at h with hd
    cases h
    exact fits_leaf (not_lt.1 hd)
  | array items ih =>
    rw [Node.build, Node.buildItems_eq] at h
    split_ifs at h with hd
    refine fits_fromEntries (not_lt.1 hd) (fun entry hmem path child hb => ?_) h
    obtain ⟨⟨build, index⟩, hi, rfl⟩ := mem_map.1 hmem
    obtain ⟨item, hitem, rfl⟩ := mem_map.1 (fst_mem_of_mem_zipIdx hi)
    exact ih item hitem hb
  | object members ih =>
    rw [Node.build, Node.buildMembers_eq] at h
    split_ifs at h with hd
    refine fits_fromObject (not_lt.1 hd) (fun member hmem path child hb => ?_) h
    obtain ⟨⟨key, value⟩, hm, rfl⟩ := mem_map.1 hmem
    exact ih key value hm hb

end Fireemu.Database
