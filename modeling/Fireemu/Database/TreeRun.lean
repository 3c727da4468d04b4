import Fireemu.Database.TreeInvariant

/-!
# Trees over whole runs

A tree is sound when every location it holds has valid keys, lies within the limits and is not an
empty map.  A write is checked below its own path only, so that `Tree.set` keeps soundness exactly
when the location it leaves a value at lies within the limits itself; `Tree.update` parses its paths
and always keeps it.
-/

namespace Fireemu.Database

open Library (bind_eq_ok ite_throw_eq_ok forM_eq_ok exists_mem_of_mapM_eq_ok Binary64 linCmp)
open List

variable {path : Path} {t : Tree} {context : ServerValueContext}

variable {limits : Limits} {root : Option Node} {write : Write} {text : Str}

/-! ### Locations within the limits -/

/-- A location with valid keys within the limits. -/
structure Located (limits : Limits) (path : Path) : Prop where
  keys : ∀ key ∈ path, validateKey key = .ok ()
  depth : path.length ≤ limits.maxDepth
  bytes : path.byteLen ≤ limits.maxPathBytes

theorem Path.byteLen_le_append {below : Path} : path.byteLen ≤ (path ++ below : Path).byteLen := by
  unfold byteLen
  rw [map_append, sum_append, length_append]
  omega

variable {below other : Path} {m node : Node} {value : Option Node} {writes : List Write}

theorem Located.of_append (h : Located limits (path ++ below)) : Located limits path where
  keys key hkey := h.keys key (mem_append_left _ hkey)
  depth := by
    have := h.depth
    rw [length_append] at this
    omega
  bytes := Path.byteLen_le_append.trans h.bytes

/-- Below a location within the limits, what fits there is within the limits. -/
theorem Located.append (h : Located limits path) (hfits : Fits limits path node)
    (hm : node.descendant below = some m) : Located limits (path ++ below) := by
  obtain ⟨hkeys, hd, hb, -⟩ := hfits below m hm
  refine ⟨fun key hkey => ?_, by rwa [length_append], ?_⟩
  · exact (mem_append.1 hkey).elim (h.keys key) (hkeys key)
  · cases below with
    | nil => rw [append_nil]; exact h.bytes
    | cons => exact hb (cons_ne_nil _ _)

/-- Everything a node holds from the root on is within the limits and no empty map. -/
def SoundNode (limits : Limits) (root : Option Node) : Prop :=
  ∀ path node, lookup root path = some node → Located limits path ∧ node.proper = true

/-- Every location of a tree is within its limits and no empty map. -/
def Tree.Sound (t : Tree) : Prop := SoundNode t.limits t.root

theorem Tree.sound_new (limits : Limits) : (Tree.new limits).Sound := nofun

/-! ### Applying writes -/

theorem lookup_replace_at : lookup (replace root path value) path = value := by
  have h := lookup_replace_self root path value []
  rwa [append_nil, lookup_nil] at h

theorem replace_none_none : replace none path none = none := by
  induction path with
  | nil => rfl
  | cons key path ih => rw [replace, ih]; rfl

/-- A location that is not part of what was written: it is on the way to it, or as it was. -/
theorem lookup_replace_above (root value : Option Node) (h : ¬ path <+: other) :
    (∃ key rest, path = other ++ key :: rest ∧
      lookup (replace root path value) other = replace (lookup root other) (key :: rest) value) ∨
    lookup (replace root path value) other = lookup root other := by
  by_cases ha : other <+: path
  · obtain ⟨rest, rfl⟩ := ha
    cases rest with
    | nil => exact absurd (by rw [append_nil]) h
    | cons key rest => exact .inl ⟨key, rest, rfl, lookup_replace_ancestor _⟩
  · exact .inr (lookup_replace_beside root h ha)

/-- A location of a tree after a write: it is part of what was written, on the way to it, or was
there before. -/
theorem lookup_replace_cases (h : lookup (replace root path value) other = some m) :
    (∃ below node, other = path ++ below ∧ value = some node ∧ node.descendant below = some m) ∨
    (∃ key rest, path = other ++ key :: rest ∧ replace (lookup root other) (key :: rest) value = some m) ∨
    lookup root other = some m := by
  by_cases hb : path <+: other
  · obtain ⟨below, rfl⟩ := hb
    rw [lookup_replace_self] at h
    obtain ⟨node, hnode, hm⟩ := Option.bind_eq_some_iff.1 h
    exact .inl ⟨below, node, rfl, hnode, hm⟩
  · rcases lookup_replace_above root value hb with ⟨key, rest, rfl, heq⟩ | heq
    · exact .inr (.inl ⟨key, rest, rfl, heq ▸ h⟩)
    · exact .inr (.inr (heq ▸ h))

theorem SoundNode.replace (h : SoundNode limits root)
    (hv : ∀ node, value = some node → Located limits path ∧ Fits limits path node) :
    SoundNode limits (replace root path value) := by
  intro other m hm
  rcases lookup_replace_cases hm with ⟨below, node, rfl, hnode, hb⟩ | ⟨key, rest, rfl, ha⟩ | hold
  · obtain ⟨hl, hfits⟩ := hv node hnode
    exact ⟨hl.append hfits hb, (hfits below m hb).2.2.2⟩
  · refine ⟨?_, proper_replace (fun n hn => (h other n hn).2) ha⟩
    -- something is at this ancestor now: it was there, or what was written lies below it
    cases hold : lookup root other with
    | some n => exact (h other n hold).1
    | none =>
      cases value with
      | some node => exact (hv node rfl).1.of_append
      | none =>
        rw [hold, replace_none_none] at ha
        cases ha
  · exact h other m hold

theorem SoundNode.setPriority (h : SoundNode limits root) (path : Path) (priority : Option Priority) :
    SoundNode limits (root.map fun root => setPriority priority root path) := by
  intro other m hm
  cases root with
  | none => cases hm
  | some =>
    obtain ⟨n, hn, rfl | ⟨rest, rfl⟩⟩ := descendant_setPriority hm
    · exact h other _ hn
    · exact ⟨(h other n hn).1, proper_setPriority (h other n hn).2⟩

/-- A write whose value, if it has one, belongs at its path. -/
def Write.Placed (limits : Limits) : Write → Prop
  | .value path node => ∀ n, node = some n → Located limits path ∧ Fits limits path n
  | _ => True

@[simp] theorem Tree.limits_apply {t : Tree} {write : Write} : (t.apply write).limits = t.limits := by
  cases write <;> rfl

theorem Tree.Sound.apply (h : t.Sound) (hw : write.Placed t.limits) : (t.apply write).Sound := by
  cases write with
  | value => exact SoundNode.replace h hw
  | priority path priority => exact SoundNode.setPriority h path priority
  | unchanged => exact h

theorem Tree.Sound.foldl_apply (h : t.Sound) (hw : ∀ write ∈ writes, write.Placed t.limits) :
    (writes.foldl Tree.apply t).Sound := by
  induction writes generalizing t with
  | nil => exact h
  | cons write writes ih =>
    refine ih (h.apply (hw write mem_cons_self)) fun write' hmem => ?_
    rw [Tree.limits_apply]
    exact hw write' (mem_cons_of_mem _ hmem)

/-! ### What a write is checked for -/

/-- A checked write at a location that is not a priority: the resolved data was built for its path. -/
theorem Tree.prepare_eq_ok {value : Json} (h : t.prepare path value context = .ok write) :
    path.isInfo = false ∧
    (path.isPriority = true ∧ (write = .unchanged none ∨ ∃ priority, write = .priority path.dropLast priority) ∨
     path.isPriority = false ∧ ∃ resolved node, resolve context value (t.get path) = .ok resolved ∧
       Node.fromJson t.limits resolved path = .ok node ∧
       ((node == t.get path) = true ∧ write = .unchanged node ∨ write = .value path node)) := by
  unfold Tree.prepare at h
  obtain ⟨hinfo, h⟩ := ite_throw_eq_ok.1 h
  refine ⟨Bool.eq_false_iff.2 hinfo, ?_⟩
  by_cases hp : path.isPriority = true
  · rw [if_pos hp] at h
    refine .inl ⟨hp, ?_⟩
    dsimp only at h
    split at h
    · cases h
    · obtain ⟨resolved, -, h⟩ := bind_eq_ok.1 h
      obtain ⟨priority, -, h⟩ := bind_eq_ok.1 h
      split_ifs at h
      · cases h
        exact .inl rfl
      · cases h
        exact .inr ⟨priority, rfl⟩
  · rw [if_neg hp] at h
    obtain ⟨resolved, hresolved, h⟩ := bind_eq_ok.1 h
    obtain ⟨node, hnode, h⟩ := bind_eq_ok.1 h
    refine .inr ⟨Bool.eq_false_iff.2 hp, resolved, node, hresolved, hnode, ?_⟩
    split_ifs at h with heq
    · cases h
      exact .inl ⟨heq, rfl⟩
    · cases h
      exact .inr rfl

theorem Path.checkSegment_eq_ok {key : Str} {last index : ℕ} (h : checkSegment text last key index = .ok ()) :
    index = 0 ∧ key = infoKey ∨ index = last ∧ key = priorityKey ∨ validateKey key = .ok () := by
  unfold checkSegment at h
  split_ifs at h with hplace
  · exact hplace.imp_right .inl
  · exact .inr (.inr h)

/-- A parsed path that is neither under `.info` nor a priority has valid keys and is not too long. -/
theorem Path.parse_eq_ok (h : Path.parse text limits = .ok path) (hinfo : path.isInfo = false)
    (hp : path.isPriority = false) :
    (∀ key ∈ path, validateKey key = .ok ()) ∧ path.byteLen ≤ limits.maxPathBytes := by
  obtain ⟨⟨⟩, hkeys, h⟩ := bind_eq_ok.1 h
  obtain ⟨⟨⟩, hb, h⟩ := bind_eq_ok.1 h
  cases h
  refine ⟨fun key hkey => ?_, checkPathBytes_eq_ok.1 hb⟩
  obtain ⟨index, hi, rfl⟩ := getElem_of_mem hkey
  have hcheck := forM_eq_ok.1 hkeys _ (mk_mem_zipIdx_iff_getElem?.2 (getElem?_eq_getElem hi))
  rcases Path.checkSegment_eq_ok hcheck with ⟨rfl, heq⟩ | ⟨rfl, heq⟩ | hv
  · refine absurd hinfo (Bool.not_eq_false _ ▸ decide_eq_true ?_)
    rw [head?_eq_getElem?, getElem?_eq_getElem hi, heq]
  · refine absurd hp (Bool.not_eq_false _ ▸ decide_eq_true ?_)
    rw [getLast?_eq_getElem?, getElem?_eq_getElem hi, heq]
  · exact hv

/-- A path that was parsed is within the limits once something fits there. -/
theorem Located.of_parse (h : Path.parse text limits = .ok path) (hinfo : path.isInfo = false)
    (hp : path.isPriority = false) (hfits : Fits limits path node) : Located limits path := by
  obtain ⟨hkeys, hb⟩ := Path.parse_eq_ok h hinfo hp
  exact ⟨hkeys, (hfits [] node rfl).2.1, hb⟩

/-- A checked write at a parsed path belongs there. -/
theorem Tree.placed_prepare_of_parse {value : Json} (hparse : Path.parse text t.limits = .ok path)
    (h : t.prepare path value context = .ok write) : write.Placed t.limits := by
  obtain ⟨hinfo, ⟨-, rfl | ⟨priority, rfl⟩⟩ | ⟨hp, resolved, node, -, hnode, hw⟩⟩ :=
    Tree.prepare_eq_ok h
  · trivial
  · trivial
  · rcases hw with ⟨-, rfl⟩ | rfl
    · trivial
    · rintro n rfl
      have hfits := fits_build hnode
      exact ⟨.of_parse hparse hinfo hp hfits, hfits⟩

/-- Every write of an update is at a path that was parsed. -/
theorem Tree.placed_prepareUpdate {base : Path} {entries : List (Str × Json)}
    (h : t.prepareUpdate base entries context = .ok writes) : ∀ write ∈ writes, write.Placed t.limits := by
  obtain ⟨paths, hpaths, h⟩ := bind_eq_ok.1 h
  obtain ⟨⟨⟩, -, h⟩ := bind_eq_ok.1 h
  obtain ⟨all, hall, h⟩ := bind_eq_ok.1 h
  cases h
  intro write hw
  have hmem : write ∈ all := by
    rcases mem_append.1 hw with hmem | hmem <;> exact (mem_filter.1 hmem).1
  obtain ⟨⟨path, text, value⟩, hentry, hprepare⟩ := exists_mem_of_mapM_eq_ok hall hmem
  obtain ⟨entry, -, hp⟩ := exists_mem_of_mapM_eq_ok hpaths (of_mem_zip hentry).1
  obtain ⟨relative, -, hp⟩ := bind_eq_ok.1 hp
  exact Tree.placed_prepare_of_parse hp hprepare

/-! ### Equality of nodes -/

theorem Number.totalCmp_self (n : Number) : n.totalCmp n = .eq := by
  cases n with
  | int i =>
    show linCmp i.1 i.1 = .eq
    exact Std.ReflCmp.compare_self
  | double d =>
    show (Binary64.partialCmp d d).getD .eq = .eq
    unfold Binary64.partialCmp
    split_ifs
    · rfl
    · show linCmp d.scaled d.scaled = .eq
      exact Std.ReflCmp.compare_self

theorem Number.beq_self (n : Number) : (n == n) = true := by
  show (n.totalCmp n == .eq) = true
  rw [n.totalCmp_self]
  rfl

instance : ReflBEq Leaf := ⟨fun {leaf} => by
  cases leaf with
  | bool b => exact beq_self_eq_true b
  | number n => exact n.beq_self
  | string s => exact beq_self_eq_true s⟩

instance : ReflBEq Priority := ⟨fun {priority} => by
  cases priority with
  | number n => exact n.beq_self
  | string s => exact beq_self_eq_true s⟩

/-- Induction on nodes: on the children of maps. -/
theorem Node.induction {P : Node → Prop} (leaf : ∀ value priority, P (.leaf value priority))
    (children : ∀ entries priority, (∀ key node, (key, node) ∈ entries → P node) →
      P (.children entries priority)) (node : Node) : P node :=
  @Node.rec P (fun entries => ∀ key node, (key, node) ∈ entries → P node) (fun entry => P entry.2)
    leaf (fun entries priority h => children entries priority h)
    (fun _ _ h => absurd h not_mem_nil)
    (fun _ _ hentry he key node h => (mem_cons.1 h).elim
      (fun heq => by rw [← heq] at hentry; exact hentry) (he key node))
    (fun _ _ h => h) node

theorem Node.beqEntries_self {entries : List (Str × Node)}
    (h : ∀ key node, (key, node) ∈ entries → node.beq node = true) : beqEntries entries entries = true := by
  induction entries with
  | nil => rfl
  | cons entry entries ih =>
    rw [beqEntries, beq_self_eq_true, h _ _ mem_cons_self,
      ih fun key node hmem => h key node (mem_cons_of_mem _ hmem)]
    rfl

instance : ReflBEq Node := ⟨fun {node} => by
  show node.beq node = true
  induction node using Node.induction with
  | leaf value priority => simp [Node.beq]
  | children entries priority ih => simp [Node.beq, Node.beqEntries_self ih]⟩

/-! ### Single calls -/

/-- A call of the tree's interface. -/
inductive Call
  | set (path : Path) (value : Json) (context : ServerValueContext)
  | update (base : Path) (entries : List (Str × Json)) (context : ServerValueContext)

/-- A call whose path, if it is a `set`, was parsed. -/
def Call.Parsed (limits : Limits) : Call → Prop
  | .set path .. => ∃ text, Path.parse text limits = .ok path
  | .update .. => True

namespace Tree

variable {value : Json} {written : Option Node}

/-- The tree a call leaves. -/
def call (t : Tree) : Call → Tree
  | .set path value context => (t.set path value context).2
  | .update base entries context => (t.update base entries context).2

/-- The tree after a run. -/
def run (t : Tree) (calls : List Call) : Tree := calls.foldl call t

/-- What a `set` did that succeeded. -/
theorem set_eq_ok (h : (t.set path value context).1 = .ok written) :
    ∃ write, t.prepare path value context = .ok write ∧ (t.set path value context).2 = t.apply write ∧
      written = write.written := by
  unfold set at h ⊢
  cases hp : t.prepare path value context with
  | error =>
    rw [hp] at h
    cases h
  | ok write =>
    rw [hp] at h
    cases h
    exact ⟨write, rfl, rfl, rfl⟩

variable {e : DatabaseError}

theorem set_of_error (h : (t.set path value context).1 = .error e) : (t.set path value context).2 = t := by
  unfold set at h ⊢
  cases hp : t.prepare path value context with
  | error => rfl
  | ok =>
    rw [hp] at h
    cases h

theorem update_of_error {base : Path} {entries : List (Str × Json)}
    (h : (t.update base entries context).1 = .error e) : (t.update base entries context).2 = t := by
  unfold update at h ⊢
  by_cases he : entries.isEmpty
  · rw [if_pos he]
  · rw [if_neg he] at h ⊢
    cases hp : t.prepareUpdate base entries context with
    | error => rfl
    | ok =>
      rw [hp] at h
      cases h

/-! ### What a successful `set` leaves -/

/-- A `set` that succeeded at a location that is not a priority: what was written, and the write. -/
theorem set_cases (hp : path.isPriority = false) (h : (t.set path value context).1 = .ok written) :
    ∃ resolved, resolve context value (t.get path) = .ok resolved ∧
      Node.fromJson t.limits resolved path = .ok written ∧
      ((written == t.get path) = true ∧ (t.set path value context).2 = t ∨
        (t.set path value context).2 = { t with root := replace t.root path written }) := by
  obtain ⟨write, hprepare, htree, rfl⟩ := set_eq_ok h
  rw [htree]
  obtain ⟨-, ⟨hp', -⟩ | ⟨-, resolved, node, hresolved, hnode, hw⟩⟩ := prepare_eq_ok hprepare
  · rw [hp] at hp'
    cases hp'
  · refine ⟨resolved, hresolved, ?_⟩
    rcases hw with ⟨heq, rfl⟩ | rfl
    · exact ⟨hnode, .inl ⟨heq, rfl⟩⟩
    · exact ⟨hnode, .inr rfl⟩

/-- A call that gives a value to a location that is not within the limits: its JSON describes a node,
once the server values are resolved. -/
def Misplaces (t : Tree) : Call → Prop
  | .set path value context => path.isInfo = false ∧ path.isPriority = false ∧ ¬ Located t.limits path ∧
      ∃ resolved node, resolve context value (t.get path) = .ok resolved ∧
        Node.fromJson t.limits resolved path = .ok (some node)
  | .update .. => False

/-- A `set` of JSON that describes a node leaves one at its location. -/
theorem isSome_get_set {resolved : Json} {node : Node} (hi : path.isInfo = false)
    (hp : path.isPriority = false) (hresolved : resolve context value (t.get path) = .ok resolved)
    (hnode : Node.fromJson t.limits resolved path = .ok (some node)) :
    ((t.set path value context).2.get path).isSome = true := by
  have hprepare : t.prepare path value context = .ok (if some node == t.get path then .unchanged (some node)
      else .value path (some node)) := by
    unfold prepare
    simp only [hi, hp, hresolved, Bool.false_eq_true, if_false]
    change (Node.fromJson t.limits resolved path >>= _) = _
    rw [hnode]
    change (if _ then _ else _) = _
    split_ifs <;> rfl
  rw [set, hprepare]
  dsimp only
  by_cases hsame : (some node == t.get path) = true
  · rw [if_pos hsame]
    cases hget : t.get path with
    | none =>
      rw [hget] at hsame
      cases hsame
    | some => simp [apply, hget]
  · rw [if_neg hsame, apply, get_eq, lookup_replace_at]
    rfl

@[simp] theorem limits_foldl_apply (t : Tree) {writes : List Write} :
    (writes.foldl apply t).limits = t.limits :=
  writes.foldlRecOn (motive := (limits · = t.limits)) _ rfl fun _ h _ _ => limits_apply.trans h

theorem limits_call (t : Tree) (call : Call) : (t.call call).limits = t.limits := by
  cases call with
  | set =>
    unfold Tree.call set
    dsimp only
    split
    · rfl
    · exact limits_apply
  | update =>
    unfold Tree.call update
    dsimp only
    split_ifs
    · rfl
    · split
      · rfl
      · exact limits_foldl_apply t

theorem Sound.update (h : t.Sound) (base : Path) (entries : List (Str × Json))
    (context : ServerValueContext) : (t.update base entries context).2.Sound := by
  unfold Tree.update
  split_ifs
  · exact h
  · cases hp : t.prepareUpdate base entries context with
    | error => exact h
    | ok => exact h.foldl_apply (placed_prepareUpdate hp)

/-- A `set` keeps soundness exactly when it does not leave a value at a misplaced location. -/
theorem Sound.set_iff (h : t.Sound) :
    (t.set path value context).2.Sound ↔ ¬ t.Misplaces (.set path value context) := by
  constructor
  · rintro hs ⟨hi, hp, hl, resolved, node, hresolved, hnode⟩
    obtain ⟨node, hnode⟩ := Option.isSome_iff_exists.1 (isSome_get_set hi hp hresolved hnode)
    have hlimits := limits_call t (.set path value context)
    exact hl (hlimits ▸ (hs path node hnode).1)
  · intro hplaced
    cases hresult : (t.set path value context).1 with
    | error =>
      rw [set_of_error hresult]
      exact h
    | ok =>
      by_cases hp : path.isPriority = false
      · obtain ⟨resolved, hresolved, hb, ⟨-, htree⟩ | htree⟩ := set_cases hp hresult
        · rw [htree]
          exact h
        · rw [htree]
          refine SoundNode.replace h ?_
          rintro node rfl
          obtain ⟨write, hprepare, -, -⟩ := set_eq_ok hresult
          have hi := (prepare_eq_ok hprepare).1
          exact ⟨by_contra fun hl => hplaced ⟨hi, hp, hl, resolved, node, hresolved, hb⟩, fits_build hb⟩
      · obtain ⟨write, hprepare, htree, -⟩ := set_eq_ok hresult
        rw [htree]
        obtain ⟨-, ⟨-, rfl | ⟨priority, rfl⟩⟩ | ⟨hf, -⟩⟩ := prepare_eq_ok hprepare
        · exact h
        · exact h.apply trivial
        · exact absurd hf hp

theorem Sound.call_iff (h : t.Sound) {call : Call} : (t.call call).Sound ↔ ¬ t.Misplaces call := by
  cases call with
  | set => exact h.set_iff
  | update base entries context => exact iff_of_true (h.update base entries context) id

variable {calls : List Call}

/-- Every tree of a run is sound exactly when no call of it misplaces a value. -/
theorem Sound.run_iff (h : t.Sound) :
    (∀ before, before <+: calls → (t.run before).Sound) ↔
      ∀ before call, before ++ [call] <+: calls → ¬ (t.run before).Misplaces call := by
  constructor
  · intro hs before call hp
    rw [← (hs before ((prefix_append _ _).trans hp)).call_iff]
    have := hs _ hp
    rwa [run, foldl_append] at this
  · intro hplaced before
    induction before using List.reverseRecOn with
    | nil => exact fun _ => h
    | append_singleton before call ih =>
      intro hp
      have hb := ih ((prefix_append _ _).trans hp)
      rw [run, foldl_append]
      exact (hb.call_iff).2 (hplaced before call hp)

/-- A `set` at a path that was parsed does not misplace a value. -/
theorem Sound.set_of_parse (h : t.Sound) (hparse : Path.parse text t.limits = .ok path) :
    (t.set path value context).2.Sound := by
  cases hresult : (t.set path value context).1 with
  | error =>
    rw [set_of_error hresult]
    exact h
  | ok =>
    obtain ⟨write, hp, htree, -⟩ := set_eq_ok hresult
    rw [htree]
    exact h.apply (placed_prepare_of_parse hparse hp)

theorem Sound.run_of_parse (h : t.Sound) (hc : ∀ call ∈ calls, call.Parsed t.limits) :
    (t.run calls).Sound := by
  induction calls generalizing t with
  | nil => exact h
  | cons call calls ih =>
    have hstep : (t.call call).Sound := by
      cases call with
      | set =>
        obtain ⟨text, hp⟩ := hc _ mem_cons_self
        exact h.set_of_parse hp
      | update base entries context => exact h.update base entries context
    refine ih hstep fun call' hmem => ?_
    rw [limits_call]
    exact hc call' (mem_cons_of_mem _ hmem)

/-- What a `set` at a location that is not a priority leaves. -/
structure SetEffect (t t' : Tree) (path : Path) (value : Json) (context : ServerValueContext)
    (written : Option Node) : Prop where
  built : ∃ resolved, resolve context value (t.get path) = .ok resolved ∧
    Node.fromJson t.limits resolved path = .ok written
  read : (written == t'.get path) = true
  beside : ∀ other, ¬ path <+: other → ¬ other <+: path → t'.get other = t.get other
  priority : ∀ ancestor node node', ancestor <+: path → ancestor ≠ path →
    t.get ancestor = some node → t'.get ancestor = some node' → node'.priority = node.priority

theorem setEffect (hp : path.isPriority = false) (h : (t.set path value context).1 = .ok written) :
    SetEffect t (t.set path value context).2 path value context written := by
  obtain ⟨resolved, hresolved, hb, ⟨heq, htree⟩ | htree⟩ := set_cases hp h
  · rw [htree]
    refine ⟨⟨resolved, hresolved, hb⟩, heq, fun _ _ _ => rfl, ?_⟩
    intro ancestor node node' _ _ hnode hnode'
    rw [hnode] at hnode'
    cases hnode'
    rfl
  · rw [htree]
    refine ⟨⟨resolved, hresolved, hb⟩, ?_, ?_, ?_⟩
    · rw [get_eq, lookup_replace_at]
      exact BEq.rfl
    · intro other hbelow ha
      exact lookup_replace_beside t.root hbelow ha
    · rintro ancestor node node' ⟨rest, rfl⟩ hne hnode hnode'
      rw [get_eq, lookup_replace_ancestor, ← get_eq, hnode] at hnode'
      cases rest with
      | nil => exact absurd (append_nil _).symm hne
      | cons => exact priority_replace hnode'

/-- Over every run: the trees are sound exactly while no `set` gives a value to a location beyond
the limits, which a `set` at a parsed path never does; refused calls change nothing; and a `set` that
succeeds changes its own location, below it, and what is on the way to it. -/
theorem run_new (limits : Limits) (calls : List Call) :
    ((∀ before, before <+: calls → ((new limits).run before).Sound) ↔
      ∀ before call, before ++ [call] <+: calls → ¬ ((new limits).run before).Misplaces call) ∧
    ((∀ call ∈ calls, call.Parsed limits) → ((new limits).run calls).Sound) ∧ let t := (new limits).run calls
    (∀ path value context e, (t.set path value context).1 = .error e → (t.set path value context).2 = t) ∧
    (∀ base entries context e, (t.update base entries context).1 = .error e →
      (t.update base entries context).2 = t) ∧ ∀ path value context written, path.isPriority = false →
      (t.set path value context).1 = .ok written →
      SetEffect t (t.set path value context).2 path value context written := by
  refine ⟨(sound_new limits).run_iff, (sound_new limits).run_of_parse, ?_, ?_, ?_⟩
  · intro path value context e
    exact set_of_error
  · intro base entries context e
    exact update_of_error
  · intro path value context written
    exact setEffect

/-- The key that a generated child gets. -/
def generatedKey : Str := "-OAAAAAAAAAAAAAAAAAA".toList

/-- A child of a parsed path can be too long, and it can lie below a priority: nothing refuses it, and
the tree holds a location beyond the limits, or one with a key that is no key. -/
theorem set_child_of_parse :
    let long : Path := [List.replicate 768 'a']
    let priority : Path := ["a".toList, priorityKey]
    Path.parse (List.replicate 768 'a') .production = .ok long ∧
      Path.parse "/a/.priority".toList .production = .ok priority ∧
      ¬ ((new .production).set (long ++ [generatedKey]) (.bool true) ⟨⟨0, by decide⟩⟩).2.Sound ∧
      ¬ ((new .production).set (priority ++ [generatedKey]) (.bool true) ⟨⟨0, by decide⟩⟩).2.Sound := by
  refine ⟨by decide +kernel, by decide +kernel, ?_, ?_⟩
  · rw [(sound_new _).set_iff, not_not]
    refine ⟨by decide +kernel, by decide +kernel, fun h => ?_, .bool true, .leaf (.bool true) none, rfl, rfl⟩
    exact absurd h.bytes (by decide +kernel)
  · rw [(sound_new _).set_iff, not_not]
    refine ⟨by decide +kernel, by decide +kernel, fun h => ?_, .bool true, .leaf (.bool true) none, rfl, rfl⟩
    exact absurd (h.keys priorityKey (by decide)) (by decide +kernel)

end Tree

end Fireemu.Database
