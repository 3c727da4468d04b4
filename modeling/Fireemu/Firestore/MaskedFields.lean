import Fireemu.Firestore.Write
import Fireemu.Library.Commute

/-!
# What an update mask writes

A set with an update mask stores or removes the value of each path of the mask.  Both are one operation
on a value that may be absent, `writeAt`; what it does is said by one lemma about the children of the
result (`childAt_writeAt`), from which the value at the path, the values beside it and the independence
of writes at incomparable paths follow.  `maskedFields_touches_mask` collects them for a whole mask.
-/

namespace Fireemu

open Library (OrdList.get OrdList.insert OrdList.erase OrdList.Sorted OrdList.get_insert
  OrdList.get_erase foldl_eq_of_perm)
open List
variable {v o : Option Value} {p q : List Str}

/-! ### Values at paths -/

/-- The value under a key of a value that may be absent. -/
def childAt (v : Option Value) (s : Str) : Option Value :=
  match v with
  | some (.map entries) => OrdList.get s entries
  | _ => none

/-- The value at the end of segments below a value that may be absent. -/
def valueAt : Option Value → List Str → Option Value
  | v, [] => v
  | v, s :: p => valueAt (childAt v s) p

/-- Stores or removes the entry of a key. -/
def putEntry (s : Str) : Option Value → Fields → Fields
  | some x, entries => OrdList.insert s x entries
  | none, entries => OrdList.erase s entries

/-- Stores or removes what is at the end of segments.  Only a store makes maps of what is in the
way. -/
def writeAt (o : Option Value) : Option Value → List Str → Option Value
  | _, [] => o
  | some (.map entries), s :: p =>
      some (.map (putEntry s (writeAt o (OrdList.get s entries) p) entries))
  | v, s :: p =>
      match o with
      | some _ => some (.map (putEntry s (writeAt o none p) []))
      | none => v

theorem writeAt_none_none : writeAt none none p = none := by
  cases p <;> rfl

variable {k s : Str} {x : Option Value}

theorem get_putEntry {entries : Fields} :
    OrdList.get k (putEntry s x entries) = if k = s then x else OrdList.get k entries := by
  cases x with
  | some =>
    rw [putEntry, OrdList.get_insert]
    split_ifs <;> rfl
  | none =>
    rw [putEntry, OrdList.get_erase]
    split_ifs <;> rfl

/-- A value that is no map has no children, and is not changed when something below it is removed. -/
theorem writeAt_of_not_map (hv : ∀ entries, v ≠ some (.map entries)) (o : Option Value) (s : Str)
    (p : List Str) :
    childAt v = (fun _ => none) ∧ writeAt o v (s :: p) =
      o.elim v fun _ => some (.map (putEntry s (writeAt o none p) [])) := by
  rcases v with _ | v
  · cases o <;> exact ⟨rfl, rfl⟩
  · cases v <;> first | exact absurd rfl (hv _) | (cases o <;> exact ⟨rfl, rfl⟩)

/-- A write below a key changes the value of that key only. -/
theorem childAt_writeAt :
    childAt (writeAt o v (s :: p)) k = if k = s then writeAt o (childAt v s) p else childAt v k := by
  by_cases hv : ∃ entries, v = some (.map entries)
  · obtain ⟨entries, rfl⟩ := hv
    exact get_putEntry
  · obtain ⟨hchild, hw⟩ := writeAt_of_not_map (fun entries heq => hv ⟨entries, heq⟩) o s p
    rw [hw, hchild]
    cases o with
    | some => exact get_putEntry
    | none => simp [hchild, writeAt_none_none]

theorem valueAt_writeAt_self (v : Option Value) : valueAt (writeAt o v p) p = o := by
  induction p generalizing v with
  | nil => rfl
  | cons s p ih => rw [valueAt, childAt_writeAt, if_pos rfl, ih]

/-- Neither of two paths is a beginning of the other. -/
def Beside (p q : List Str) : Prop := ¬ p <+: q ∧ ¬ q <+: p

theorem Beside.symm (h : Beside p q) : Beside q p := And.symm h

theorem beside_cons : Beside (s :: p) (s :: q) ↔ Beside p q := by
  unfold Beside
  rw [cons_prefix_cons, cons_prefix_cons]
  simp

theorem valueAt_writeAt_beside (v : Option Value) (h : Beside p q) :
    valueAt (writeAt o v p) q = valueAt v q := by
  induction p generalizing v q with
  | nil => exact absurd nil_prefix h.1
  | cons s p ih =>
    cases q with
    | nil => exact absurd nil_prefix h.2
    | cons =>
      rw [valueAt, valueAt, childAt_writeAt]
      split_ifs with hkey
      · subst hkey
        exact ih _ (beside_cons.1 h)
      · rfl

/-! ### Key order -/

/-- All maps in a value are in key order. -/
def Ordered (v : Option Value) : Prop :=
  ∀ p entries, valueAt v p = some (.map entries) → OrdList.Sorted entries

theorem Ordered.child (h : Ordered v) (s : Str) : Ordered (childAt v s) :=
  fun p => h (s :: p)

theorem ordered_valueAt (h : Ordered v) : Ordered (valueAt v p) := by
  induction p generalizing v with
  | nil => exact h
  | cons s p ih => exact ih (h.child s)

variable {entries : Fields}

theorem sorted_putEntry (h : OrdList.Sorted entries) : OrdList.Sorted (putEntry s x entries) := by
  cases x with
  | some => exact h.insert
  | none => exact h.erase

theorem Ordered.writeAt (ho : Ordered o) (hv : Ordered v) (p : List Str) : Ordered (writeAt o v p) := by
  induction p generalizing v with
  | nil => exact ho
  | cons s p ih =>
    intro q entries hq
    cases q with
    | nil =>
      rw [valueAt] at hq
      by_cases hmap : ∃ entries, v = some (.map entries)
      · obtain ⟨entries', rfl⟩ := hmap
        cases hq
        exact sorted_putEntry (hv [] entries' rfl)
      · rw [(writeAt_of_not_map (fun entries heq => hmap ⟨entries, heq⟩) o s p).2] at hq
        cases o with
        | some =>
          cases hq
          exact sorted_putEntry .nil
        | none => exact hv [] entries hq
    | cons t q =>
      rw [valueAt, childAt_writeAt] at hq
      split_ifs at hq with hkey
      · exact ih (hv.child s) q entries hq
      · exact hv (t :: q) entries hq

/-- A write below a map leaves a map, and so does every store. -/
theorem exists_map_writeAt (h : (∃ entries, v = some (.map entries)) ∨ o ≠ none) :
    ∃ entries, writeAt o v (s :: p) = some (.map entries) := by
  by_cases hmap : ∃ entries, v = some (.map entries)
  · obtain ⟨entries, rfl⟩ := hmap
    exact ⟨_, rfl⟩
  · obtain ⟨x, rfl⟩ := Option.ne_none_iff_exists'.1 (h.resolve_left hmap)
    exact ⟨_, (writeAt_of_not_map (fun entries heq => hmap ⟨entries, heq⟩) _ s p).2⟩

/-- Writes at incomparable paths commute. -/
theorem writeAt_comm {o' : Option Value} (ho : Ordered o) (ho' : Ordered o') (hv : Ordered v) (h : Beside p q) :
    writeAt o' (writeAt o v p) q = writeAt o (writeAt o' v q) p := by
  induction p generalizing v q with
  | nil => exact absurd nil_prefix h.1
  | cons s p ih =>
    cases q with
    | nil => exact absurd nil_prefix h.2
    | cons t q =>
      by_cases hmap : (∃ entries, v = some (.map entries)) ∨ o ≠ none ∨ o' ≠ none
      · -- both results are maps in key order, with the same children
        obtain ⟨entries, heq⟩ : ∃ entries, writeAt o' (writeAt o v (s :: p)) (t :: q) = some (.map entries) :=
          exists_map_writeAt (or_iff_not_imp_right.2 fun hnone =>
            exists_map_writeAt (by tauto))
        obtain ⟨entries', heq'⟩ : ∃ entries,
            writeAt o (writeAt o' v (t :: q)) (s :: p) = some (.map entries) :=
          exists_map_writeAt (or_iff_not_imp_right.2 fun hnone =>
            exists_map_writeAt (by tauto))
        have hchild : ∀ k, childAt (writeAt o' (writeAt o v (s :: p)) (t :: q)) k =
            childAt (writeAt o (writeAt o' v (t :: q)) (s :: p)) k := by
          intro k
          rw [childAt_writeAt, childAt_writeAt, childAt_writeAt, childAt_writeAt, childAt_writeAt,
            childAt_writeAt]
          by_cases hst : s = t
          · subst hst
            rw [if_pos rfl, if_pos rfl, ih (hv.child s) (beside_cons.1 h)]
            split_ifs <;> rfl
          · rw [if_neg hst, if_neg (Ne.symm hst)]
            split_ifs with hkt hks <;> first | rfl | exact absurd (hks.symm.trans hkt) hst
        have hs := ho'.writeAt (ho.writeAt hv (s :: p)) (t :: q) [] entries heq
        have hs' := ho.writeAt (ho'.writeAt hv (t :: q)) (s :: p) [] entries' heq'
        rw [heq, heq'] at hchild ⊢
        rw [hs.eq_of_get hs' hchild]
      · -- nothing is there to remove
        push Not at hmap
        obtain ⟨hnot, rfl, rfl⟩ := hmap
        have hsame := fun s p => (writeAt_of_not_map hnot none s p).2
        rw [hsame, hsame]
        exact (hsame t q).trans (hsame s p).symm

/-! ### Field trees -/

theorem putEntry_get (h : OrdList.Sorted entries) (s : Str) :
    putEntry s (OrdList.get s entries) entries = entries := by
  refine (sorted_putEntry h).eq_of_get h fun k => ?_
  rw [get_putEntry]
  split_ifs with hkey
  · rw [hkey]
  · rfl

theorem valueAt_none : valueAt none p = none := by
  induction p with
  | nil => rfl
  | cons s p ih => exact ih

theorem getSegments_eq (fields : Fields) (hp : p ≠ []) :
    getSegments fields p = valueAt (some (.map fields)) p := by
  induction p generalizing fields with
  | nil => exact absurd rfl hp
  | cons s p ih =>
    cases p with
    | nil => rfl
    | cons t p =>
      rw [getSegments, valueAt]
      · change _ = valueAt (OrdList.get s fields) (t :: p)
        split
        · rename_i entries hget
          rw [hget, ih entries (cons_ne_nil _ _)]
        · rename_i hnot
          rw [valueAt, (writeAt_of_not_map hnot none t p).1, valueAt_none]
      · exact cons_ne_nil _ _

theorem setSegments_eq (fields : Fields) {value : Value} (hp : p ≠ []) :
    writeAt (some value) (some (.map fields)) p = some (.map (setSegments fields value p)) := by
  induction p generalizing fields with
  | nil => exact absurd rfl hp
  | cons s p ih =>
    cases p with
    | nil => rfl
    | cons t p =>
      rw [setSegments, writeAt]
      · split
        · rename_i entries hget
          rw [hget, ih entries (cons_ne_nil _ _)]
          rfl
        · rename_i hnot
          have hnew : writeAt (some value) (OrdList.get s fields) (t :: p) =
              writeAt (some value) (some (.map [])) (t :: p) :=
            (writeAt_of_not_map hnot (some value) t p).2
          rw [hnew, ih [] (cons_ne_nil _ _)]
          rfl
      · exact cons_ne_nil _ _

theorem deleteSegments_eq {fields : Fields} (h : Ordered (some (.map fields))) (hp : p ≠ []) :
    writeAt none (some (.map fields)) p = some (.map (deleteSegments fields p)) := by
  induction p generalizing fields with
  | nil => exact absurd rfl hp
  | cons s p ih =>
    cases p with
    | nil => rfl
    | cons t p =>
      rw [deleteSegments, writeAt]
      · split
        · rename_i entries hget
          have hchild : Ordered (some (.map entries)) := hget ▸ h.child s
          rw [hget, ih hchild (cons_ne_nil _ _)]
          rfl
        · rename_i hnot
          have hsame : writeAt none (OrdList.get s fields) (t :: p) = OrdList.get s fields :=
            (writeAt_of_not_map hnot none t p).2
          rw [hsame, putEntry_get (h [] fields rfl)]
      · exact cons_ne_nil _ _

section Mask

variable {fields : Fields}

/-- One path of a mask, on a value. -/
def writeMasked (fields : Fields) (v : Option Value) (p : FieldPath) : Option Value :=
  writeAt (getField fields p) v p.segments

theorem ordered_getField (hf : Ordered (some (.map fields))) (p : FieldPath) :
    Ordered (getField fields p) := by
  rw [getField, getSegments_eq fields p.ne_nil]
  exact ordered_valueAt hf

/-- A set with a mask writes the paths of the mask one after the other. -/
theorem foldl_writeMasked (hf : Ordered (some (.map fields))) (mask : List FieldPath)
    {current : Option Document} (hc : Ordered (some (.map ((current.map Document.fields).getD [])))) :
    some (.map (maskedFields fields (some mask) current)) =
      mask.foldl (writeMasked fields) (some (.map ((current.map Document.fields).getD []))) := by
  unfold maskedFields
  dsimp only
  generalize (current.map Document.fields).getD [] = base at hc
  induction mask generalizing base with
  | nil => rfl
  | cons p mask ih =>
    have ho := (ordered_getField hf p).writeAt hc p.segments
    rw [foldl_cons, foldl_cons, writeMasked]
    cases hget : getField fields p with
    | some =>
      rw [hget, setSegments_eq base p.ne_nil] at ho
      rw [setSegments_eq base p.ne_nil]
      exact ih _ ho
    | none =>
      rw [hget, deleteSegments_eq hc p.ne_nil] at ho
      rw [deleteSegments_eq hc p.ne_nil]
      exact ih _ ho

variable {mask : List FieldPath}

theorem valueAt_foldl_beside (h : ∀ p ∈ mask, Beside p.segments q) (v : Option Value) :
    valueAt (mask.foldl (writeMasked fields) v) q = valueAt v q :=
  mask.foldlRecOn (motive := fun w => valueAt w q = valueAt v q) _ rfl fun _ hv p hp =>
    (valueAt_writeAt_beside _ (h p hp)).trans hv

theorem valueAt_foldl_mask (hmask : mask.Pairwise fun p q => Beside p.segments q.segments) {p : FieldPath}
    (hp : p ∈ mask) (v : Option Value) :
    valueAt (mask.foldl (writeMasked fields) v) p.segments = getField fields p := by
  induction mask generalizing v with
  | nil => cases hp
  | cons p' mask ih =>
    obtain ⟨hb, hmask⟩ := pairwise_cons.1 hmask
    rw [foldl_cons]
    rcases mem_cons.1 hp with rfl | hp
    · -- what follows is written beside it
      rw [valueAt_foldl_beside fun q hq => (hb q hq).symm]
      exact valueAt_writeAt_self _
    · exact ih hmask hp _

/-- A set with an update mask of incomparable paths takes the value of each path from the given
fields, leaves what is beside them, and does not depend on the order of the mask.  Field trees are in
key order, as ordered maps are. -/
theorem maskedFields_touches_mask (hfields : Ordered (some (.map fields))) (current : Option Document)
    (hcurrent : Ordered (some (.map ((current.map Document.fields).getD [])))) {mask : List FieldPath}
    (hmask : mask.Pairwise fun p q => Beside p.segments q.segments) :
    let old := (current.map Document.fields).getD []
    let new := maskedFields fields (some mask) current
    (∀ p ∈ mask, getField new p = getField fields p) ∧
    (∀ q, (∀ p ∈ mask, Beside p.segments q.segments) → getField new q = getField old q) ∧
    ∀ mask', mask.Perm mask' → maskedFields fields (some mask') current = new := by
  intro old new
  have hnew := foldl_writeMasked hfields mask hcurrent
  have hget : ∀ q : FieldPath, getField new q =
      valueAt (mask.foldl (writeMasked fields) (some (.map old))) q.segments := fun q => by
    rw [← hnew, getField, getSegments_eq new q.ne_nil]
  refine ⟨fun p hp => ?_, fun q hq => ?_, fun mask' hperm => ?_⟩
  · rw [hget, valueAt_foldl_mask hmask hp]
  · rw [hget, valueAt_foldl_beside hq, getField, getSegments_eq old q.ne_nil]
  · have hnew' := foldl_writeMasked hfields mask' hcurrent
    have heq := foldl_eq_of_perm
      (fun (mask : List FieldPath) v =>
        mask.Pairwise (fun p q : FieldPath => Beside p.segments q.segments) ∧ Ordered v)
      (fun hperm h => ⟨hperm.pairwise h.1 Beside.symm, h.2⟩)
      (fun h => ⟨(pairwise_cons.1 h.1).2, (ordered_getField hfields _).writeAt h.2 _⟩)
      (fun h => writeAt_comm (ordered_getField hfields _) (ordered_getField hfields _) h.2
        ((pairwise_cons.1 h.1).1 _ mem_cons_self))
      hperm (f := writeMasked fields) ⟨hmask, hcurrent⟩
    rw [← hnew, ← hnew'] at heq
    exact (Value.map.inj (Option.some.inj heq)).symm

/-- The first path of a mask is stored, the second one is not given. -/
theorem maskedFields_touches_two :
    let given : Fields := [(['a'], .null)]
    let mask : List FieldPath := [⟨[['a']], by decide⟩, ⟨[['b']], by decide⟩]
    ∀ p ∈ mask, getField (maskedFields given (some mask) none) p = getField given p := by
  have hnone : Ordered none := fun p entries h => by
    rw [valueAt_none] at h
    cases h
  have hnull : Ordered (some .null) := fun p entries h => by
    cases p with
    | nil => cases h
    | cons s p => exact hnone p entries h
  have hgiven := hnull.writeAt hnone [['a']]
  exact (maskedFields_touches_mask hgiven none (hnone.writeAt hgiven [['a']]) (by simp [Beside])).1

end Mask

end Fireemu
