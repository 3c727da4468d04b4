import Fireemu.Library.SortedMap

/-!
# References that own blobs

`Holdings` are references, each to a record that names a blob, the blobs, and the last blob number drawn.
They are `Owned` if every reference has its blob and no two references have the same one, and `Covered`
if every blob has a reference.  A reference can be allocated with a new blob, released with its blob,
transferred, and its record revised; one that is abandoned leaves its blob behind.

A `Ledger` says of every blob that was ever allocated where it belongs and what it holds.  What is
recorded in one ledger can be put together: replacing the references of some places by older ones of
the same places (`TakesOver`) leaves owned holdings, and the blobs of the other places alone.
-/

namespace Fireemu.Library

open Library.SortedMap Function

universe u v w x

/-- References, blobs and the last number drawn. -/
@[ext]
structure Holdings (R : Type u) (O : Type v) (B : Type w) where
  refs : R → Option O
  blobs : SortedMap ℕ B
  next : ℕ

namespace Holdings

variable {R : Type u} {O : Type v} {B : Type w} {W : Type x}

section Moves

variable [DecidableEq R] (blob : O → ℕ)

/-- A reference with a new blob. -/
def allocate (h : Holdings R O B) (r : R) (o : O) (b : B) : Holdings R O B :=
  ⟨Function.update h.refs r (some o), h.blobs.insert (blob o) b, blob o⟩

/-- A reference is given up with its blob. -/
def release (h : Holdings R O B) (r : R) : Holdings R O B :=
  match h.refs r with
  | none => h
  | some o => ⟨Function.update h.refs r none, h.blobs.erase (blob o), h.next⟩

/-- A reference is given up and its blob stays. -/
def abandon (h : Holdings R O B) (r : R) : Holdings R O B :=
  ⟨Function.update h.refs r none, h.blobs, h.next⟩

/-- A blob goes from one reference to another one. -/
def transfer (h : Holdings R O B) (r r' : R) : Holdings R O B :=
  ⟨Function.update (Function.update h.refs r none) r' (h.refs r), h.blobs, h.next⟩

/-- A reference to another record of the same blob. -/
def revise (h : Holdings R O B) (r : R) (o : O) : Holdings R O B :=
  ⟨Function.update h.refs r (some o), h.blobs, h.next⟩

end Moves

/-- Every reference has its blob, and alone; the numbers of the blobs have been drawn. -/
structure Owned (blob : O → ℕ) (fits : O → B → Prop) (h : Holdings R O B) : Prop where
  held : ∀ r o, h.refs r = some o → ∃ b, h.blobs.get (blob o) = some b ∧ fits o b
  alone : ∀ r r' o o', h.refs r = some o → h.refs r' = some o' → blob o = blob o' → r = r'
  drawn : ∀ i b, h.blobs.get i = some b → i ≤ h.next

/-- Every blob has a reference. -/
def Covered (blob : O → ℕ) (h : Holdings R O B) : Prop :=
  ∀ i b, h.blobs.get i = some b → ∃ r o, h.refs r = some o ∧ blob o = i

/-- Where each blob belongs and what it holds. -/
abbrev Ledger (W : Type x) (B : Type w) := ℕ → Option (W × B)

/-- The ledger knows the blobs, and the references to them are in their places. -/
structure Recorded (blob : O → ℕ) (place : R → W) (ledger : Ledger W B) (h : Holdings R O B) : Prop where
  blobs : ∀ i b, h.blobs.get i = some b → ∃ p, ledger i = some (p, b)
  refs : ∀ r o, h.refs r = some o → ∃ b, ledger (blob o) = some (place r, b)

/-- A ledger that knows at least as much. -/
def Ledger.Extends (ledger' ledger : Ledger W B) : Prop := ∀ i x, ledger i = some x → ledger' i = some x

/-- Only drawn numbers are in the ledger. -/
def Ledger.Drawn (ledger : Ledger W B) (next : ℕ) : Prop := ∀ i x, ledger i = some x → i ≤ next

variable {blob : O → ℕ} {fits : O → B → Prop} {place : R → W} {ledger ledger' : Ledger W B}
  {h h' c t : Holdings R O B} {r r' : R} {o o' : O} {b : B}

theorem Recorded.mono (hh : Recorded blob place ledger h) (hext : ledger'.Extends ledger) :
    Recorded blob place ledger' h := by
  refine ⟨fun i b hi => ?_, fun r o hr => ?_⟩
  · obtain ⟨p, hp⟩ := hh.blobs i b hi
    exact ⟨p, hext _ _ hp⟩
  · obtain ⟨b, hb⟩ := hh.refs r o hr
    exact ⟨b, hext _ _ hb⟩

/-- A new blob is no one else's. -/
theorem Owned.blob_ne (hh : Owned blob fits h) (hnext : blob o = h.next + 1) (hr : h.refs r = some o') :
    blob o' ≠ blob o := by
  obtain ⟨b, hb, -⟩ := hh.held r o' hr
  have := hh.drawn _ b hb
  omega

/-! ### Moves -/

section Moves

variable [DecidableEq R] {s : R} {p : O}

theorem update_eq_some {refs : R → Option O} {x : Option O} :
    Function.update refs r x s = some o ↔ (s = r ∧ x = some o) ∨ (s ≠ r ∧ refs s = some o) := by
  rw [update_apply]
  split_ifs with hs <;> simp [hs]

theorem release_of_some (hr : h.refs r = some o) :
    h.release blob r = ⟨Function.update h.refs r none, h.blobs.erase (blob o), h.next⟩ := by
  rw [release, hr]

theorem release_of_none (hr : h.refs r = none) : h.release blob r = h := by
  rw [release, hr]

theorem refs_release (h : Holdings R O B) (r : R) :
    (h.release blob r).refs = Function.update h.refs r none := by
  cases hr : h.refs r with
  | none =>
    rw [release_of_none hr, eq_comm, update_eq_self_iff]
    exact hr.symm
  | some => rw [release_of_some hr]

theorem refs_release_eq_some : (h.release blob r).refs s = some p ↔ s ≠ r ∧ h.refs s = some p := by
  rw [refs_release, update_eq_some]
  simp

theorem refs_transfer_eq_some (hr : h.refs r = some o) :
    (h.transfer r r').refs s = some p ↔ (s = r' ∧ o = p) ∨ (s ≠ r' ∧ s ≠ r ∧ h.refs s = some p) := by
  rw [transfer, update_eq_some, update_eq_some, hr]
  simp

theorem refs_transfer_self (h : Holdings R O B) (hne : r ≠ r') : (h.transfer r r').refs r = none :=
  (update_of_ne hne _ _).trans (update_self _ _ _)

theorem Owned.allocate (hh : Owned blob fits h) (hnext : blob o = h.next + 1) (hfits : fits o b) :
    Owned blob fits (h.allocate blob r o b) := by
  refine ⟨fun s p hs => ?_, fun s s' p p' hs hs' hblob => ?_, fun i c hi => ?_⟩
  · rcases update_eq_some.1 hs with ⟨rfl, ho⟩ | ⟨-, hold⟩
    · cases ho
      exact ⟨b, get_insert_self _ _ _, hfits⟩
    · rw [Holdings.allocate, get_insert_of_ne _ _ (hh.blob_ne hnext hold)]
      exact hh.held s p hold
  · rcases update_eq_some.1 hs with ⟨rfl, ho⟩ | ⟨-, hold⟩ <;>
      rcases update_eq_some.1 hs' with ⟨rfl, ho'⟩ | ⟨-, hold'⟩
    · rfl
    · cases ho
      exact absurd hblob.symm (hh.blob_ne hnext hold')
    · cases ho'
      exact absurd hblob (hh.blob_ne hnext hold)
    · exact hh.alone s s' p p' hold hold' hblob
  · rw [Holdings.allocate, get_insert] at hi
    split_ifs at hi with hio
    · exact hio.le
    · have := hh.drawn i c hi
      change i ≤ blob o
      omega

theorem Covered.allocate (hh : Covered blob h) (hfree : h.refs r = none) :
    Covered blob (h.allocate blob r o b) := by
  intro i c hi
  rw [Holdings.allocate, get_insert] at hi
  split_ifs at hi with hio
  · exact ⟨r, o, update_self _ _ _, hio.symm⟩
  · obtain ⟨s, p, hs, hp⟩ := hh i c hi
    have hne : s ≠ r := fun heq => by
      rw [heq, hfree] at hs
      cases hs
    exact ⟨s, p, update_eq_some.2 (.inr ⟨hne, hs⟩), hp⟩

/-- The blobs of other references stay. -/
theorem Owned.blobs_release (hh : Owned blob fits h) (hs : h.refs r' = some o') (hne : r' ≠ r) :
    (h.release blob r).blobs.get (blob o') = h.blobs.get (blob o') := by
  cases hr : h.refs r with
  | none => rw [release_of_none hr]
  | some o =>
    rw [release_of_some hr]
    exact get_erase_of_ne _ fun hblob => hne (hh.alone r' r o' o hs hr hblob)

/-- A release adds no blob. -/
theorem get_blobs_release {i : ℕ} (hi : (h.release blob r).blobs.get i = some b) :
    h.blobs.get i = some b := by
  cases hr : h.refs r with
  | none => rwa [release_of_none hr] at hi
  | some =>
    rw [release_of_some hr, get_erase] at hi
    split_ifs at hi
    exact hi

theorem next_release (h : Holdings R O B) (r : R) : (h.release blob r).next = h.next := by
  cases hr : h.refs r with
  | none => rw [release_of_none hr]
  | some => rw [release_of_some hr]

theorem Owned.release (hh : Owned blob fits h) : Owned blob fits (h.release blob r) := by
  refine ⟨fun s p hs => ?_, fun s s' p p' hs hs' => ?_, fun i c hi => ?_⟩
  · obtain ⟨hne, hold⟩ := refs_release_eq_some.1 hs
    rw [hh.blobs_release hold hne]
    exact hh.held s p hold
  · exact hh.alone s s' p p' (refs_release_eq_some.1 hs).2 (refs_release_eq_some.1 hs').2
  · rw [next_release]
    exact hh.drawn i c (get_blobs_release hi)

theorem Covered.release (hh : Covered blob h) : Covered blob (h.release blob r) := by
  cases hr : h.refs r with
  | none => rwa [release_of_none hr]
  | some =>
    rw [release_of_some hr]
    intro i c hi
    rw [get_erase] at hi
    split_ifs at hi with hio
    obtain ⟨s, p, hs, hp⟩ := hh i c hi
    have hne : s ≠ r := fun heq => by
      rw [heq, hr] at hs
      cases hs
      exact hio hp.symm
    exact ⟨s, p, update_eq_some.2 (.inr ⟨hne, hs⟩), hp⟩

theorem Owned.abandon (hh : Owned blob fits h) : Owned blob fits (h.abandon r) := by
  have hold : ∀ s p, (h.abandon r).refs s = some p → h.refs s = some p := fun s p hs =>
    ((update_eq_some.1 hs).resolve_left fun hnone => nomatch hnone.2).2
  exact ⟨fun s p hs => hh.held s p (hold s p hs),
    fun s s' p p' hs hs' => hh.alone s s' p p' (hold s p hs) (hold s' p' hs'), hh.drawn⟩

theorem Owned.transfer (hh : Owned blob fits h) (hr : h.refs r = some o) :
    Owned blob fits (h.transfer r r') := by
  refine ⟨fun s p hs => ?_, fun s s' p p' hs hs' hblob => ?_, hh.drawn⟩
  · rcases (refs_transfer_eq_some hr).1 hs with ⟨-, rfl⟩ | ⟨-, -, hold⟩
    · exact hh.held r o hr
    · exact hh.held s p hold
  · rcases (refs_transfer_eq_some hr).1 hs with ⟨rfl, rfl⟩ | ⟨-, hne, hold⟩ <;>
      rcases (refs_transfer_eq_some hr).1 hs' with ⟨rfl, rfl⟩ | ⟨-, hne', hold'⟩
    · rfl
    · exact absurd (hh.alone r s' o p' hr hold' hblob).symm hne'
    · exact absurd (hh.alone s r p o hold hr hblob) hne
    · exact hh.alone s s' p p' hold hold' hblob

theorem Covered.transfer (hh : Covered blob h) (hr : h.refs r = some o) (hfree : h.refs r' = none) :
    Covered blob (h.transfer r r') := by
  intro i c hi
  obtain ⟨s, p, hs, hp⟩ := hh i c hi
  by_cases hsr : s = r
  · subst hsr
    rw [hr] at hs
    cases hs
    exact ⟨r', o, (refs_transfer_eq_some hr).2 (.inl ⟨rfl, rfl⟩), hp⟩
  · have hne : s ≠ r' := fun heq => by
      rw [heq, hfree] at hs
      cases hs
    exact ⟨s, p, (refs_transfer_eq_some hr).2 (.inr ⟨hne, hsr, hs⟩), hp⟩

/-- Every record stands for one of the same blob before a revision. -/
theorem refs_revise (hr : h.refs r = some o) (hblob : blob o' = blob o) (hfits : ∀ b, fits o b → fits o' b)
    (hs : (h.revise r o').refs s = some p) :
    ∃ q, h.refs s = some q ∧ blob p = blob q ∧ ∀ b, fits q b → fits p b := by
  rcases update_eq_some.1 hs with ⟨rfl, ho⟩ | ⟨-, hs⟩
  · cases ho
    exact ⟨o, hr, hblob, hfits⟩
  · exact ⟨p, hs, rfl, fun _ h => h⟩

theorem Owned.revise (hh : Owned blob fits h) (hr : h.refs r = some o) (hblob : blob o' = blob o)
    (hfits : ∀ b, fits o b → fits o' b) : Owned blob fits (h.revise r o') := by
  refine ⟨fun s p hs => ?_, fun s s' p p' hs hs' hpp' => ?_, hh.drawn⟩
  · obtain ⟨q, hq, hpq, hfits⟩ := refs_revise hr hblob hfits hs
    obtain ⟨b, hb, hqb⟩ := hh.held s q hq
    exact ⟨b, by rwa [hpq], hfits b hqb⟩
  · obtain ⟨q, hq, hpq, -⟩ := refs_revise hr hblob hfits hs
    obtain ⟨q', hq', hpq', -⟩ := refs_revise hr hblob hfits hs'
    exact hh.alone s s' q q' hq hq' (by rw [← hpq, ← hpq', hpp'])

theorem Covered.revise (hh : Covered blob h) (hr : h.refs r = some o) (hblob : blob o' = blob o) :
    Covered blob (h.revise r o') := by
  intro i c hi
  obtain ⟨s, p, hs, hp⟩ := hh i c hi
  by_cases hsr : s = r
  · subst hsr
    rw [hr] at hs
    cases hs
    exact ⟨s, o', update_self _ _ _, hblob.trans hp⟩
  · exact ⟨s, p, update_eq_some.2 (.inr ⟨hsr, hs⟩), hp⟩

end Moves

/-! ### Runs -/

section Runs

variable [DecidableEq R]

/-- The moves: which records a reference may have, and whether a reference may be abandoned. -/
inductive Step (blob : O → ℕ) (fits : O → B → Prop) (place : R → W) (names : R → O → Prop) (leaks : Prop)
    (h : Holdings R O B) : Holdings R O B → Prop
  | allocate {r : R} {o : O} {b : B} (hfree : h.refs r = none) (hnext : blob o = h.next + 1)
      (hfits : fits o b) (hnames : names r o) : Step blob fits place names leaks h (h.allocate blob r o b)
  | release (r : R) : Step blob fits place names leaks h (h.release blob r)
  | transfer {r r' : R} {o : O} (hr : h.refs r = some o) (hfree : h.refs r' = none)
      (hplace : place r' = place r) (hnames : names r' o) :
      Step blob fits place names leaks h (h.transfer r r')
  | revise {r : R} {o o' : O} (hr : h.refs r = some o) (hblob : blob o' = blob o)
      (hfits : ∀ b, fits o b → fits o' b) (hnames : names r o') :
      Step blob fits place names leaks h (h.revise r o')
  | abandon (r : R) (hleaks : leaks) : Step blob fits place names leaks h (h.abandon r)

/-- Several moves. -/
abbrev Steps (blob : O → ℕ) (fits : O → B → Prop) (place : R → W) (names : R → O → Prop) (leaks : Prop) :
    Holdings R O B → Holdings R O B → Prop := Relation.ReflTransGen (Step blob fits place names leaks)

variable {names : R → O → Prop} {leaks : Prop}

/-- A transfer to a reference in use abandons that one. -/
theorem Steps.transfer (hne : r ≠ r') (hr : h.refs r = some o) (hplace : place r' = place r)
    (hnames : names r' o) (hleaks : h.refs r' ≠ none → leaks) : Steps blob fits place names leaks h (h.transfer r r') := by
  by_cases hfree : h.refs r' = none
  · exact .single (.transfer hr hfree hplace hnames)
  · have ht : h.transfer r r' = (h.abandon r').transfer r r' := by
      refine Holdings.ext (funext fun s => ?_) rfl rfl
      simp only [Holdings.transfer, abandon, update_apply, if_neg hne]
      split_ifs <;> rfl
    rw [ht]
    refine .tail (.single (.abandon r' (hleaks hfree))) (.transfer (o := o) ?_ ?_ hplace hnames)
    · exact (update_of_ne hne _ _).trans hr
    · exact update_self _ _ _

theorem Step.owned (hstep : Step blob fits place names leaks h h') (hh : Owned blob fits h) :
    Owned blob fits h' := by
  cases hstep with
  | allocate hfree hnext hfits => exact hh.allocate hnext hfits
  | release => exact hh.release
  | transfer hr => exact hh.transfer hr
  | revise hr hblob hfits => exact hh.revise hr hblob hfits
  | abandon => exact hh.abandon

theorem Step.covered (hstep : Step blob fits place names False h h') (hh : Covered blob h) :
    Covered blob h' := by
  cases hstep with
  | allocate hfree => exact hh.allocate hfree
  | release => exact hh.release
  | transfer hr hfree => exact hh.transfer hr hfree
  | revise hr hblob => exact hh.revise hr hblob
  | abandon r hleaks => exact hleaks.elim

theorem Steps.owned (hs : Steps blob fits place names leaks h h') (hh : Owned blob fits h) :
    Owned blob fits h' := by
  induction hs with
  | refl => exact hh
  | tail _ hstep ih => exact hstep.owned ih

theorem Steps.covered (hs : Steps blob fits place names False h h') (hh : Covered blob h) :
    Covered blob h' := by
  induction hs with
  | refl => exact hh
  | tail _ hstep ih => exact hstep.covered ih

/-- Every reference keeps to the records it may have. -/
theorem Step.named (hstep : Step blob fits place names leaks h h')
    (hh : ∀ r o, h.refs r = some o → names r o) (hr : h'.refs r = some o) : names r o := by
  cases hstep with
  | allocate hfree hnext hfits hnames =>
    rcases update_eq_some.1 hr with ⟨rfl, ho⟩ | ⟨-, hr⟩
    · cases ho
      exact hnames
    · exact hh r o hr
  | release => exact hh r o (refs_release_eq_some.1 hr).2
  | transfer hs hfree hplace hnames =>
    rcases (refs_transfer_eq_some hs).1 hr with ⟨rfl, rfl⟩ | ⟨-, -, hr⟩
    · exact hnames
    · exact hh r o hr
  | revise hs hblob hfits hnames =>
    rcases update_eq_some.1 hr with ⟨rfl, ho⟩ | ⟨-, hr⟩
    · cases ho
      exact hnames
    · exact hh r o hr
  | abandon => exact hh r o ((update_eq_some.1 hr).resolve_left fun hnone => nomatch hnone.2).2

theorem Steps.named (hs : Steps blob fits place names leaks h h')
    (hh : ∀ r o, h.refs r = some o → names r o) : ∀ r o, h'.refs r = some o → names r o := by
  induction hs with
  | refl => exact hh
  | tail _ hstep ih => exact fun r o hr => hstep.named ih hr

/-- A move is recorded in a ledger that knows more. -/
theorem Step.recorded (hstep : Step blob fits place names leaks h h') (hh : Recorded blob place ledger h)
    (hd : ledger.Drawn h.next) :
    ∃ ledger' : Ledger W B, ledger'.Extends ledger ∧ Recorded blob place ledger' h' ∧
      ledger'.Drawn h'.next := by
  have hsame : ∀ i x, ledger i = some x → ledger i = some x := fun _ _ hx => hx
  cases hstep with
  | @allocate r o b hfree hnext hfits hnames =>
    have hext : Ledger.Extends (Function.update ledger (blob o) (some (place r, b))) ledger := by
      intro i x hx
      have hi := hd i x hx
      rw [update_of_ne (by omega), hx]
    have hold := hh.mono hext
    refine ⟨_, hext, ⟨fun i c hi => ?_, fun s p hs => ?_⟩, fun i x hx => ?_⟩
    · rw [Holdings.allocate, get_insert] at hi
      split_ifs at hi with hio
      · cases hi
        rw [hio]
        exact ⟨place r, update_self _ _ _⟩
      · exact hold.blobs i c hi
    · rcases update_eq_some.1 hs with ⟨rfl, ho⟩ | ⟨-, hs⟩
      · cases ho
        exact ⟨b, update_self _ _ _⟩
      · exact hold.refs s p hs
    · by_cases hio : i = blob o
      · exact hio.le
      · rw [update_of_ne hio] at hx
        have := hd i x hx
        change i ≤ blob o
        omega
  | release =>
    refine ⟨ledger, hsame, ⟨fun i c hi => hh.blobs i c (get_blobs_release hi), fun s p hs => ?_⟩, ?_⟩
    · exact hh.refs s p (refs_release_eq_some.1 hs).2
    · rwa [next_release]
  | transfer hr hfree hplace =>
    refine ⟨ledger, hsame, ⟨hh.blobs, fun s p hs => ?_⟩, hd⟩
    rcases (refs_transfer_eq_some hr).1 hs with ⟨rfl, rfl⟩ | ⟨-, -, hs⟩
    · rw [hplace]
      exact hh.refs _ _ hr
    · exact hh.refs s p hs
  | revise hr hblob hfits =>
    refine ⟨ledger, hsame, ⟨hh.blobs, fun s p hs => ?_⟩, hd⟩
    obtain ⟨q, hq, hpq, -⟩ := refs_revise hr hblob hfits hs
    rw [hpq]
    exact hh.refs s q hq
  | abandon =>
    refine ⟨ledger, hsame, ⟨hh.blobs, fun s p hs => ?_⟩, hd⟩
    exact hh.refs s p ((update_eq_some.1 hs).resolve_left fun hnone => nomatch hnone.2).2

theorem Steps.recorded (hs : Steps blob fits place names leaks h h') (hh : Recorded blob place ledger h)
    (hd : ledger.Drawn h.next) :
    ∃ ledger' : Ledger W B, ledger'.Extends ledger ∧ Recorded blob place ledger' h' ∧
      ledger'.Drawn h'.next := by
  induction hs with
  | refl => exact ⟨ledger, fun _ _ hx => hx, hh, hd⟩
  | tail _ hstep ih =>
    obtain ⟨ledger₁, hext₁, hr₁, hd₁⟩ := ih
    obtain ⟨ledger₂, hext₂, hr₂, hd₂⟩ := hstep.recorded hr₁ hd₁
    exact ⟨ledger₂, fun i x hx => hext₂ i x (hext₁ i x hx), hr₂, hd₂⟩

end Runs

/-! ### Places -/

/-- The references of some places are replaced by those of other holdings, with their blobs. -/
structure TakesOver (blob : O → ℕ) (place : R → W) (take : W → Bool) (h c t : Holdings R O B) : Prop where
  refs : ∀ r, t.refs r = if take (place r) then c.refs r else h.refs r
  taken : ∀ r o, take (place r) = true → c.refs r = some o → t.blobs.get (blob o) = c.blobs.get (blob o)
  left : ∀ r o, take (place r) = true → h.refs r = some o →
    (∀ s p, take (place s) = true → c.refs s = some p → blob p ≠ blob o) → t.blobs.get (blob o) = none
  kept : ∀ i, (∀ s p, take (place s) = true → c.refs s = some p → blob p ≠ i) →
    (∀ s p, take (place s) = true → h.refs s = some p → blob p ≠ i) → t.blobs.get i = h.blobs.get i
  next : t.next = max h.next c.next

variable {take : W → Bool}

/-- No references and no blobs. -/
def empty : Holdings R O B := ⟨fun _ => none, SortedMap.empty, 0⟩

theorem owned_empty : Owned blob fits (empty : Holdings R O B) := ⟨nofun, nofun, nofun⟩

theorem recorded_empty : Recorded blob place ledger (empty : Holdings R O B) := ⟨nofun, nofun⟩

section Releases

variable [DecidableEq R]

/-- Several references are given up. -/
def releaseAll (blob : O → ℕ) (h : Holdings R O B) (refs : List R) : Holdings R O B :=
  refs.foldl (release blob) h

theorem refs_releaseAll (h : Holdings R O B) {refs : List R} :
    (releaseAll blob h refs).refs r = if r ∈ refs then none else h.refs r := by
  induction refs generalizing h with
  | nil => simp [releaseAll]
  | cons s refs ih =>
    refine (ih (h.release blob s)).trans ?_
    rw [refs_release, update_apply]
    by_cases hs : r = s
    · simp [hs]
    · simp [hs]

theorem next_releaseAll (h : Holdings R O B) {refs : List R} : (releaseAll blob h refs).next = h.next := by
  induction refs generalizing h with
  | nil => rfl
  | cons s refs ih => exact (ih (h.release blob s)).trans (next_release h s)

variable {refs : List R}

/-- The blobs of the references given up go. -/
theorem Owned.blobs_releaseAll_of_mem (ho : Owned blob fits h) (hmem : r ∈ refs) (hr : h.refs r = some o) :
    (Holdings.releaseAll blob h refs).blobs.get (blob o) = none := by
  have hgone : ∀ (refs : List R) (t : Holdings R O B), t.blobs.get (blob o) = none →
      (Holdings.releaseAll blob t refs).blobs.get (blob o) = none := by
    intro refs
    induction refs with
    | nil => exact fun _ ht => ht
    | cons s refs ih =>
      refine fun t ht => ih _ (Option.eq_none_iff_forall_ne_some.2 fun b hb => ?_)
      rw [get_blobs_release hb] at ht
      cases ht
  induction refs generalizing h with
  | nil => cases hmem
  | cons s refs ih =>
    by_cases hrs : r = s
    · refine hgone refs _ ?_
      rw [← hrs, release_of_some hr]
      exact get_erase_self _ _
    · exact ih ho.release ((List.mem_cons.1 hmem).resolve_left hrs) (refs_release_eq_some.2 ⟨hrs, hr⟩)

/-- All other blobs stay. -/
theorem blobs_releaseAll_of_ne {i : ℕ} (hne : ∀ r ∈ refs, ∀ o, h.refs r = some o → blob o ≠ i) :
    (releaseAll blob h refs).blobs.get i = h.blobs.get i := by
  induction refs generalizing h with
  | nil => rfl
  | cons s refs ih =>
    refine (ih fun r hr o ho => ?_).trans ?_
    · exact hne r (List.mem_cons_of_mem _ hr) o (refs_release_eq_some.1 ho).2
    · cases hs : h.refs s with
      | none => rw [release_of_none hs]
      | some o =>
        rw [release_of_some hs]
        exact get_erase_of_ne _ (hne s List.mem_cons_self o hs).symm

/-- Giving up the references of some places. -/
theorem Owned.takesOver_releaseAll (ho : Owned blob fits h) (hrefs : ∀ r ∈ refs, take (place r) = true)
    (hall : ∀ r o, take (place r) = true → h.refs r = some o → r ∈ refs) :
    TakesOver blob place take h empty (Holdings.releaseAll blob h refs) where
  refs r := by
    rw [refs_releaseAll]
    cases htake : take (place r) with
    | false =>
      have hmem : r ∉ refs := fun hr => by
        rw [hrefs r hr] at htake
        cases htake
      rw [if_neg hmem, if_neg Bool.false_ne_true]
    | true =>
      rw [if_pos rfl]
      split_ifs with hmem
      · rfl
      · exact Option.eq_none_iff_forall_ne_some.2 fun o hr => hmem (hall r o htake hr)
  taken _ _ _ hr := nomatch hr
  left r o htake hr _ := ho.blobs_releaseAll_of_mem (hall r o htake hr) hr
  kept i _ hleft := blobs_releaseAll_of_ne fun r hr o ho => hleft r o (hrefs r hr) ho
  next := (next_releaseAll h).trans (Nat.max_zero _).symm

end Releases

/-- What is given up can be replaced. -/
theorem TakesOver.adopt {g : Holdings R O B} (hg : TakesOver blob place take h empty g)
    (hrefs : ∀ r, t.refs r = (if take (place r) then c.refs r else none).or (g.refs r))
    (ht : ∀ r o, take (place r) = true → c.refs r = some o → t.blobs.get (blob o) = c.blobs.get (blob o))
    (hkept : ∀ i, (∀ s p, take (place s) = true → c.refs s = some p → blob p ≠ i) →
      t.blobs.get i = g.blobs.get i)
    (hnext : t.next = max g.next c.next) : TakesOver blob place take h c t where
  refs r := by
    rw [hrefs, hg.refs]
    cases take (place r)
    · simp
    · simp [empty]
  taken := ht
  left r o htake hr ho := (hkept _ ho).trans (hg.left r o htake hr nofun)
  kept i ho hleft := (hkept i ho).trans (hg.kept i nofun hleft)
  next := by rw [hnext, hg.next, empty, Nat.max_zero]

/-- A blob is taken over, or left out, or kept. -/
theorem TakesOver.cases (ht : TakesOver blob place take h c t) {i : ℕ} (hi : t.blobs.get i = some b) :
    (∃ s p, take (place s) = true ∧ c.refs s = some p ∧ blob p = i ∧ c.blobs.get i = some b) ∨
      (∀ s p, take (place s) = true → h.refs s = some p → blob p ≠ i) ∧ h.blobs.get i = some b := by
  by_cases htaken : ∃ s p, take (place s) = true ∧ c.refs s = some p ∧ blob p = i
  · obtain ⟨s, p, htake, hs, rfl⟩ := htaken
    rw [ht.taken s p htake hs] at hi
    exact .inl ⟨s, p, htake, hs, rfl, hi⟩
  · push Not at htaken
    have hleft : ∀ s p, take (place s) = true → h.refs s = some p → blob p ≠ i := by
      rintro s p htake hs rfl
      rw [ht.left s p htake hs htaken] at hi
      cases hi
    rw [ht.kept i htaken hleft] at hi
    exact .inr ⟨hleft, hi⟩

/-- Blobs of different places are different. -/
theorem Recorded.blob_ne (hh : Recorded blob place ledger h) (hc : Recorded blob place ledger c)
    (hr : h.refs r = some o) (hs : c.refs r' = some o') (hplace : place r' ≠ place r) : blob o' ≠ blob o := by
  intro hblob
  obtain ⟨b, hb⟩ := hh.refs r o hr
  obtain ⟨b', hb'⟩ := hc.refs r' o' hs
  rw [hblob, hb, Option.some.injEq, Prod.mk.injEq] at hb'
  exact hplace hb'.1.symm

/-- The blobs of the other places stay. -/
theorem TakesOver.blobs_kept (ht : TakesOver blob place take h c t) (hh : Recorded blob place ledger h)
    (hc : Recorded blob place ledger c) (hr : h.refs r = some o) (ho : take (place r) = false) :
    t.blobs.get (blob o) = h.blobs.get (blob o) := by
  have hne : ∀ s, take (place s) = true → place s ≠ place r := fun s hs heq => by
    rw [heq, ho] at hs
    cases hs
  exact ht.kept _ (fun s p hs hp => hh.blob_ne hc hr hp (hne s hs))
    fun s p hs hp => hh.blob_ne hh hr hp (hne s hs)

theorem TakesOver.refs_eq_some (ht : TakesOver blob place take h c t) {s : R} {p : O} :
    t.refs s = some p ↔ (take (place s) = true ∧ c.refs s = some p) ∨
      (take (place s) = false ∧ h.refs s = some p) := by
  rw [ht.refs]
  cases take (place s) <;> simp

theorem TakesOver.owned (ht : TakesOver blob place take h c t) (hh : Recorded blob place ledger h)
    (hc : Recorded blob place ledger c) (ho : Owned blob fits h) (hco : Owned blob fits c) :
    Owned blob fits t := by
  have hm : ∀ s s' p p', take (place s) = true → c.refs s = some p → take (place s') = false →
      h.refs s' = some p' → blob p ≠ blob p' := fun s s' p p' htake hs hother hs' =>
    hh.blob_ne hc hs' hs fun heq => by
      rw [heq, hother] at htake
      cases htake
  refine ⟨fun s p hs => ?_, fun s s' p p' hs hs' hblob => ?_, fun i b hi => ?_⟩
  · rcases ht.refs_eq_some.1 hs with ⟨htake, hs⟩ | ⟨hother, hs⟩
    · rw [ht.taken s p htake hs]
      exact hco.held s p hs
    · rw [ht.blobs_kept hh hc hs hother]
      exact ho.held s p hs
  · rcases ht.refs_eq_some.1 hs with ⟨htake, hs⟩ | ⟨hother, hs⟩ <;>
      rcases ht.refs_eq_some.1 hs' with ⟨htake', hs'⟩ | ⟨hother', hs'⟩
    · exact hco.alone s s' p p' hs hs' hblob
    · exact absurd hblob (hm s s' p p' htake hs hother' hs')
    · exact absurd hblob.symm (hm s' s p' p htake' hs' hother hs)
    · exact ho.alone s s' p p' hs hs' hblob
  · rw [ht.next]
    rcases ht.cases hi with ⟨_, _, -, -, -, hi⟩ | ⟨-, hi⟩
    · exact (hco.drawn i b hi).trans (le_max_right _ _)
    · exact (ho.drawn i b hi).trans (le_max_left _ _)

theorem TakesOver.covered (ht : TakesOver blob place take h c t) (hh : Covered blob h) : Covered blob t := by
  intro i b hi
  rcases ht.cases hi with ⟨s, p, htake, hs, hp, -⟩ | ⟨hleft, hi⟩
  · exact ⟨s, p, ht.refs_eq_some.2 (.inl ⟨htake, hs⟩), hp⟩
  · obtain ⟨s, p, hs, hp⟩ := hh i b hi
    have ho : take (place s) = false := Bool.eq_false_iff.2 fun htake => hleft s p htake hs hp
    exact ⟨s, p, ht.refs_eq_some.2 (.inr ⟨ho, hs⟩), hp⟩

/-- Some references of other holdings, with their blobs. -/
structure Part (blob : O → ℕ) (c h : Holdings R O B) : Prop where
  refs : ∀ r o, c.refs r = some o → h.refs r = some o
  blobs : ∀ i b, c.blobs.get i = some b → h.blobs.get i = some b
  held : ∀ r o, c.refs r = some o → c.blobs.get (blob o) = h.blobs.get (blob o)
  next : c.next = h.next

theorem Part.owned (hc : Part blob c h) (ho : Owned blob fits h) : Owned blob fits c where
  held r o hr := by
    rw [hc.held r o hr]
    exact ho.held r o (hc.refs r o hr)
  alone r r' o o' hr hr' := ho.alone r r' o o' (hc.refs r o hr) (hc.refs r' o' hr')
  drawn i b hi := (ho.drawn i b (hc.blobs i b hi)).trans hc.next.ge

theorem Part.recorded (hc : Part blob c h) (hh : Recorded blob place ledger h) :
    Recorded blob place ledger c :=
  ⟨fun i b hi => hh.blobs i b (hc.blobs i b hi), fun r o hr => hh.refs r o (hc.refs r o hr)⟩

theorem TakesOver.recorded (ht : TakesOver blob place take h c t) (hh : Recorded blob place ledger h)
    (hc : Recorded blob place ledger c) : Recorded blob place ledger t := by
  refine ⟨fun i b hi => ?_, fun r o hr => ?_⟩
  · rcases ht.cases hi with ⟨_, _, -, -, -, hi⟩ | ⟨-, hi⟩
    · exact hc.blobs i b hi
    · exact hh.blobs i b hi
  · rcases ht.refs_eq_some.1 hr with ⟨-, hr⟩ | ⟨-, hr⟩
    · exact hc.refs r o hr
    · exact hh.refs r o hr

end Holdings

end Fireemu.Library
