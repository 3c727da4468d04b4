import Fireemu.Storage.Guard

/-!
# Sessions that are accounted for

`retainedUploadBytes` is the number of bytes that all sessions hold (`Accounted`).  Under this invariant
the wrappers that change sessions come down to storing, dropping and filtering sessions with an exact
total: no subtraction underflows and no addition overflows.
-/

namespace Fireemu.Storage

open Library (SortedMap SortedSet Act)
open StorageState (putEvents)
open List Option Library.SortedMap Library.Act

variable {s s' captured : StorageState} {E : Failure → StorageState → Prop} {now : LogicalInstant}
  {id : UploadId} {u u' : UploadSession} {r : Except StorageError (Option ℕ) × UploadSession}
  {n retained limit offset : ℕ} {chunk : List Byte} {owned : Str → Bool}

/-! ### Identifiers -/

theorem isDigit_of_mem_padded {c : Char} (h : c ∈ padded n) : c.isDigit = true := by
  rcases mem_append.1 h with hzero | hd
  · rw [eq_of_mem_replicate hzero]
    rfl
  · unfold decimal at hd
    rw [Nat.toString_eq_repr, Nat.toList_repr] at hd
    exact Nat.isDigit_of_mem_toDigits (by decide) (by decide) hd

theorem ofDigitChars_padded (n : ℕ) : Nat.ofDigitChars 10 (padded n) 0 = n := by
  unfold padded decimal
  rw [Nat.ofDigitChars_append, Nat.ofDigitChars_replicate_zero, Nat.toString_eq_repr, Nat.toList_repr,
    mul_zero, Nat.ofDigitChars_toDigits (by decide) (by decide)]

/-- The number of an upload can be read off its identifier. -/
theorem uploadId_sequence {m : ℕ} {token token' : Str} (h : uploadId m token = uploadId n token') :
    m = n := by
  have hread : ∀ (n : ℕ) (token : Str), (padded n ++ '-' :: token).takeWhile Char.isDigit = padded n := by
    intro n token
    rw [takeWhile_append_of_pos fun c => isDigit_of_mem_padded, takeWhile_cons_of_neg (by decide), append_nil]
  have hrest : padded m ++ '-' :: token = padded n ++ '-' :: token' := by
    unfold uploadId at h
    rw [append_assoc, append_assoc] at h
    exact append_cancel_left h
  have hp : padded m = padded n := by rw [← hread m token, hrest, hread]
  rw [← ofDigitChars_padded m, hp, ofDigitChars_padded]

/-! ### The invariant -/

/-- The sessions of a store have identifiers that it has drawn. -/
def Drawn (s : StorageState) : Prop :=
  ∀ id u, s.uploads.get id = some u → ∃ sequence token, id = uploadId sequence token ∧ sequence ≤ s.nextUpload

/-- The bytes of the sessions are accounted for. -/
structure Accounted (s : StorageState) : Prop where
  exact : s.retainedUploadBytes = uploadBytes s.uploads
  fits : uploadBytes s.uploads ≤ u64Max
  drawn : Drawn s

/-- An identifier with a new number is not in use. -/
theorem Drawn.fresh {s : StorageState} (hs : Drawn s) (hn : s.nextUpload < n) (token : Str) :
    s.uploads.get (uploadId n token) = none := by
  rw [eq_none_iff_forall_ne_some]
  intro u hget
  obtain ⟨m, token', hid, hm⟩ := hs _ u hget
  exact absurd (uploadId_sequence hid) (by omega)

theorem accounted_of_empty {s : StorageState} (hu : s.uploads = SortedMap.empty)
    (hret : s.retainedUploadBytes = 0) : Accounted s := by
  have hzero : uploadBytes s.uploads = 0 := by rw [hu, uploadBytes, sum_empty]
  refine ⟨by rw [hret, hzero], by rw [hzero]; exact Nat.zero_le _, fun id u hget => ?_⟩
  rw [hu, get_empty] at hget
  cases hget

theorem SameUploads.accounted {s : StorageState} (h : SameUploads s s') (hs : Accounted s) :
    Accounted s' := by
  obtain ⟨hu, hret, -, hnext⟩ := h
  refine ⟨?_, ?_, ?_⟩
  · rw [hret, hu, hs.exact]
  · rw [hu]
    exact hs.fits
  · unfold Drawn
    rw [hu, hnext]
    exact hs.drawn

namespace StorageState

/-- Stores other sessions, and accounts for them. -/
def withUploads (s : StorageState) (uploads : SortedMap UploadId UploadSession) : StorageState :=
  { s with uploads, retainedUploadBytes := uploadBytes uploads }

/-- Stores a session, and accounts for it. -/
def putUpload (s : StorageState) (id : UploadId) (u : UploadSession) : StorageState :=
  s.withUploads (s.uploads.insert id u)

/-- Drops a session, and accounts for it. -/
def dropUpload (s : StorageState) (id : UploadId) : StorageState := s.withUploads (s.uploads.erase id)

end StorageState

theorem receivedBy_le (id : UploadId) : s.receivedBy id ≤ uploadBytes s.uploads := by
  unfold uploadBytes
  rw [sum_erase s.uploads _ id]
  exact Nat.le_add_right _ _

theorem receivedBy_of_get {u : UploadSession} (h : s.uploads.get id = some u) :
    s.receivedBy id = u.received.length := by
  simp [StorageState.receivedBy, h]

/-- The total after a change of one session is the total of the sessions. -/
theorem Accounted.accountUpload (hs : Accounted s) (s' : StorageState)
    (ho : ∀ j, j ≠ id → s'.uploads.get j = s.uploads.get j) (hfits : uploadBytes s'.uploads ≤ u64Max) :
    accountUpload s.retainedUploadBytes (s.receivedBy id) (s'.receivedBy id) =
      some (uploadBytes s'.uploads) := by
  have ht : s.receivedBy id + uploadBytes s'.uploads = s'.receivedBy id + uploadBytes s.uploads := by
    refine sum_replace (fun j => ?_) fun (_ : UploadId) (u : UploadSession) => u.received.length
    by_cases hj : j = id
    · rw [if_pos hj, hj]
    · rw [if_neg hj, ho j hj]
  have hle := receivedBy_le id (s := s)
  rw [Storage.accountUpload, hs.exact, checkedSub_of_le hle, bind_some, checkedAdd_eq_some]
  omega

theorem Accounted.withUploads (hs : Accounted s) {uploads : SortedMap UploadId UploadSession}
    (hfits : uploadBytes uploads ≤ u64Max)
    (hkeys : ∀ id u, uploads.get id = some u → (s.uploads.get id).isSome) :
    Accounted (s.withUploads uploads) := by
  refine ⟨rfl, hfits, fun id u hget => ?_⟩
  obtain ⟨v, hv⟩ := isSome_iff_exists.1 (hkeys id u hget)
  exact hs.drawn id v hv

theorem uploadBytes_erase_le (uploads : SortedMap UploadId UploadSession) :
    uploadBytes (uploads.erase id) ≤ uploadBytes uploads := by
  unfold uploadBytes
  rw [sum_erase uploads _ id]
  exact Nat.le_add_left _ _

theorem uploadBytes_filter_le (uploads : SortedMap UploadId UploadSession)
    {keep : UploadId → UploadSession → Bool} : uploadBytes (uploads.filter keep) ≤ uploadBytes uploads := by
  unfold uploadBytes
  rw [← sum_filter_add_sum_filter_not uploads keep]
  exact Nat.le_add_right _ _

theorem uploadBytes_insert {u : UploadSession} (hget : s.uploads.get id = some u) (u' : UploadSession) :
    u.received.length + uploadBytes (s.uploads.insert id u') =
      u'.received.length + uploadBytes s.uploads := by
  have := sum_insert s.uploads (fun _ u => u.received.length) id u'
  rwa [term_of_get hget] at this

theorem Accounted.dropUpload (hs : Accounted s) (id : UploadId) : Accounted (s.dropUpload id) := by
  refine hs.withUploads ((uploadBytes_erase_le _).trans hs.fits) fun j u hget => ?_
  rw [get_erase] at hget
  split_ifs at hget
  rw [hget]
  rfl

theorem Accounted.putUpload (hs : Accounted s) {u u' : UploadSession} (hget : s.uploads.get id = some u)
    (hfits : uploadBytes (s.uploads.insert id u') ≤ u64Max) : Accounted (s.putUpload id u') := by
  refine hs.withUploads hfits fun j v hj => ?_
  rw [get_insert] at hj
  split_ifs at hj with hid
  · rw [hid, hget]
    rfl
  · rw [hj]
    rfl

/-- Two states whose sessions differ at most in one, and fit into memory. -/
structure OnlyAt (id : UploadId) (s s' : StorageState) : Prop where
  others : ∀ j, j ≠ id → s'.uploads.get j = s.uploads.get j
  fits : uploadBytes s'.uploads ≤ u64Max

/-! ### The wrappers -/

section

variable (hs : Accounted s)

include hs

/-- A lookup finds a session, or none, or drops an expired one. -/
theorem wp_uploadMut {Q : UploadSession → StorageState → Prop} :
    Act.wp (uploadMut id now) Q E s ↔ (s.uploads.get id = none → E (.refused .uploadNotFound) s) ∧
      ∀ u, s.uploads.get id = some u →
        (u.expired now = true → E (.refused .uploadNotFound) (s.dropUpload id)) ∧
        (u.expired now = false → Q u s) := by
  unfold Act.wp uploadMut
  cases hget : s.uploads.get id with
  | none => simp
  | some u =>
    have hle : u.received.length ≤ s.retainedUploadBytes := by
      rw [hs.exact, ← receivedBy_of_get hget]
      exact receivedBy_le id
    have hrest : s.retainedUploadBytes - u.received.length = uploadBytes (s.uploads.erase id) := by
      have := sum_erase s.uploads (fun _ u => u.received.length) id
      rw [term_of_get hget] at this
      rw [hs.exact]
      unfold uploadBytes
      omega
    cases he : u.expired now
    · simp [he]
    · simp [he, checkedSub_of_le hle, hrest, StorageState.dropUpload, StorageState.withUploads]

/-- A session that is found is changed, stored and accounted for. -/
theorem wp_withUploadSession {α : Type}
    {change : UploadSession → Except StorageError α × UploadSession} {Q : α → StorageState → Prop}
    (hfits : ∀ u, s.uploads.get id = some u → uploadBytes (s.uploads.insert id (change u).2) ≤ u64Max) :
    Act.wp (withUploadSession id now change) Q E s ↔
      (s.uploads.get id = none → E (.refused .uploadNotFound) s) ∧ ∀ u, s.uploads.get id = some u →
        (u.expired now = true → E (.refused .uploadNotFound) (s.dropUpload id)) ∧ (u.expired now = false →
          (∀ a, (change u).1 = .ok a → Q a (s.putUpload id (change u).2)) ∧
          ∀ e, (change u).1 = .error e → E (.refused e) (s.putUpload id (change u).2)) := by
  rw [withUploadSession, wp_bind, wp_uploadMut hs]
  refine and_congr_right fun _ => forall₂_congr fun u hget => and_congr_right fun _ => forall_congr' fun _ => ?_
  have ha : accountUpload s.retainedUploadBytes u.received.length (change u).2.received.length =
      some (uploadBytes (s.uploads.insert id (change u).2)) := by
    have hset := hs.accountUpload (s.setUpload id (change u).2)
      (fun j (hj : j ≠ id) => get_insert_of_ne _ _ hj) (hfits u hget)
    rwa [receivedBy_of_get hget, receivedBy_of_get (get_insert_self _ _ _)] at hset
  simp [ha, StorageState.setUpload, StorageState.putUpload, StorageState.withUploads]

/-- The sessions that are not kept are accounted for. -/
theorem wp_retainUploads {keep : UploadId → UploadSession → Bool} {Q : Unit → StorageState → Prop} :
    Act.wp (retainUploads keep) Q E s ↔ Q () (s.withUploads (s.uploads.filter keep)) := by
  have hrest : checkedSub s.retainedUploadBytes (uploadBytes (s.uploads.filter fun id u => !keep id u)) =
      some (uploadBytes (s.uploads.filter keep)) := by
    have := sum_filter_add_sum_filter_not s.uploads keep fun _ u => u.received.length
    have hle : uploadBytes (s.uploads.filter fun id u => !keep id u) ≤ s.retainedUploadBytes := by
      rw [hs.exact]
      exact uploadBytes_filter_le _
    rw [checkedSub_of_le hle, hs.exact, Option.some.injEq]
    unfold uploadBytes
    omega
  simp [retainUploads, hrest, StorageState.withUploads]

/-- A change of one session is accounted for, whatever its result. -/
theorem wp_withUploadAccounting {α : Type} {change : Store α} {Q : α → StorageState → Prop} (h : Act.wp change
      (fun a s' => OnlyAt id s s' ∧ Q a (s'.withUploads s'.uploads))
      (fun f s' => f ≠ .panicked ∧ OnlyAt id s s' ∧ E f (s'.withUploads s'.uploads)) s) :
    Act.wp (withUploadAccounting id change) Q E s := by
  unfold Act.wp withUploadAccounting at *
  rcases hrun : change s with ⟨f | a, s'⟩ <;> rw [hrun] at h
  · obtain ⟨hf, honly, hE⟩ := h
    cases f with
    | panicked => exact absurd rfl hf
    | refused =>
      simp only [hs.accountUpload s' honly.others honly.fits]
      exact hE
  · obtain ⟨honly, hQ⟩ := h
    simp only [hs.accountUpload s' honly.others honly.fits]
    exact hQ

end

/-! ### Stored sessions -/

/-- A session that does not grow fits. -/
theorem Accounted.fits_insert (hs : Accounted s) (hget : s.uploads.get id = some u)
    (hl : u'.received.length ≤ u.received.length) : uploadBytes (s.uploads.insert id u') ≤ u64Max := by
  have := uploadBytes_insert hget u'
  have := hs.fits
  omega

/-- A session stored with as many bytes as before is accounted for. -/
theorem Accounted.setUpload (hs : Accounted s) (hget : s.uploads.get id = some u)
    (hl : u'.received.length = u.received.length) : s.setUpload id u' = s.putUpload id u' := by
  have hb : uploadBytes (s.uploads.insert id u') = s.retainedUploadBytes := by
    have := uploadBytes_insert hget u'
    rw [hs.exact]
    omega
  unfold StorageState.setUpload StorageState.putUpload StorageState.withUploads
  rw [hb]

theorem Accounted.withUploads_self (hs : Accounted s) : s.withUploads s.uploads = s := by
  rw [StorageState.withUploads, ← hs.exact]

/-- Storing a session again changes nothing. -/
theorem Accounted.putUpload_self (hs : Accounted s) (hget : s.uploads.get id = some u) :
    s.putUpload id u = s := by
  have hsame : s.uploads.insert id u = s.uploads := ext_get fun j => by
    rw [get_insert]
    split_ifs with hj
    · rw [hj, hget]
    · rfl
  rw [StorageState.putUpload, hsame, hs.withUploads_self]

theorem Accounted.filter (hs : Accounted s) (keep : UploadId → UploadSession → Bool) :
    Accounted (s.withUploads (s.uploads.filter keep)) := by
  refine hs.withUploads ((uploadBytes_filter_le _).trans hs.fits) fun id u hget => ?_
  rw [(get_filter_eq_some.1 hget).1]
  rfl

/-- Sweeping keeps some of the sessions. -/
structure Swept (s s' : StorageState) : Prop where
  accounted : Accounted s'
  eq : s' = s.withUploads s'.uploads
  kept : ∀ id u, s'.uploads.get id = some u → s.uploads.get id = some u

theorem Swept.filter (h : Swept s s') (keep : UploadId → UploadSession → Bool) :
    Swept s (s'.withUploads (s'.uploads.filter keep)) := by
  refine ⟨h.accounted.filter keep, ?_, fun id u hget => ?_⟩
  · rw [h.eq]
    rfl
  · exact h.kept id u (get_filter_eq_some.1 hget).1

theorem wp_sweepUploads (hs : Accounted s) {Q : Unit → StorageState → Prop} (hQ : ∀ s', Swept s s' → Q () s') :
    Act.wp (sweepUploads now) Q E s := by
  have hself : Swept s s := ⟨hs, by rw [StorageState.withUploads, ← hs.exact], fun _ _ h => h⟩
  rw [sweepUploads, wp_bind, wp_retainUploads hs, wp_bind, wp_get, wp_ite]
  exact ⟨fun _ => (wp_retainUploads (hs.filter _)).2 (hQ _ ((hself.filter _).filter _)),
    fun _ => hQ _ (hself.filter _)⟩

/-! ### Chunks -/

/-- A session after a call may hold more than before only within the limit. -/
def Within (retained limit : ℕ) (u u' : UploadSession) : Prop :=
  u'.received.length ≤ u.received.length ∨ ∃ grown, u'.received.length = u.received.length + grown ∧
    retained + grown ≤ limit ∧ retained + grown ≤ u64Max

theorem canRetainUploadBytes_iff {additional : ℕ} :
    canRetainUploadBytes retained additional limit = true ↔
      retained + additional ≤ limit ∧ retained + additional ≤ u64Max := by
  unfold canRetainUploadBytes checkedAdd
  split_ifs with h <;> simp [h]

/-- What a chunk can do to a session. -/
inductive UploadSession.Appended (retained limit offset : ℕ) (chunk : List Byte) (u : UploadSession) :
    Except StorageError ℕ × UploadSession → Prop
  | same (result : Except StorageError ℕ) : Appended retained limit offset chunk u (result, u)
  | aborted (e : StorageError) (hstate : u.state = .receiving) :
      Appended retained limit offset chunk u (.error e, u.abort)
  | grown (hstate : u.state = .receiving) (hoffset : offset ≤ u.received.length)
      (hroom : canRetainUploadBytes retained (chunk.drop (u.received.length - offset)).length limit) :
      Appended retained limit offset chunk u
        (.ok (u.extend (chunk.drop (u.received.length - offset))).received.length,
          u.extend (chunk.drop (u.received.length - offset)))

theorem UploadSession.appended (retained limit offset : ℕ) (chunk : List Byte) (u : UploadSession) :
    u.Appended retained limit offset chunk (u.append retained limit offset chunk) := by
  unfold append
  cases hstate : u.state with
  | committed => exact .same _
  | aborted => exact .same _
  | denied => exact .same _
  | receiving =>
    cases checkedAdd offset chunk.length with
    | none => exact .same _
    | some reached =>
      dsimp only
      by_cases hdone : reached ≤ u.received.length
      · rw [if_pos hdone]
        exact .same _
      by_cases hgap : u.received.length < offset
      · rw [if_neg hdone, if_pos hgap]
        exact .same _
      rw [if_neg hdone, if_neg hgap]
      cases uploadSizeError reached u.total with
      | some => exact .aborted _ hstate
      | none =>
        dsimp only
        split_ifs with hroom
        · exact .grown hstate (not_lt.1 hgap) hroom
        · exact .same _

theorem UploadSession.Appended.within {r : Except StorageError ℕ × UploadSession}
    (h : u.Appended retained limit offset chunk r) : Within retained limit u r.2 := by
  cases h with
  | same => exact .inl le_rfl
  | aborted => exact .inl (Nat.zero_le _)
  | grown _ _ hroom =>
    obtain ⟨hl, hfits⟩ := canRetainUploadBytes_iff.1 hroom
    exact .inr ⟨_, length_append, hl, hfits⟩

/-- What an owned chunk can do to a session. -/
inductive UploadSession.Adopted (retained limit offset : ℕ) (chunk : List Byte) (u : UploadSession) :
    Except StorageError (Option ℕ) × UploadSession → Prop
  | refused (e : StorageError) : Adopted retained limit offset chunk u (.error e, u)
  | passed : Adopted retained limit offset chunk u (.ok none, u)
  | aborted (e : StorageError) (hstate : u.state = .receiving) :
      Adopted retained limit offset chunk u (.error e, u.abort)
  | adopted (hstate : u.state = .receiving) (hoffset : offset = 0) (hreceived : u.received = [])
      (hroom : canRetainUploadBytes retained chunk.length limit) :
      Adopted retained limit offset chunk u (.ok (some chunk.length), u.extend chunk)

theorem UploadSession.adopted (retained limit offset : ℕ) (chunk : List Byte) (u : UploadSession) :
    u.Adopted retained limit offset chunk (u.adopt retained limit offset chunk) := by
  unfold adopt
  cases hstate : u.state with
  | committed => exact .refused _
  | aborted => exact .refused _
  | denied => exact .refused _
  | receiving =>
    dsimp only
    by_cases ho : offset ≠ 0 ∨ u.received ≠ [] ∨ chunk = []
    · rw [if_pos ho]
      exact .passed
    rw [if_neg ho]
    push Not at ho
    cases uploadSizeError chunk.length u.total with
    | some => exact .aborted _ hstate
    | none =>
      dsimp only
      split_ifs with hroom
      · have ha := Adopted.adopted hstate ho.1 ho.2.1 hroom
        rwa [extend, ho.2.1, nil_append, hstate] at ha
      · exact .refused _

theorem UploadSession.Adopted.within (h : u.Adopted retained limit offset chunk r) :
    Within retained limit u r.2 := by
  cases h with
  | refused => exact .inl le_rfl
  | passed => exact .inl le_rfl
  | aborted => exact .inl (Nat.zero_le _)
  | adopted _ _ _ hroom =>
    obtain ⟨hl, hfits⟩ := canRetainUploadBytes_iff.1 hroom
    exact .inr ⟨_, length_append, hl, hfits⟩

/-- A chunk that is not adopted leaves the session as it was. -/
theorem UploadSession.Adopted.eq_of_none (h : u.Adopted retained limit offset chunk r)
    (hnone : r.1 = .ok none) : r.2 = u := by
  cases h with
  | passed => rfl
  | refused => rfl
  | aborted => cases hnone
  | adopted => cases hnone

/-- A change within the limit fits, and raises the total at most to the limit. -/
theorem Within.total (hs : Accounted s) (hget : s.uploads.get id = some u)
    (h : Within s.retainedUploadBytes s.retainedUploadLimit u u') :
    uploadBytes (s.uploads.insert id u') ≤ u64Max ∧
      (s.retainedUploadBytes < uploadBytes (s.uploads.insert id u') →
        uploadBytes (s.uploads.insert id u') ≤ s.retainedUploadLimit) := by
  have ht := uploadBytes_insert hget u'
  have hfits := hs.fits
  rw [hs.exact] at h ⊢
  rcases h with hshrunk | ⟨grown, hl, hlimit, hroom⟩ <;> omega

/-! ### Finalization -/

theorem UploadSession.length_rollback_le (u : UploadSession) {checkpoint : UploadCheckpoint} :
    (u.rollback checkpoint).received.length ≤ u.received.length := by
  unfold rollback
  split_ifs
  · simp
  · exact le_rfl

section

variable (hs : Accounted s)

include hs

/-- A session replaced by one with no more bytes, in a store with the same sessions. -/
theorem onlyAt_setUpload {x : StorageState} (hsame : SameUploads s x) {u v : UploadSession}
    (hget : s.uploads.get id = some u) (hl : v.received.length ≤ u.received.length) :
    OnlyAt id s (x.setUpload id v) := by
  have hget' : x.uploads.get id = some u := by rw [hsame.uploads, hget]
  refine ⟨fun j hj => ?_, (hsame.accounted hs).fits_insert hget' hl⟩
  exact (get_insert_of_ne _ _ hj).trans (by rw [hsame.uploads])

theorem onlyAt_self : OnlyAt id s s := ⟨fun _ _ => rfl, hs.fits⟩

/-- A finalization commits the session, or leaves the store as it was, or aborts the session, or drops it
because it has expired. -/
theorem wp_finalizeUploadWithAdmission {R : Type} {admits : List StorageEvent → Except StorageError R}
    {Q : ObjectMetadata × R → StorageState → Prop}
    (hc : ∀ u plan r, s.uploads.get id = some u → u.state = .receiving →
      s.planPut u.bucket u.name u.received.length u.digests u.metadata u.precondition now = .ok plan →
      admits (putEvents plan) = .ok r → Q (plan.object, r)
        ((s.applyPlannedPut plan u.received (putEvents plan)).putUpload id (u.commit plan.object)))
    (hsame : ∀ e, (∀ u, s.uploads.get id = some u → u.state = .receiving →
      e = .storedBytesLimit ∨ ∃ events e', admits events = .error e') → E (.refused e) s)
    (habort : ∀ e u, s.uploads.get id = some u → u.state = .receiving → E (.refused e) (s.putUpload id u.abort))
    (hexpire : ∀ e u, s.uploads.get id = some u → u.expired now = true → E (.refused e) (s.dropUpload id)) :
    Act.wp (finalizeUploadWithAdmission admits id now) Q E s := by
  refine wp_withUploadAccounting hs (wp_iff.2 ⟨fun a s' hok => ?_, fun f s' herror => ?_⟩)
  · obtain ⟨object, r⟩ := a
    obtain ⟨u, plan, hget, -, hstate, -, hplan, ha, rfl, rfl⟩ := finalizeInner_eq_ok.1 hok
    exact ⟨onlyAt_setUpload hs (sameUploads_applyPlannedPut s plan _ _) hget (Nat.zero_le _),
      hc u plan r hget hstate hplan ha⟩
  · rcases finalizeInner_eq_error herror with ⟨hf, hcases⟩ | ⟨u, hget, hshort⟩
    · obtain ⟨e, rfl⟩ : ∃ e, f = .refused e := by
        cases f with
        | refused e => exact ⟨e, rfl⟩
        | panicked => exact absurd rfl hf
      refine ⟨hf, ?_⟩
      rcases hcases with ⟨rfl, hreason⟩ | ⟨u, hget, hstate, rfl⟩ | ⟨u, hget, he, rfl⟩
      · refine ⟨onlyAt_self hs, ?_⟩
        rw [hs.withUploads_self]
        exact hsame e fun u hget hstate => (hreason u hget hstate).imp_left Failure.refused.inj
      · exact ⟨onlyAt_setUpload hs (sameUploads_refl) hget (Nat.zero_le _), habort e u hget hstate⟩
      · exact ⟨⟨fun j hj => get_erase_of_ne _ hj, (uploadBytes_erase_le _).trans hs.fits⟩,
          hexpire e u hget he⟩
    · rw [hs.exact, ← receivedBy_of_get hget] at hshort
      exact absurd (receivedBy_le id) (not_le.2 hshort)

theorem wp_rollbackUpload {checkpoint : UploadCheckpoint} {Q : Unit → StorageState → Prop}
    (hnone : s.uploads.get id = none → Q () s)
    (hsome : ∀ u, s.uploads.get id = some u → Q () (s.putUpload id (u.rollback checkpoint))) :
    Act.wp (rollbackUpload id checkpoint) Q E s := by
  refine wp_withUploadAccounting hs ?_
  rw [wp_modify]
  cases hget : s.uploads.get id with
  | none =>
    have hsame : s.modifyUpload id (UploadSession.rollback · checkpoint) = s := by
      simp [StorageState.modifyUpload, SortedMap.modify, hget]
    rw [hsame, hs.withUploads_self]
    exact ⟨onlyAt_self hs, hnone hget⟩
  | some u =>
    have hset : s.modifyUpload id (UploadSession.rollback · checkpoint) =
        s.setUpload id (u.rollback checkpoint) := by
      simp [StorageState.modifyUpload, StorageState.setUpload, SortedMap.modify, hget]
    rw [hset]
    exact ⟨onlyAt_setUpload hs (sameUploads_refl) hget (u.length_rollback_le), hsome u hget⟩

end

/-- What is left of a chunk whose finalization fails. -/
theorem finishUpload_of_error (checkpoint : Option UploadCheckpoint) {f : Failure}
    (h : finalizeUpload id now s = (.error f, s')) :
    (f = .refused .storedBytesLimit → checkpoint = none) ∧ finishUpload id checkpoint now s = (.error f, s') ∨
      ∃ c, checkpoint = some c ∧ f = .refused .storedBytesLimit ∧ finishUpload id checkpoint now s =
          (do rollbackUpload id c
              refuse (.error .storedBytesLimit) : Store UploadProgress) s' := by
  unfold finishUpload
  rw [h]
  cases checkpoint with
  | none =>
    refine .inl ⟨fun _ => rfl, ?_⟩
    cases f with
    | panicked => rfl
    | refused e => cases e <;> rfl
  | some c =>
    by_cases hf : f = .refused .storedBytesLimit
    · subst hf
      exact .inr ⟨c, rfl, rfl, rfl⟩
    · refine .inl ⟨fun h => absurd h hf, ?_⟩
      cases f with
      | panicked => rfl
      | refused e => cases e <;> first | rfl | exact absurd rfl hf

/-! ### Scopes -/

theorem sameUploads_foldl {K : Type} {f : StorageState → K → StorageState} (h : ∀ s k, SameUploads s (f s k))
    (keys : List K) (s : StorageState) : SameUploads s (keys.foldl f s) :=
  keys.foldlRecOn f sameUploads_refl fun s' hs k _ => hs.trans (h s' k)

theorem sameUploads_removeObject (s : StorageState) (key : ObjectKey) :
    SameUploads s (s.removeObject key) := by
  obtain ⟨_, _, h⟩ := s.removeObject_eq key
  rw [h]
  exact ⟨rfl, rfl, rfl, rfl⟩

theorem sameUploads_removeVersion (s : StorageState) (key : GenerationKey) :
    SameUploads s (s.removeVersion key) := by
  obtain ⟨_, _, h⟩ := s.removeVersion_eq key
  rw [h]
  exact ⟨rfl, rfl, rfl, rfl⟩

theorem sameUploads_removeVersioningStateWhere (owned : Str → Bool) (s : StorageState) :
    SameUploads s (s.removeVersioningStateWhere owned) :=
  (sameUploads_foldl sameUploads_removeVersion _ s).trans ⟨rfl, rfl, rfl, rfl⟩

/-- The store without the generations of a scope. -/
def StorageState.withoutGenerations (s : StorageState) (owned : Str → Bool) : StorageState :=
  ((s.ownedObjects owned).keys.foldl removeObject s).removeVersioningStateWhere owned

/-- The store without the buckets of a scope. -/
def StorageState.withoutBuckets (s : StorageState) (owned : Str → Bool) : StorageState :=
  (s.withoutGenerations owned).withUploads
    ((s.withoutGenerations owned).uploads.filter fun _ u => !owned u.bucket.1)

theorem sameUploads_withoutGenerations (owned : Str → Bool) (s : StorageState) :
    SameUploads s (s.withoutGenerations owned) :=
  (sameUploads_foldl sameUploads_removeObject _ s).trans (sameUploads_removeVersioningStateWhere owned _)

theorem Accounted.withoutBuckets (hs : Accounted s) (owned : Str → Bool) :
    Accounted (s.withoutBuckets owned) :=
  ((sameUploads_withoutGenerations owned s).accounted hs).filter _

theorem wp_removeBucketsWhere (hs : Accounted s) {Q : ℕ → StorageState → Prop} :
    Act.wp (removeBucketsWhere owned) Q E s ↔
      Q (s.ownedObjects owned).keys.length (s.withoutBuckets owned) := by
  simp only [removeBucketsWhere, wp_bind, wp_get, wp_modify, wp_pure]
  exact wp_retainUploads ((sameUploads_withoutGenerations owned s).accounted hs)

theorem restoreBuckets_eq (hs : Accounted s) (owned : Str → Bool) (captured : StorageState) :
    restoreBuckets owned captured s = (.ok (), captured.restoreContent owned (s.withoutBuckets owned)) := by
  have hrun : Act.wp (restoreBuckets owned captured)
      (fun _ s' => s' = captured.restoreContent owned (s.withoutBuckets owned)) (fun _ _ => False) s := by
    rw [restoreBuckets, wp_bind, wp_removeBucketsWhere hs, wp_modify]
  rcases heq : restoreBuckets owned captured s with ⟨f | _, s'⟩
  · exact (wp_of_error hrun heq).elim
  · rw [wp_of_ok hrun heq]

/-- The sessions after content is taken over from a capture. -/
theorem uploads_restoreContent (owned : Str → Bool) (captured s : StorageState) :
    (captured.restoreContent owned s).uploads =
        s.uploads.union (captured.uploads.filter fun _ u => owned u.bucket.1) ∧
      (captured.restoreContent owned s).nextUpload = max s.nextUpload captured.nextUpload := by
  have ho : ∀ s e, SameUploads s (captured.restoreObject s e) := fun s e => by
    unfold StorageState.restoreObject
    cases captured.blobs.get e.2.blob <;> exact ⟨rfl, rfl, rfl, rfl⟩
  have hv : ∀ s e, SameUploads s (captured.restoreVersion s e) := fun s e => by
    unfold StorageState.restoreVersion
    cases captured.blobs.get e.2.object.blob <;> exact ⟨rfl, rfl, rfl, rfl⟩
  have hsame := (sameUploads_foldl ho (captured.ownedObjects owned).entries s).trans
    (sameUploads_foldl hv (captured.ownedVersions owned).entries _)
  exact ⟨congrArg (SortedMap.union · _) hsame.uploads, congrArg (max · _) hsame.next⟩

/-- A session after a restoration is from the capture or stayed. -/
theorem upload_of_restoreContent (hget : (captured.restoreContent owned s).uploads.get id = some u) :
    captured.uploads.get id = some u ∨ s.uploads.get id = some u := by
  rw [(uploads_restoreContent owned captured s).1, get_union] at hget
  rcases or_eq_some_iff.1 hget with hrestored | ⟨-, hkept⟩
  · exact .inl (get_filter_eq_some.1 hrestored).1
  · exact .inr hkept

theorem upload_of_withoutBuckets (hget : (s.withoutBuckets owned).uploads.get id = some u) :
    s.uploads.get id = some u := by
  rw [← (sameUploads_withoutGenerations owned s).uploads]
  exact (get_filter_eq_some.1 hget).1

/-- A restoration that fits keeps the sessions accounted for. -/
theorem accounted_restoreContent (hs : Drawn s) (hcaptured : Drawn captured)
    (hfits : uploadBytes (captured.restoreContent owned s).uploads ≤ u64Max) :
    Accounted (captured.restoreContent owned s) := by
  refine ⟨rfl, hfits, fun id u hget => ?_⟩
  rw [(uploads_restoreContent owned captured s).2]
  rcases upload_of_restoreContent hget with hrestored | hkept
  · obtain ⟨n, token, rfl, hn⟩ := hcaptured id u hrestored
    exact ⟨n, token, rfl, hn.trans (le_max_right _ _)⟩
  · obtain ⟨n, token, rfl, hn⟩ := hs id u hkept
    exact ⟨n, token, rfl, hn.trans (le_max_left _ _)⟩

theorem drawn_captureBuckets (hs : Drawn s) (owned : Str → Bool) :
    Drawn (s.captureBuckets owned) := fun id u hget =>
  hs id u (get_filter_eq_some.1 hget).1

end Fireemu.Storage
