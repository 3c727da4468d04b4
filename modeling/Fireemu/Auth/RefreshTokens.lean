import Fireemu.Library.GroupedIndex
import Fireemu.Library.MapUnion
import Fireemu.Types.Determinism
import Fireemu.Types.Time

/-!
# Refresh tokens

The store keeps the session of each refresh token, the tokens of each account, and digests of the tokens of
deleted accounts.  A token comes into the store only when it is drawn; so a token that has left it stays out,
whoever owns the account id later (`refresh_token_never_revives`).
-/

namespace Fireemu.Auth

open Library (GroupedIndex SortedMap SortedSet)
open Option Library.SortedMap

abbrev LocalId := Str

/-- Refusals of the calls below. -/
inductive AuthError
  | userNotFound
  | emailExists
  | invalidEmail
  | weakPassword
  | passwordTooLong
  | passwordPolicyViolation
  | localIdExists
  | invalidLocalId
  | userDisabled
  | invalidRefreshToken
  | expiredRefreshToken

/-- What the calls below read and write of an account. -/
structure UserRecord where
  disabled : Bool
  tokensValidAfter : LogicalInstant
  tokensRevoked : Bool

/-- What a refresh token restores: the account, the issue time, and how the session was obtained. -/
structure RefreshSession (ρ : Type) where
  uid : LocalId
  issuedAt : LogicalInstant
  obtained : ρ

/-- What a store takes its tokens and digests from: the identifiers it draws are numbered. -/
structure Source (δ : Type) where
  projectId : Str
  tenantId : Option Str
  nextId : ℕ → Str
  sha256 : Str → δ

structure AuthStore (δ ρ : Type) [LinearOrder δ] where
  users : SortedMap LocalId UserRecord
  refreshTokens : SortedMap Str (RefreshSession ρ)
  deletedRefreshDigests : SortedMap δ δ
  tokensByUser : GroupedIndex LocalId Str
  counter : ℕ

/-- The refresh token with a number. -/
def Source.refreshToken {δ : Type} (source : Source δ) (counter : ℕ) : Str :=
  let tenant := source.tenantId.getD []
  "rt1.".toList ++ decimal source.projectId.utf8Len ++ ['.'] ++ decimal (Str.utf8Len tenant) ++ ['.'] ++
    source.projectId ++ tenant ++ ['.'] ++ source.nextId counter

/-- An instant, floored to its second. -/
def wholeSecond (instant : LogicalInstant) : LogicalInstant := instant / 1000000000 * 1000000000

variable {δ ρ : Type} [LinearOrder δ] (source : Source δ)

namespace AuthStore

def new : AuthStore δ ρ := ⟨SortedMap.empty, SortedMap.empty, SortedMap.empty, SortedMap.empty, 0⟩

/-- Creates an account under an id, chosen or drawn, after checks of the id and the email address. -/
def createUser (checks : Except AuthError Unit) (id : LocalId) (now : LogicalInstant) (s : AuthStore δ ρ) :
    Except AuthError LocalId × AuthStore δ ρ :=
  match checks with
  | .error e => (.error e, s)
  | .ok () =>
      if s.users.contains id then (.error .localIdExists, s)
      else (.ok id, { s with users := s.users.insert id ⟨false, wholeSecond now, false⟩ })

def removeRefreshTokensFor (uid : LocalId) (s : AuthStore δ ρ) : AuthStore δ ρ :=
  match s.tokensByUser.get uid with
  | none => s
  | some tokens =>
      { s with
        tokensByUser := s.tokensByUser.erase uid
        refreshTokens := tokens.toList.foldl SortedMap.erase s.refreshTokens }

/-- Removes an account and its tokens, of which digests are kept with a digest of the owner. -/
def removeUser (uid : LocalId) (s : AuthStore δ ρ) : Except AuthError UserRecord × AuthStore δ ρ :=
  match s.users.get uid with
  | none => (.error .userNotFound, s)
  | some user =>
      let deletedRefreshDigests := match s.tokensByUser.get uid with
        | none => s.deletedRefreshDigests
        | some tokens => tokens.toList.foldl
            (fun deleted token => deleted.insert (source.sha256 token) (source.sha256 uid))
            s.deletedRefreshDigests
      (.ok user, removeRefreshTokensFor uid { s with users := s.users.erase uid, deletedRefreshDigests })

/-- Files a session under its token. -/
def addSession (token : Str) (session : RefreshSession ρ) (s : AuthStore δ ρ) : AuthStore δ ρ :=
  { s with
    refreshTokens := s.refreshTokens.insert token session
    tokensByUser := s.tokensByUser.addTo session.uid token }

/-- Takes a session of an account out. -/
def dropSession (token : Str) (uid : LocalId) (s : AuthStore δ ρ) : AuthStore δ ρ :=
  { s with
    refreshTokens := s.refreshTokens.erase token
    tokensByUser := s.tokensByUser.removeFrom uid token }

def issueRefreshSession (uid : LocalId) (now : LogicalInstant) (obtained : ρ) (s : AuthStore δ ρ) :
    Except AuthError Str × AuthStore δ ρ :=
  if s.users.contains uid then
    let counter := s.counter + 1
    let token := source.refreshToken counter
    (.ok token, { s.addSession token ⟨uid, now, obtained⟩ with counter })
  else (.error .userNotFound, s)

/-- Replaces a provisional session of an account by a new one. -/
def replaceRefreshSession (provisional : Str) (uid : LocalId) (now : LogicalInstant) (obtained : ρ)
    (s : AuthStore δ ρ) : Except AuthError Str × AuthStore δ ρ :=
  if (s.refreshTokens.get provisional).any (·.uid = uid) then
    match issueRefreshSession source uid now obtained s with
    | (.error e, s) => (.error e, s)
    | (.ok committed, s) => (.ok committed, s.dropSession provisional uid)
  else (.error .invalidRefreshToken, s)

/-- Changes an account. -/
def modifyUser (uid : LocalId) (f : UserRecord → UserRecord) (s : AuthStore δ ρ) :
    Except AuthError Unit × AuthStore δ ρ :=
  match s.users.get uid with
  | none => (.error .userNotFound, s)
  | some user => (.ok (), { s with users := s.users.insert uid (f user) })

/-- Sets a password, after its checks: tokens of earlier seconds are no longer valid. -/
def setPassword (checks : Except AuthError Unit) (uid : LocalId) (now : LogicalInstant)
    (s : AuthStore δ ρ) : Except AuthError Unit × AuthStore δ ρ :=
  match checks with
  | .error e => (.error e, s)
  | .ok () => s.modifyUser uid fun user =>
      { user with tokensValidAfter := max user.tokensValidAfter (wholeSecond now) }

def revokeTokens (uid : LocalId) (now : LogicalInstant) (s : AuthStore δ ρ) :
    Except AuthError Unit × AuthStore δ ρ :=
  s.modifyUser uid fun user =>
    { user with
      tokensValidAfter := max user.tokensValidAfter (wholeSecond now)
      tokensRevoked := true }

def validateRefreshToken (s : AuthStore δ ρ) (token : Str) (enforceRevocation : Bool) :
    Except AuthError LocalId :=
  match s.deletedRefreshDigests.get (source.sha256 token) with
  | some owner =>
      -- the account id may have been taken again
      .error (if s.users.keys.any (source.sha256 · = owner) then .expiredRefreshToken else .userNotFound)
  | none =>
      match s.refreshTokens.get token with
      | none => .error .invalidRefreshToken
      | some session =>
          match s.users.get session.uid with
          | none => .error .invalidRefreshToken
          | some user =>
              if user.disabled then .error .userDisabled
              else if enforceRevocation ∧ session.issuedAt < user.tokensValidAfter then
                .error .expiredRefreshToken
              else .ok session.uid

def redeemRefreshToken (s : AuthStore δ ρ) (token : Str) : Except AuthError LocalId :=
  s.validateRefreshToken source token true

def statelessRefreshSession (s : AuthStore δ ρ) (token : Str) : Except AuthError (RefreshSession ρ) := do
  let _ ← s.validateRefreshToken source token false
  match s.refreshTokens.get token with
  | none => .error .invalidRefreshToken
  | some session => .ok session

end AuthStore

/-- A call on a store. -/
inductive AuthCommand (ρ : Type)
  | createUser (checks : Except AuthError Unit) (id : LocalId) (now : LogicalInstant)
  | deleteUserById (uid : LocalId)
  | issueRefreshSession (uid : LocalId) (now : LogicalInstant) (obtained : ρ)
  | replaceRefreshSession (provisional : Str) (uid : LocalId) (now : LogicalInstant) (obtained : ρ)
  | revokeRefreshTokens (uid : LocalId)
  | setPassword (checks : Except AuthError Unit) (uid : LocalId) (now : LogicalInstant)
  | revokeTokens (uid : LocalId) (now : LogicalInstant)

/-- Makes a call. -/
def AuthCommand.run (s : AuthStore δ ρ) : AuthCommand ρ → AuthStore δ ρ
  | .createUser checks id now => (s.createUser checks id now).2
  | .deleteUserById uid => (s.removeUser source uid).2
  | .issueRefreshSession uid now obtained => (s.issueRefreshSession source uid now obtained).2
  | .replaceRefreshSession provisional uid now obtained =>
      (s.replaceRefreshSession source provisional uid now obtained).2
  | .revokeRefreshTokens uid => s.removeRefreshTokensFor uid
  | .setPassword checks uid now => (s.setPassword checks uid now).2
  | .revokeTokens uid now => (s.revokeTokens uid now).2

namespace AuthStore

/-- Makes calls in order. -/
def run (s : AuthStore δ ρ) (commands : List (AuthCommand ρ)) : AuthStore δ ρ :=
  commands.foldl (AuthCommand.run source) s

/-! ### The maps of tokens -/

variable {source} {s s' : AuthStore δ ρ} {uid : LocalId} {token : Str}

/-- A token with a session. -/
def Held (s : AuthStore δ ρ) (token : Str) : Prop := (s.refreshTokens.get token).isSome

/-- The account of the session of a token. -/
def owner (s : AuthStore δ ρ) (token : Str) : LocalId := ((s.refreshTokens.get token).map (·.uid)).getD []

/-- The tokens of the accounts are those of their sessions, and all of them were drawn. -/
structure Linked (source : Source δ) (s : AuthStore δ ρ) : Prop where
  inverse : GroupedIndex.Exact s.owner s.Held s.tokensByUser
  drawn : ∀ token, s.Held token → ∃ n ≤ s.counter, token = source.refreshToken n

/-- What becomes of the sessions: one is new only under a token that is drawn. -/
structure Draws (source : Source δ) (s s' : AuthStore δ ρ) : Prop where
  counter : s.counter ≤ s'.counter
  session : ∀ token session, s'.refreshTokens.get token = some session →
    s.refreshTokens.get token = some session ∨
      ∃ n, s.counter < n ∧ n ≤ s'.counter ∧ token = source.refreshToken n

theorem Draws.trans {t : AuthStore δ ρ} (h : Draws source s t) (h' : Draws source t s') :
    Draws source s s' := by
  refine ⟨h.counter.trans h'.counter, fun token session hget => ?_⟩
  rcases h'.session token session hget with hget | ⟨n, hlt, hle, heq⟩
  · rcases h.session token session hget with hget | ⟨n, hlt, hle, heq⟩
    · exact .inl hget
    · exact .inr ⟨n, hlt, hle.trans h'.counter, heq⟩
  · exact .inr ⟨n, h.counter.trans_lt hlt, hle, heq⟩

/-- What a call leaves of tokens. -/
abbrev Keeps (source : Source δ) (s s' : AuthStore δ ρ) : Prop := Linked source s' ∧ Draws source s s'

theorem Linked.keeps (h : Linked source s) (hd : Draws source s s')
    (hinverse : GroupedIndex.Exact s'.owner s'.Held s'.tokensByUser) : Keeps source s s' := by
  refine ⟨⟨hinverse, fun token hheld => ?_⟩, hd⟩
  obtain ⟨session, hget⟩ := isSome_iff_exists.1 hheld
  rcases hd.session token session hget with hget | ⟨n, -, hle, heq⟩
  · obtain ⟨n, hle, heq⟩ := h.drawn token (isSome_iff_exists.2 ⟨session, hget⟩)
    exact ⟨n, hle.trans hd.counter, heq⟩
  · exact ⟨n, hle, heq⟩

/-! ### Calls -/

theorem Linked.keeps_users (h : Linked source s) (users : SortedMap LocalId UserRecord)
    (deletedRefreshDigests : SortedMap δ δ) : Keeps source s { s with users, deletedRefreshDigests } :=
  h.keeps ⟨le_rfl, fun _ _ => .inl⟩ h.inverse

theorem Linked.keeps_modifyUser (h : Linked source s) {f : UserRecord → UserRecord} :
    Keeps source s (s.modifyUser uid f).2 := by
  unfold modifyUser
  split <;> exact h.keeps_users _ _

/-- Sessions that go leave the tokens of the accounts too. -/
theorem Linked.keeps_removal (h : Linked source s) (hc : s.counter ≤ s'.counter) {p : Str → Prop}
    (hgone : ∀ token, p token → s'.refreshTokens.get token = none)
    (hkept : ∀ token, ¬ p token → s'.refreshTokens.get token = s.refreshTokens.get token)
    (hexact : GroupedIndex.Exact s.owner (fun token => ¬ p token ∧ s.Held token) s'.tokensByUser) :
    Keeps source s s' := by
  have hheld : ∀ token, s'.Held token ↔ ¬ p token ∧ s.Held token := by
    intro token
    by_cases hp : p token
    · simp [Held, hgone token hp, hp]
    · simp [Held, hkept token hp, hp]
  have hold : ∀ token, s'.Held token → s'.refreshTokens.get token = s.refreshTokens.get token :=
    fun token ht => hkept token ((hheld token).1 ht).1
  refine h.keeps ⟨hc, fun token session hget => .inl ?_⟩
    ((hexact.congr fun token => (hheld token).symm).congr_key fun token ht => ?_)
  · rw [← hold token (isSome_iff_exists.2 ⟨session, hget⟩), hget]
  · rw [owner, hold token ht, owner]

theorem Linked.keeps_removeRefreshTokensFor (h : Linked source s) (uid : LocalId) :
    Keeps source s (s.removeRefreshTokensFor uid) ∧
      ∀ token, s.owner token = uid → (s.removeRefreshTokensFor uid).refreshTokens.get token = none := by
  have hmem := h.inverse.mem_group uid
  have hnone : ∀ token, s.owner token = uid → token ∉ s.tokensByUser.group uid →
      s.refreshTokens.get token = none := fun token heq hnot =>
    not_isSome_iff_eq_none.1 fun hheld => hnot ((hmem token).2 ⟨heq, hheld⟩)
  have hexact := h.inverse.erase uid fun _ => Iff.rfl
  unfold GroupedIndex.group at hmem hnone
  unfold removeRefreshTokensFor
  cases hu : s.tokensByUser.get uid with
  | none =>
    rw [hu] at hnone
    rw [erase_of_get_none hu] at hexact
    have hgone := fun token heq => hnone token heq (SortedSet.not_mem_empty _)
    exact ⟨h.keeps_removal le_rfl hgone (fun _ _ => rfl) hexact, hgone⟩
  | some tokens =>
    rw [hu, getD_some] at hmem hnone
    have hget : ∀ token, (tokens.toList.foldl SortedMap.erase s.refreshTokens).get token =
        if token ∈ tokens then none else s.refreshTokens.get token := by
      simp [get_foldl_erase]
    have hgone : ∀ token, s.owner token = uid →
        (tokens.toList.foldl SortedMap.erase s.refreshTokens).get token = none := by
      intro token heq
      rw [hget]
      split_ifs with hin
      · rfl
      · exact hnone token heq hin
    refine ⟨h.keeps_removal le_rfl hgone (fun token hne => ?_) hexact, hgone⟩
    exact (hget token).trans (if_neg fun hin => hne ((hmem token).1 hin).1)

theorem Linked.keeps_removeUser (h : Linked source s) (uid : LocalId) :
    Keeps source s (s.removeUser source uid).2 ∧
      ∀ user s', s.removeUser source uid = (.ok user, s') → ∀ token, s.owner token = uid →
        s'.refreshTokens.get token = none := by
  unfold removeUser
  split
  · exact ⟨h.keeps_users _ _, nofun⟩
  · obtain ⟨h₁, hd₁⟩ := h.keeps_users _ _
    obtain ⟨hk, hgone⟩ := h₁.keeps_removeRefreshTokensFor uid
    refine ⟨hk.imp_right hd₁.trans, ?_⟩
    rintro user s' ⟨⟩
    exact hgone

variable {session : RefreshSession ρ}

theorem Linked.exact_addSession (h : Linked source s) (hnew : ¬ s.Held token) :
    GroupedIndex.Exact (s.addSession token session).owner (s.addSession token session).Held
      (s.addSession token session).tokensByUser := by
  have hself : (s.addSession token session).refreshTokens.get token = some session :=
    get_insert_self _ _ _
  have hother : ∀ token', token' ≠ token →
      (s.addSession token session).refreshTokens.get token' = s.refreshTokens.get token' :=
    fun _ hne => get_insert_of_ne _ _ hne
  have hkeys : ∀ token', s.Held token' → (s.addSession token session).owner token' = s.owner token' := by
    intro token' hheld
    rw [owner, hother token' fun heq => hnew (heq ▸ hheld), owner]
  have hexact := (h.inverse.congr_key hkeys).addTo (Q := (s.addSession token session).Held) token fun token' => by
    by_cases heq : token' = token
    · simp [Held, heq, hself]
    · simp [Held, heq, hother token' heq]
  rwa [show (s.addSession token session).owner token = session.uid by simp [owner, hself]] at hexact

/-- The next token has not been drawn before. -/
theorem Linked.not_held (hdistinct : Function.Injective source.refreshToken) (h : Linked source s) :
    ¬ s.Held (source.refreshToken (s.counter + 1)) := by
  intro hheld
  obtain ⟨n, hn, heq⟩ := h.drawn _ hheld
  have := hdistinct heq
  omega

theorem Linked.keeps_issueRefreshSession (hdistinct : Function.Injective source.refreshToken)
    (h : Linked source s) (uid : LocalId) (now : LogicalInstant) (obtained : ρ) :
    Keeps source s (s.issueRefreshSession source uid now obtained).2 := by
  unfold issueRefreshSession
  split_ifs
  · refine h.keeps ⟨Nat.le_succ _, fun token session hget => ?_⟩ (h.exact_addSession (h.not_held hdistinct))
    change (s.refreshTokens.insert _ _).get token = some session at hget
    rw [get_insert] at hget
    split_ifs at hget with heq
    · exact .inr ⟨_, Nat.lt_succ_self _, le_rfl, heq⟩
    · exact .inl hget
  · exact h.keeps_users _ _

/-- A session that is taken out of its account. -/
theorem Linked.keeps_dropSession (h : Linked source s) (howner : s.owner token = uid) :
    Keeps source s (s.dropSession token uid) := by
  subst howner
  refine h.keeps_removal (p := (· = token)) le_rfl ?_ (fun _ hne => get_erase_of_ne _ hne)
    (h.inverse.removeFrom token fun _ => Iff.rfl)
  rintro _ rfl
  exact get_erase_self _ _

/-- A replacement issues a session, and takes the provisional one out if it succeeds. -/
theorem Linked.keeps_replaceRefreshSession (hdistinct : Function.Injective source.refreshToken)
    (h : Linked source s) (provisional : Str) (uid : LocalId) (now : LogicalInstant) (obtained : ρ) :
    Keeps source s (s.replaceRefreshSession source provisional uid now obtained).2 ∧
      ∀ committed s', s.replaceRefreshSession source provisional uid now obtained = (.ok committed, s') →
        s'.refreshTokens.get provisional = none := by
  have hissue := h.keeps_issueRefreshSession hdistinct uid now obtained
  unfold replaceRefreshSession issueRefreshSession at *
  split_ifs at * with howns huser
  · obtain ⟨session, hget, huid⟩ := (any_eq_true _ _).1 howns
    have hne : provisional ≠ source.refreshToken (s.counter + 1) := by
      rintro rfl
      exact h.not_held hdistinct (isSome_iff_exists.2 ⟨session, hget⟩)
    refine ⟨(hissue.1.keeps_dropSession ?_).imp_right hissue.2.trans, ?_⟩
    · change ((SortedMap.get (SortedMap.insert _ _ _) provisional).map _).getD [] = uid
      rw [get_insert_of_ne _ _ hne, hget]
      exact of_decide_eq_true huid
    · rintro committed s' ⟨⟩
      exact get_erase_self _ _
  · exact ⟨hissue, nofun⟩
  · exact ⟨h.keeps_users _ _, nofun⟩
  · exact ⟨h.keeps_users _ _, nofun⟩

/-! ### Runs -/

theorem Linked.keeps_run (hdistinct : Function.Injective source.refreshToken) (h : Linked source s)
    (command : AuthCommand ρ) : Keeps source s (command.run source s) := by
  cases command with
  | createUser =>
    dsimp only [AuthCommand.run]
    unfold createUser
    split
    · exact h.keeps_users _ _
    · split_ifs <;> exact h.keeps_users _ _
  | deleteUserById uid => exact (h.keeps_removeUser uid).1
  | issueRefreshSession uid now obtained => exact h.keeps_issueRefreshSession hdistinct uid now obtained
  | replaceRefreshSession provisional uid now obtained =>
    exact (h.keeps_replaceRefreshSession hdistinct provisional uid now obtained).1
  | revokeRefreshTokens uid => exact (h.keeps_removeRefreshTokensFor uid).1
  | setPassword =>
    dsimp only [AuthCommand.run]
    unfold setPassword
    split
    · exact h.keeps_users _ _
    · exact h.keeps_modifyUser
  | revokeTokens => exact h.keeps_modifyUser

theorem Linked.keeps_runs (hdistinct : Function.Injective source.refreshToken) (h : Linked source s)
    (commands : List (AuthCommand ρ)) : Keeps source s (s.run source commands) := by
  induction commands generalizing s with
  | nil => exact ⟨h, le_rfl, fun _ _ => .inl⟩
  | cons command commands ih =>
    obtain ⟨h₁, hd₁⟩ := h.keeps_run hdistinct command
    exact (ih h₁).imp_right hd₁.trans

theorem linked_new : Linked source (new : AuthStore δ ρ) := ⟨GroupedIndex.Exact.empty nofun, nofun⟩

/-- A token that was drawn has no new session later. -/
theorem Draws.get_of_drawn (hdistinct : Function.Injective source.refreshToken) (hd : Draws source s s')
    {n : ℕ} (hn : n ≤ s.counter) (hget : s'.refreshTokens.get (source.refreshToken n) = some session) :
    s.refreshTokens.get (source.refreshToken n) = some session := by
  rcases hd.session _ session hget with hget | ⟨m, hlt, -, heq⟩
  · exact hget
  · have := hdistinct heq
    omega

/-- A call that deletes the account of a token, revokes its tokens, or replaces the token. -/
inductive Retires (source : Source δ) (s : AuthStore δ ρ) (uid : LocalId) (token : Str) : AuthStore δ ρ → Prop
  | delete (user : UserRecord) {s' : AuthStore δ ρ} (h : s.removeUser source uid = (.ok user, s')) :
      Retires source s uid token s'
  | revoke : Retires source s uid token (s.removeRefreshTokensFor uid)
  | replace {committed : Str} {uid' : LocalId} {now : LogicalInstant} {obtained : ρ} {s' : AuthStore δ ρ}
      (h : s.replaceRefreshSession source token uid' now obtained = (.ok committed, s')) :
      Retires source s uid token s'

theorem Retires.keeps (hdistinct : Function.Injective source.refreshToken) (h : Linked source s)
    (hretires : Retires source s uid token s') :
    Keeps source s s' ∧ (s.owner token = uid → s'.refreshTokens.get token = none) := by
  cases hretires with
  | delete user hok =>
    obtain ⟨hk, hgone⟩ := h.keeps_removeUser uid
    rw [hok] at hk
    exact ⟨hk, hgone _ _ hok token⟩
  | revoke => exact (h.keeps_removeRefreshTokensFor uid).imp_right fun hgone => hgone token
  | replace hok =>
    obtain ⟨hk, hgone⟩ := h.keeps_replaceRefreshSession hdistinct token _ _ _
    rw [hok] at hk
    exact ⟨hk, fun _ => hgone _ _ hok⟩

/-- A token that is accepted neither for a refresh nor statelessly. -/
def Rejects (source : Source δ) (s : AuthStore δ ρ) (token : Str) : Prop :=
  (∃ e, s.redeemRefreshToken source token = .error e) ∧ ∃ e, s.statelessRefreshSession source token = .error e

theorem rejects_of_get (h : s.refreshTokens.get token = none) : s.Rejects source token := by
  have herror : ∀ enforce, ∃ e, s.validateRefreshToken source token enforce = .error e := by
    intro enforce
    unfold validateRefreshToken
    rw [h]
    split <;> exact ⟨_, rfl⟩
  obtain ⟨e, he⟩ := herror false
  refine ⟨herror true, e, ?_⟩
  rw [statelessRefreshSession, he]
  rfl

/-- Along every run the tokens of the accounts are the inverse of the owners of the sessions.  A token with
a session, as every token has when it is issued, is never accepted again once a later call deletes the
account it was issued for, revokes the tokens of that account, or replaces the token. -/
theorem refresh_token_never_revives (hdistinct : Function.Injective source.refreshToken)
    (commands : List (AuthCommand ρ)) (hs : new.run source commands = s) :
    GroupedIndex.Exact s.owner s.Held s.tokensByUser ∧
      ∀ token, s.Held token → ∀ between s', Retires source (s.run source between) (s.owner token) token s' →
        ∀ later, (s'.run source later).Rejects source token := by
  have h : Linked source s := hs ▸ (linked_new.keeps_runs hdistinct commands).1
  refine ⟨h.inverse, fun token hheld between s' hretires later => rejects_of_get ?_⟩
  obtain ⟨n, hn, rfl⟩ := h.drawn token hheld
  obtain ⟨h₁, hd₁⟩ := h.keeps_runs hdistinct between
  obtain ⟨⟨h₂, hd₂⟩, hgone⟩ := hretires.keeps hdistinct h₁
  rw [eq_none_iff_forall_ne_some]
  intro session hget
  -- the session would have been there all the time, although the token is retired
  have hget₂ := (h₂.keeps_runs hdistinct later).2.get_of_drawn hdistinct (hn.trans (hd₁.trans hd₂).counter) hget
  have hget₁ := hd₂.get_of_drawn hdistinct (hn.trans hd₁.counter) hget₂
  have hget := hd₁.get_of_drawn hdistinct hn hget₁
  rw [hgone (by rw [owner, hget₁, owner, hget])] at hget₂
  cases hget₂

/-! ### A sample -/

/-- A source of distinct tokens. -/
def sampleSource : Source ℕ := ⟨[], none, fun n => List.replicate n 'x', List.length⟩

/-- A store with one account and its token. -/
def sampleStore : AuthStore ℕ Unit :=
  new.run sampleSource [.createUser (.ok ()) ['u'] 0, .issueRefreshSession ['u'] 1 ()]

/-- The account is deleted and created again under its id, and its token is not accepted. -/
theorem refresh_token_never_revives_sample :
    ((sampleStore.removeUser sampleSource ['u']).2.run sampleSource
      [.createUser (.ok ()) ['u'] 2]).Rejects sampleSource (sampleSource.refreshToken 1) := by
  have hdistinct : Function.Injective sampleSource.refreshToken := by
    intro m n heq
    have hids : List.replicate m 'x' = List.replicate n 'x' := List.append_cancel_left heq
    simpa using congrArg List.length hids
  have hheld : sampleStore.Held (sampleSource.refreshToken 1) := by
    show (sampleStore.refreshTokens.get (sampleSource.refreshToken 1)).isSome = true
    decide +kernel
  have howner : sampleStore.owner (sampleSource.refreshToken 1) = ['u'] := by decide +kernel
  have hdelete : sampleStore.removeUser sampleSource ['u'] =
      (.ok ⟨false, 0, false⟩, (sampleStore.removeUser sampleSource ['u']).2) := Prod.ext rfl rfl
  rw [← howner] at hdelete ⊢
  exact (refresh_token_never_revives hdistinct _ rfl).2 _ hheld [] _ (.delete _ hdelete) _

end AuthStore

end Fireemu.Auth
