import Fireemu.PubSub.State

/-!
# Pages of a list

Lists of resources are returned page by page, in the order of the names.  A page of the production
policy ends with an opaque token of its last name, and the broker remembers for every token it has
issued the name it stands for, by list context, so that the walk goes on behind the name also when
the resource is gone.

Topics, subscriptions and snapshots come and go between two pages; the list of a request is therefore
an argument.  The remembered names are a component of the state that only page requests and resets
read or write, so they stand alone here.
-/

namespace Fireemu.PubSub

open Library (SortedMap SortedSet)
open PubSubError
open List Library.SortedMap

variable {T : Type} {context : Str} {names : Set Str} {cursor : Option Str}

/-- Which recorded list behaviour a transport exposes. -/
inductive PagingPolicy
  /-- Production uses opaque cursors after the last returned resource. -/
  | strict
  /-- The official emulator uses inclusive lexical resource-name cursors. -/
  | emulator
  deriving DecidableEq

/-- A selected page and its continuation cursor, which is empty on exhaustion. -/
structure Page (T : Type) where
  resources : List T
  nextPageToken : Str

/-! ### Tokens -/

/-- One round of the hash of a name for every byte, from a seed. -/
def nameHash (name : Str) (seed : BitVec 64) : BitVec 64 :=
  (name.flatMap String.utf8EncodeChar).foldl
    (fun hash byte => (hash ^^^ byte.toBitVec.setWidth 64) * 0x100000001b3#64) seed

/-- The bytes of a word, the most significant one first. -/
def bigEndian (word : BitVec 64) : List ℕ :=
  (List.range 8).map fun i => word.toNat >>> (56 - 8 * i) % 256

/-- The character of six bits. -/
def tokenChar (value : ℕ) : Char :=
  "ABCDEFGHIJKLMNOPQRSTUVWXYZabcdefghijklmnopqrstuvwxyz0123456789-_".toList.getD value 'A'

/-- The characters of up to three bytes, one more than there are bytes. -/
def tokenChunk (chunk : List ℕ) : Str :=
  let bits := chunk.getD 0 0 <<< 16 ||| chunk.getD 1 0 <<< 8 ||| chunk.getD 2 0
  (List.range (chunk.length + 1)).map fun i => tokenChar (bits >>> (18 - i * 6) &&& 63)

/-- The text of bytes, three at a time. -/
def tokenText : List ℕ → Str
  | a :: b :: c :: d :: bytes => tokenChunk [a, b, c] ++ tokenText (d :: bytes)
  | chunk => tokenChunk chunk

/-- The token of a name. -/
def opaqueToken (name : Str) : Str :=
  tokenText (([0xcbf29ce484222325#64, 0x84222325cbf29ce4#64, 0x9e3779b97f4a7c15#64].flatMap
    fun seed => bigEndian (nameHash name seed)).take 19)

theorem tokenChunk_ne_nil {chunk : List ℕ} : tokenChunk chunk ≠ [] := by
  intro h
  have hl := congrArg List.length h
  simp [tokenChunk] at hl

theorem opaqueToken_ne_nil {name : Str} : opaqueToken name ≠ [] := by
  unfold opaqueToken tokenText
  split
  · simp [tokenChunk_ne_nil]
  · exact tokenChunk_ne_nil

/-! ### Pages -/

section Pages

variable (name : T → Str)

/-- How many resources a request asks for. -/
def pageLimit (pageSize : ℤ) : PagingPolicy → Except PubSubError ℕ
  | .strict =>
      if ¬ (0 ≤ pageSize ∧ pageSize ≤ 1000) then
        .error (invalidArgument s!"The value for page_size is out of bounds. You passed {pageSize} in the request, but the value must be between 0 and 1000.")
      else .ok (if pageSize = 0 then u64Max else pageSize.toNat)
  | .emulator => .ok (if pageSize ≤ 0 then 1000 else pageSize.toNat)

/-- The index of the first resource of a page. -/
def pageStart (resources : List T) (pageToken : Str) (policy : PagingPolicy)
    (issuedBoundary : Option Str) : Except PubSubError ℕ :=
  if pageToken.isEmpty then .ok 0
  else
    match policy with
    | .strict =>
        match resources.findIdx? fun r => opaqueToken (name r) = pageToken with
        | some i => .ok (i + 1)
        | none =>
            match issuedBoundary with
            | some boundary => .ok (resources.findIdx fun r => boundary < name r)
            | none =>
                let text := String.ofList pageToken
                .error (invalidArgument s!"Invalid page token given (token={text}).")
    | .emulator => .ok (resources.findIdx fun r => pageToken ≤ name r)

/-- Selects a page of a list.  The end does not saturate: no list is that long. -/
def paginateAfter (resources : List T) (pageSize : ℤ) (pageToken : Str) (policy : PagingPolicy)
    (issuedBoundary : Option Str) : Except PubSubError (Page T) := do
  let limit ← pageLimit pageSize policy
  let start ← pageStart name resources pageToken policy issuedBoundary
  let last := min (start + limit) resources.length
  let nextPageToken := match policy with
    | .strict =>
        if last < resources.length then
          (resources[last - 1]?.map fun r => opaqueToken (name r)).getD []
        else []
    | .emulator => (resources[last]?.map name).getD []
  return ⟨(resources.drop start).take limit, nextPageToken⟩

/-- The names that issued tokens stand for, by list context; a token that stood for two names has
none. -/
abbrev IssuedPageBoundaries := SortedMap Str (SortedMap Str (Option Str))

namespace IssuedPageBoundaries

/-- The name a token stands for. -/
def boundary (issued : IssuedPageBoundaries) (context pageToken : Str) : Option Str :=
  ((issued.get context).bind fun tokens => tokens.get pageToken).join

/-- Remembers the name of a token. -/
def remember (issued : IssuedPageBoundaries) (context pageToken boundary : Str) : IssuedPageBoundaries :=
  let tokens := (issued.get context).getD SortedMap.empty
  let entry := match tokens.get pageToken with
    | none => some boundary
    | some previous => if previous ≠ some boundary then none else previous
  issued.insert context (tokens.insert pageToken entry)

/-- Selects current resources, and remembers the boundary of the page; `none` where the source would
panic. -/
def paginate (issued : IssuedPageBoundaries) (context : Str) (resources : List T) (pageSize : ℤ)
    (pageToken : Str) (policy : PagingPolicy) : Option (Except PubSubError (Page T) × IssuedPageBoundaries) :=
  match paginateAfter name resources pageSize pageToken policy (issued.boundary context pageToken) with
  | .error e => some (.error e, issued)
  | .ok page =>
      if policy = .strict ∧ ¬ page.nextPageToken.isEmpty then
        page.resources.getLast?.map fun r =>
          (.ok page, issued.remember context page.nextPageToken (name r))
      else some (.ok page, issued)

end IssuedPageBoundaries

end Pages

/-! ### Walks -/

/-- What happens to the remembered names: a page request, of which only the names matter, or a reset
that keeps some contexts. -/
inductive PageEvent
  | request (context : Str) (names : List Str) (pageSize : ℤ) (pageToken : Str)
      (policy : PagingPolicy)
  | reset (kept : Str → Bool)

/-- The remembered names after an event. -/
def PageEvent.apply (issued : IssuedPageBoundaries) : PageEvent → IssuedPageBoundaries
  | .request context names pageSize pageToken policy =>
      ((issued.paginate id context names pageSize pageToken policy).map Prod.snd).getD issued
  | .reset kept => issued.filter fun context _ => kept context

/-- One page of a walk: what happens before it, the list as it is then, and the size. -/
structure PageRequest (T : Type) where
  before : List PageEvent
  resources : List T
  pageSize : ℤ

/-- The pages of a walk that follows the returned tokens, and the token it stops with, which is empty
when it is complete. -/
def walk {T : Type} (name : T → Str) (context : Str) (issued : IssuedPageBoundaries)
    (pageToken : Str) : List (PageRequest T) → Option (Except PubSubError (List (List T) × Str))
  | [] => some (.ok ([], pageToken))
  | request :: requests =>
      match (request.before.foldl PageEvent.apply issued).paginate name context request.resources
        request.pageSize pageToken .strict with
      | none => none
      | some (.error e, _) => some (.error e)
      | some (.ok page, issued) =>
          if page.nextPageToken.isEmpty then some (.ok ([page.resources], []))
          else
            (walk name context issued page.nextPageToken requests).map fun result =>
              result.map fun (pages, token) => (page.resources :: pages, token)

/-! ### One page -/

section Page

variable {name : T → Str} {resources : List T}

/-- Whether a name is behind a cursor. -/
def Behind (cursor : Option Str) (n : Str) : Prop := ∀ c ∈ cursor, c < n

instance (cursor : Option Str) (n : Str) : Decidable (Behind cursor n) :=
  match cursor with
  | none => isTrue nofun
  | some c => decidable_of_iff (c < n) ⟨fun h _ hc => Option.some.inj hc ▸ h, fun h => h c rfl⟩

/-- The token that stands for a cursor. -/
def cursorToken (cursor : Option Str) : Str := cursor.elim [] opaqueToken

/-- The part of a list behind a cursor. -/
def remainder (name : T → Str) (resources : List T) (cursor : Option Str) : List T :=
  resources.filter fun r => Behind cursor (name r)

variable {c : Str} {pageSize : ℤ}

theorem behind_some {n : Str} : Behind (some c) n ↔ c < n := by simp [Behind]

theorem remainder_none : remainder name resources none = resources := by
  simp [remainder, Behind]

theorem drop_findIdx_lt (hs : (resources.map name).Pairwise (· < ·)) :
    resources.drop (resources.findIdx fun r => c < name r) = remainder name resources (some c) := by
  induction resources with
  | nil => rfl
  | cons r resources ih =>
    rw [map_cons, pairwise_cons] at hs
    by_cases hr : c < name r
    · -- the names go up, so that all are behind the cursor from here on
      have hall : ∀ r' ∈ r :: resources, decide (Behind (some c) (name r')) = true := by
        intro r' hr'
        rw [decide_eq_true_iff, behind_some]
        rcases mem_cons.1 hr' with rfl | hr'
        · exact hr
        · exact hr.trans (hs.1 _ (mem_map_of_mem hr'))
      rw [remainder, filter_eq_self.2 hall]
      simp [findIdx_cons, hr]
    · have hdrop := ih hs.2
      simp only [remainder, behind_some] at hdrop ⊢
      simp [findIdx_cons, hr, hdrop]

theorem drop_findIdx?_token {i : ℕ} (hs : (resources.map name).Pairwise (· < ·))
    (htoken : ∀ r ∈ resources, opaqueToken (name r) = opaqueToken c → name r = c)
    (hi : resources.findIdx? (fun r => opaqueToken (name r) = opaqueToken c) = some i) :
    resources.drop (i + 1) = remainder name resources (some c) := by
  induction resources generalizing i with
  | nil => simp at hi
  | cons r resources ih =>
    rw [map_cons, pairwise_cons] at hs
    rw [findIdx?_cons] at hi
    by_cases hr : opaqueToken (name r) = opaqueToken c
    · -- this is the resource of the cursor, and all that follow are behind it
      have hname : name r = c := htoken r mem_cons_self hr
      rw [if_pos (decide_eq_true hr), Option.some.injEq] at hi
      subst hi hname
      have hall : ∀ r' ∈ resources, decide (Behind (some (name r)) (name r')) = true := by
        intro r' hr'
        rw [decide_eq_true_iff, behind_some]
        exact hs.1 _ (mem_map_of_mem hr')
      rw [remainder, filter_cons_of_neg (by simp [behind_some]), filter_eq_self.2 hall]
      rfl
    · rw [if_neg (by simpa using hr)] at hi
      obtain ⟨j, hj, rfl⟩ := Option.map_eq_some_iff.1 hi
      obtain ⟨r', hr', htoken'⟩ : ∃ r' ∈ resources, opaqueToken (name r') = opaqueToken c := by
        have hsome : (resources.findIdx? fun r => opaqueToken (name r) = opaqueToken c).isSome := by
          rw [hj]
          rfl
        simpa [findIdx?_isSome] using hsome
      have hlt : name r < c := by
        rw [← htoken r' (mem_cons_of_mem r hr') htoken']
        exact hs.1 _ (mem_map_of_mem hr')
      have hdrop := ih hs.2 (fun r' hr' => htoken r' (mem_cons_of_mem r hr')) hj
      rw [drop_succ_cons, hdrop, remainder, remainder, filter_cons_of_neg (by simp [behind_some, hlt.le])]

/-- A request that follows a token starts behind its name, whether the resource is still there or
not. -/
theorem pageStart_cursorToken {cursor : Option Str} (boundary : Option Str)
    (hs : (resources.map name).Pairwise (· < ·)) (htoken : ∀ c ∈ cursor, boundary = some c ∧
      ∀ r ∈ resources, opaqueToken (name r) = opaqueToken c → name r = c) :
    ∃ start, pageStart name resources (cursorToken cursor) .strict boundary = .ok start ∧
      resources.drop start = remainder name resources cursor := by
  cases cursor with
  | none => exact ⟨0, rfl, remainder_none.symm⟩
  | some c =>
    obtain ⟨hb, hname⟩ := htoken c rfl
    have hself : cursorToken (some c) = opaqueToken c := rfl
    rw [hself]
    unfold pageStart
    rw [if_neg (by simp [opaqueToken_ne_nil])]
    dsimp only
    split
    · rename_i i hi
      exact ⟨i + 1, rfl, drop_findIdx?_token hs hname hi⟩
    · rw [hb]
      exact ⟨_, rfl, drop_findIdx_lt hs⟩

theorem pageLimit_strict (hsize : 1 ≤ pageSize ∧ pageSize ≤ 1000) :
    pageLimit pageSize .strict = .ok pageSize.toNat := by
  have hb : 0 ≤ pageSize ∧ pageSize ≤ 1000 := by omega
  have hne : pageSize ≠ 0 := by omega
  simp [pageLimit, hb, hne]

theorem pageLimit_pos {policy : PagingPolicy} {limit : ℕ} (h : pageLimit pageSize policy = .ok limit) :
    0 < limit := by
  have hmax : 0 < u64Max := by decide
  unfold pageLimit at h
  split at h
  · split_ifs at h with hb hzero
    · cases h
      exact hmax
    · cases h
      omega
  · split_ifs at h with hzero
    · cases h
      omega
    · cases h
      omega

/-- A page of the production policy that is not the last one ends with the token of its last
resource. -/
theorem paginateAfter_strict {pageToken : Str} {boundary : Option Str} {page : Page T}
    (h : paginateAfter name resources pageSize pageToken .strict boundary = .ok page) :
    ∃ limit start, 0 < limit ∧
      pageStart name resources pageToken .strict boundary = .ok start ∧
      page.resources = (resources.drop start).take limit ∧
      ((resources.drop start).length ≤ limit ∧ page.nextPageToken = [] ∨
        limit < (resources.drop start).length ∧ ∃ r ∈ resources,
          page.resources.getLast? = some r ∧ page.nextPageToken = opaqueToken (name r)) := by
  unfold paginateAfter at h
  cases hl : pageLimit pageSize .strict with
  | error => rw [hl] at h; cases h
  | ok limit =>
    cases hs : pageStart name resources pageToken .strict boundary with
    | error => rw [hl, hs] at h; cases h
    | ok start =>
      rw [hl, hs] at h
      cases h
      have hpos := pageLimit_pos hl
      refine ⟨limit, start, hpos, rfl, rfl, ?_⟩
      dsimp only
      rw [length_drop]
      by_cases hmore : start + limit < resources.length
      · obtain ⟨r, hr⟩ : ∃ r, resources[start + limit - 1]? = some r :=
          ⟨_, getElem?_eq_getElem (by omega)⟩
        refine .inr ⟨by omega, r, mem_of_getElem? hr, ?_, ?_⟩
        · rw [getLast?_eq_getElem?, length_take, length_drop,
            min_eq_left (by omega), getElem?_take_of_lt (by omega), getElem?_drop, ← hr]
          congr 1
          omega
        · rw [min_eq_left (by omega), if_pos hmore, hr]
          rfl
      · refine .inl ⟨by omega, ?_⟩
        rw [min_eq_right (by omega), if_neg (lt_irrefl _)]

end Page

/-! ### Remembered names -/

namespace IssuedPageBoundaries

variable {issued : IssuedPageBoundaries}

/-- What a context remembers of a token. -/
def entry (issued : IssuedPageBoundaries) (context pageToken : Str) : Option (Option Str) :=
  (issued.get context).bind fun tokens => tokens.get pageToken

theorem boundary_eq {pageToken : Str} :
    issued.boundary context pageToken = (issued.entry context pageToken).join := rfl

variable {b pageToken : Str}

theorem entry_remember_of_ne {context' pageToken' : Str} (h : context' ≠ context ∨ pageToken' ≠ pageToken) :
    (issued.remember context pageToken b).entry context' pageToken' = issued.entry context' pageToken' := by
  unfold entry remember
  rw [get_insert]
  split_ifs with hc
  · subst hc
    rw [Option.bind_some, get_insert_of_ne _ _ (h.resolve_left (not_not_intro rfl))]
    cases issued.get context' <;> rfl
  · rfl

theorem entry_remember_self :
    (issued.remember context pageToken b).entry context pageToken =
      some (match issued.entry context pageToken with
        | none => some b
        | some previous => if previous ≠ some b then none else previous) := by
  unfold entry remember
  rw [get_insert_self, Option.bind_some, get_insert_self]
  cases issued.get context <;> rfl

/-- Every token of a context stands for one name, of which it is the token; the token of a cursor
is known. -/
structure Remembers (issued : IssuedPageBoundaries) (context : Str) (names : Set Str)
    (cursor : Option Str) : Prop where
  sound : ∀ pageToken previous, issued.entry context pageToken = some previous →
    ∃ n ∈ names, previous = some n ∧ opaqueToken n = pageToken
  known : ∀ c ∈ cursor, c ∈ names ∧ issued.entry context (opaqueToken c) = some (some c)

theorem remembers_empty : Remembers (SortedMap.empty : IssuedPageBoundaries) context names none :=
  ⟨nofun, nofun⟩

/-- A new token of the context joins the others, and makes its name a cursor. -/
theorem Remembers.remember (h : issued.Remembers context names cursor) (hinj : Set.InjOn opaqueToken names)
    {n : Str} (hn : n ∈ names) :
    (issued.remember context (opaqueToken n) n).Remembers context names cursor ∧
      (issued.remember context (opaqueToken n) n).Remembers context names (some n) := by
  have hself : (issued.remember context (opaqueToken n) n).entry context (opaqueToken n) = some (some n) := by
    rw [entry_remember_self]
    cases hentry : issued.entry context (opaqueToken n) with
    | none => rfl
    | some =>
      obtain ⟨n', hn', rfl, htoken⟩ := h.sound _ _ hentry
      rw [hinj hn' hn htoken]
      simp
  have hs : ∀ pageToken previous,
      (issued.remember context (opaqueToken n) n).entry context pageToken = some previous →
        ∃ n ∈ names, previous = some n ∧ opaqueToken n = pageToken := by
    intro pageToken previous hp
    by_cases htoken : pageToken = opaqueToken n
    · subst htoken
      rw [hself, Option.some.injEq] at hp
      exact ⟨n, hn, hp.symm, rfl⟩
    · rw [entry_remember_of_ne (.inr htoken)] at hp
      exact h.sound _ _ hp
  refine ⟨⟨hs, fun c hc => ?_⟩, ⟨hs, ?_⟩⟩
  · obtain ⟨hmem, hk⟩ := h.known c hc
    refine ⟨hmem, ?_⟩
    by_cases htoken : opaqueToken c = opaqueToken n
    · rw [hinj hmem hn htoken]
      exact hself
    · rwa [entry_remember_of_ne (.inr htoken)]
  · rintro c ⟨⟩
    exact ⟨hn, hself⟩

theorem Remembers.of_entry {issued' : IssuedPageBoundaries} (h : issued.Remembers context names cursor)
    (hentry : ∀ pageToken, issued'.entry context pageToken = issued.entry context pageToken) :
    issued'.Remembers context names cursor := by
  refine ⟨fun pageToken previous hp => ?_, fun c hc => ?_⟩
  · rw [hentry] at hp
    exact h.sound _ _ hp
  · rw [hentry]
    exact h.known c hc

/-- A page request does not panic; it changes nothing, or remembers the name of its last
resource. -/
theorem paginate_cases {T : Type} (name : T → Str) (issued : IssuedPageBoundaries) (context : Str)
    (resources : List T) (pageSize : ℤ) (pageToken : Str) (policy : PagingPolicy) :
    (∃ e, paginateAfter name resources pageSize pageToken policy
        (issued.boundary context pageToken) = .error e ∧
      issued.paginate name context resources pageSize pageToken policy = some (.error e, issued)) ∨
    ∃ page, paginateAfter name resources pageSize pageToken policy
        (issued.boundary context pageToken) = .ok page ∧ ((policy = .emulator ∨ page.nextPageToken = []) ∧
        issued.paginate name context resources pageSize pageToken policy = some (.ok page, issued) ∨
      policy = .strict ∧ ∃ r ∈ resources, page.resources.getLast? = some r ∧
        page.nextPageToken = opaqueToken (name r) ∧
        issued.paginate name context resources pageSize pageToken policy =
          some (.ok page, issued.remember context (opaqueToken (name r)) (name r))) := by
  unfold paginate
  cases hpage : paginateAfter name resources pageSize pageToken policy
      (issued.boundary context pageToken) with
  | error e => exact .inl ⟨e, rfl, rfl⟩
  | ok page =>
    refine .inr ⟨page, rfl, ?_⟩
    cases policy with
    | emulator => exact .inl ⟨.inl rfl, by simp⟩
    | strict =>
      obtain ⟨limit, start, -, -, -, ⟨-, hnext⟩ | ⟨-, r, hr, hlast, hnext⟩⟩ :=
        paginateAfter_strict hpage
      · exact .inl ⟨.inr hnext, by simp [hnext]⟩
      · refine .inr ⟨rfl, r, hr, hlast, hnext, ?_⟩
        simp [hlast, hnext, opaqueToken_ne_nil]

end IssuedPageBoundaries

namespace PageEvent

/-- Whether an event lists only some names in a context. -/
def Lists (context : Str) (names : Set Str) : PageEvent → Prop
  | .request context' names' .. => context' = context → ∀ n ∈ names', n ∈ names
  | .reset _ => True

/-- Whether an event keeps a context. -/
def Keeps (context : Str) : PageEvent → Prop
  | .request .. => True
  | .reset kept => kept context = true

variable {issued : IssuedPageBoundaries}

theorem remembers_apply (hinj : Set.InjOn opaqueToken names) (h : issued.Remembers context names cursor)
    {event : PageEvent} (hl : event.Lists context names) (hk : cursor = none ∨ event.Keeps context) :
    (event.apply issued).Remembers context names cursor := by
  cases event with
  | request context' names' pageSize pageToken policy =>
    change (((issued.paginate id context' names' pageSize pageToken policy).map Prod.snd).getD
      issued).Remembers context names cursor
    rcases issued.paginate_cases id context' names' pageSize pageToken policy with
      ⟨e, -, heq⟩ | ⟨page, -, ⟨-, heq⟩ | ⟨-, n, hn, -, -, heq⟩⟩ <;> rw [heq]
    · exact h
    · exact h
    · by_cases hc : context' = context
      · subst hc
        exact (h.remember hinj (hl rfl n hn)).1
      · exact h.of_entry fun _ => IssuedPageBoundaries.entry_remember_of_ne (.inl (Ne.symm hc))
  | reset kept =>
    have hentry : ∀ pageToken, (apply issued (.reset kept)).entry context pageToken =
        if kept context then issued.entry context pageToken else none := by
      intro pageToken
      unfold apply IssuedPageBoundaries.entry
      rw [get_filter]
      cases issued.get context <;> cases kept context <;> simp [Option.filter]
    by_cases hkept : kept context = true
    · refine h.of_entry fun pageToken => ?_
      rw [hentry, if_pos hkept]
    · refine ⟨fun pageToken previous hp => ?_, ?_⟩
      · rw [hentry, if_neg hkept] at hp
        cases hp
      · obtain rfl := hk.resolve_right hkept
        exact nofun

theorem remembers_foldl (hinj : Set.InjOn opaqueToken names) (h : issued.Remembers context names cursor)
    {events : List PageEvent} (hl : ∀ event ∈ events, event.Lists context names)
    (hk : cursor = none ∨ ∀ event ∈ events, event.Keeps context) :
    (events.foldl apply issued).Remembers context names cursor :=
  events.foldlRecOn (motive := fun i => i.Remembers context names cursor) apply h fun _ h event he =>
    remembers_apply hinj h (hl event he) (hk.imp_right fun hk => hk event he)

end PageEvent

/-! ### Whole walks -/

section Walk

variable {name : T → Str}

/-- A request of a walk has a size from 1 to 1000 and a list in the order of its names; in between,
the context is not reset and lists only names of a given set, as the request does. -/
structure PageRequest.Admissible (name : T → Str) (context : Str) (names : Set Str)
    (request : PageRequest T) : Prop where
  size : 1 ≤ request.pageSize ∧ request.pageSize ≤ 1000
  sorted : (request.resources.map name).Pairwise (· < ·)
  listed : ∀ r ∈ request.resources, name r ∈ names
  before : ∀ event ∈ request.before, event.Lists context names ∧ event.Keeps context

variable {issued : IssuedPageBoundaries} {resources : List T} {n : Str}

/-- A request that follows a known cursor succeeds: its page is what comes next behind the cursor,
and the page is the last one or its last name is the next cursor. -/
theorem paginate_cursor (hinj : Set.InjOn opaqueToken names) (h : issued.Remembers context names cursor)
    {request : PageRequest T} (hrequest : request.Admissible name context names) :
    ∃ page issued', issued.paginate name context request.resources request.pageSize
        (cursorToken cursor) .strict = some (.ok page, issued') ∧
      (page.nextPageToken = [] ∧ page.resources = remainder name request.resources cursor ∨
        ∃ r rest, page.nextPageToken = opaqueToken (name r) ∧ page.resources.getLast? = some r ∧
          remainder name request.resources cursor = page.resources ++ rest ∧
          issued'.Remembers context names (some (name r))) := by
  obtain ⟨start, hs, hdrop⟩ := pageStart_cursorToken
    (issued.boundary context (cursorToken cursor)) hrequest.sorted fun c hc => by
      obtain ⟨hmem, hk⟩ := h.known c hc
      cases hc
      refine ⟨?_, fun r hr htoken => hinj (hrequest.listed r hr) hmem htoken⟩
      rw [IssuedPageBoundaries.boundary_eq, cursorToken, Option.elim, hk]
      rfl
  rcases issued.paginate_cases name context request.resources request.pageSize (cursorToken cursor)
    .strict with ⟨e, herror, -⟩ | ⟨page, hpage, hcases⟩
  · -- both the size and the token are fine
    unfold paginateAfter at herror
    rw [pageLimit_strict hrequest.size, hs] at herror
    cases herror
  · obtain ⟨limit, start', -, hs', hresources, hnext⟩ := paginateAfter_strict hpage
    rw [hs, Except.ok.injEq] at hs'
    subst hs'
    rw [hdrop] at hresources hnext
    rcases hcases with ⟨he, heq⟩ | ⟨-, r, hr, hlast, htoken, heq⟩
    · have he := he.resolve_left nofun
      refine ⟨page, issued, heq, .inl ⟨he, ?_⟩⟩
      rcases hnext with ⟨hle, -⟩ | ⟨-, r, -, -, htoken⟩
      · rw [hresources, take_of_length_le hle]
      · exact absurd (htoken.symm.trans he) (opaqueToken_ne_nil)
    · refine ⟨page, _, heq, .inr ⟨r, (remainder name request.resources cursor).drop limit, htoken,
        hlast, ?_, (h.remember hinj (hrequest.listed r hr)).2⟩⟩
      rw [hresources, take_append_drop]

theorem pairwise_remainder (cursor : Option Str) (h : (resources.map name).Pairwise (· < ·)) :
    ((remainder name resources cursor).map name).Pairwise (· < ·) :=
  h.sublist (filter_sublist.map name)

theorem mem_map_remainder :
    n ∈ (remainder name resources cursor).map name ↔ n ∈ resources.map name ∧ Behind cursor n := by
  simp only [remainder, mem_map, mem_filter, decide_eq_true_iff]
  constructor
  · rintro ⟨r, ⟨hr, hb⟩, rfl⟩
    exact ⟨⟨r, hr, rfl⟩, hb⟩
  · rintro ⟨⟨r, hr, rfl⟩, hb⟩
    exact ⟨r, ⟨hr, hb⟩, rfl⟩

/-- The last name of a sorted list is the largest. -/
theorem le_of_getLast? {l : List T} {r : T} (hs : (l.map name).Pairwise (· < ·)) (hlast : l.getLast? = some r)
    (hn : n ∈ l.map name) : n ≤ name r := by
  obtain ⟨init, rfl⟩ := getLast?_eq_some_iff.1 hlast
  rw [map_append, pairwise_append] at hs
  rw [map_append, mem_append] at hn
  rcases hn with hn | hn
  · exact (hs.2.2 n hn (name r) (by simp)).le
  · rw [map_singleton, mem_singleton] at hn
    exact hn.le

/-- What a walk that stands at a cursor returns: nothing fails, the names go up from the cursor, and
when the walk is complete it has returned every name behind the cursor that stood in all lists. -/
structure Walked (name : T → Str) (cursor : Option Str) (requests : List (PageRequest T))
    (pages : List (List T)) (token : Str) : Prop where
  ascending : (pages.flatten.map name).Pairwise (· < ·)
  behind : ∀ n ∈ pages.flatten.map name, Behind cursor n
  listed : List.Forall₂ (fun page request => List.Sublist page request.resources) pages
    (requests.take pages.length)
  complete : requests ≠ [] → token = [] → ∀ n, Behind cursor n →
    (∀ request ∈ requests.take pages.length, n ∈ request.resources.map name) → n ∈ pages.flatten.map name

theorem walked_walk (hinj : Set.InjOn opaqueToken names) (h : issued.Remembers context names cursor)
    {requests : List (PageRequest T)}
    (hrequests : ∀ request ∈ requests, request.Admissible name context names) :
    ∃ pages token, walk name context issued (cursorToken cursor) requests =
      some (.ok (pages, token)) ∧ Walked name cursor requests pages token := by
  induction requests generalizing issued cursor with
  | nil =>
    refine ⟨[], _, rfl, ?_, ?_, ?_, ?_⟩
    · simp
    · simp
    · simp
    · exact fun hne => absurd rfl hne
  | cons request requests ih =>
    have hrequest := hrequests request mem_cons_self
    have hbef := PageEvent.remembers_foldl hinj h
      (fun event he => (hrequest.before event he).1)
      (.inr fun event he => (hrequest.before event he).2)
    obtain ⟨page, issued', hpage, hcases⟩ := paginate_cursor hinj hbef hrequest
    have hs := pairwise_remainder cursor hrequest.sorted
    rw [walk, hpage]
    dsimp only
    rcases hcases with ⟨hempty, hresources⟩ | ⟨r, rest, htoken, hlast, hsplit, hnext⟩
    · -- the last page
      rw [hempty]
      refine ⟨[page.resources], [], rfl, ?_, ?_, ?_, ?_⟩
      · simpa [hresources] using hs
      · intro n hn
        rw [flatten_singleton, hresources, mem_map_remainder] at hn
        exact hn.2
      · rw [hresources]
        exact .cons filter_sublist .nil
      · intro _ _ n hb hl
        rw [flatten_singleton, hresources, mem_map_remainder]
        exact ⟨hl request (by simp), hb⟩
    · obtain ⟨pages, token, hwalk, hw⟩ := ih hnext fun request' hrequest' =>
        hrequests request' (mem_cons_of_mem request hrequest')
      have hne : page.nextPageToken.isEmpty = false := by
        rw [htoken]
        simp [opaqueToken_ne_nil]
      have hcursor : page.nextPageToken = cursorToken (some (name r)) := htoken
      rw [hsplit, map_append, pairwise_append] at hs
      rw [hne, hcursor, hwalk]
      refine ⟨page.resources :: pages, token, rfl, ?_, ?_, ?_, ?_⟩
      · rw [flatten_cons, map_append, pairwise_append]
        refine ⟨hs.1, hw.ascending, fun n hn n' hn' => ?_⟩
        exact (le_of_getLast? hs.1 hlast hn).trans_lt
          (behind_some.1 (hw.behind n' hn'))
      · intro n hn
        rw [flatten_cons, map_append, mem_append] at hn
        rcases hn with hn | hn
        · have hmem : n ∈ (remainder name request.resources cursor).map name := by
            rw [hsplit, map_append]
            exact mem_append_left _ hn
          exact (mem_map_remainder.1 hmem).2
        · intro c hc
          have hr : name r ∈ (remainder name request.resources cursor).map name := by
            rw [hsplit, map_append]
            exact mem_append_left _ (mem_map_of_mem (mem_of_getLast? hlast))
          exact ((mem_map_remainder.1 hr).2 c hc).trans (behind_some.1 (hw.behind n hn))
      · rw [length_cons, take_succ_cons]
        refine .cons ?_ hw.listed
        refine List.Sublist.trans ?_ (filter_sublist (p := fun r => Behind cursor (name r)))
        change List.Sublist _ (remainder name request.resources cursor)
        rw [hsplit]
        exact sublist_append_left _ _
      · intro _ hdone n hb hl
        rw [length_cons, take_succ_cons] at hl
        rw [flatten_cons, map_append, mem_append]
        have hn : n ∈ (remainder name request.resources cursor).map name :=
          mem_map_remainder.2 ⟨hl request mem_cons_self, hb⟩
        rw [hsplit, map_append, mem_append] at hn
        -- what this page leaves is behind its last name
        refine hn.imp_right fun hn => ?_
        refine hw.complete ?_ hdone n (behind_some.2 ?_) fun request' hrequest' =>
          hl request' (mem_cons_of_mem request hrequest')
        · rintro rfl
          cases hwalk
          exact opaqueToken_ne_nil hdone
        · exact hs.2.2 _ (mem_map_of_mem (mem_of_getLast? hlast)) n hn

/-- Walking a list page by page while it changes: whatever has happened before, no request fails, no
name is returned twice, each page is a part of the list as it is then, and a complete walk has
returned every name that stood in all lists exactly once. -/
theorem strict_walk (name : T → Str) (context : Str) (past : List PageEvent) (requests : List (PageRequest T))
    (names : Set Str) (hinj : Set.InjOn opaqueToken names) (hpast : ∀ event ∈ past, event.Lists context names)
    (hrequests : ∀ request ∈ requests, request.Admissible name context names) :
    ∃ pages token, walk name context (past.foldl PageEvent.apply SortedMap.empty) [] requests =
        some (.ok (pages, token)) ∧ (∀ n, (pages.flatten.map name).count n ≤ 1) ∧
      List.Forall₂ (fun page request => List.Sublist page request.resources) pages
        (requests.take pages.length) ∧ (requests ≠ [] → token = [] → ∀ n,
        (∀ request ∈ requests.take pages.length, n ∈ request.resources.map name) →
          (pages.flatten.map name).count n = 1) := by
  have hremembers := PageEvent.remembers_foldl hinj
    (IssuedPageBoundaries.remembers_empty) hpast (.inl rfl)
  obtain ⟨pages, token, hwalk, hwalked⟩ := walked_walk hinj hremembers hrequests
  have hnodup : (pages.flatten.map name).Nodup := hwalked.ascending.imp fun h => h.ne
  refine ⟨pages, token, hwalk, fun n => nodup_iff_count_le_one.1 hnodup n, hwalked.listed, ?_⟩
  intro hne hdone n hlisted
  exact count_eq_one_of_mem hnodup (hwalked.complete hne hdone n nofun hlisted)

/-- Three topics, of which the first page returns one that is gone when the second is asked for. -/
theorem strict_walk_three : ∃ pages token, walk id "projects/p/topics".toList SortedMap.empty []
        [⟨[], ["a".toList, "b".toList, "c".toList], 1⟩, ⟨[], ["b".toList, "c".toList], 2⟩] =
      some (.ok (pages, token)) ∧ ∀ n, (pages.flatten.map id).count n ≤ 1 := by
  have hinj : Set.InjOn opaqueToken {n | n ∈ ["a".toList, "b".toList, "c".toList]} := by
    have hdecide : ∀ n ∈ ["a".toList, "b".toList, "c".toList],
        ∀ n' ∈ ["a".toList, "b".toList, "c".toList], opaqueToken n = opaqueToken n' → n = n' := by
      decide +kernel
    exact fun n hn n' hn' => hdecide n hn n' hn'
  obtain ⟨pages, token, hwalk, hcount, -⟩ := strict_walk id "projects/p/topics".toList []
    [⟨[], ["a".toList, "b".toList, "c".toList], 1⟩, ⟨[], ["b".toList, "c".toList], 2⟩] _ hinj
    (fun _ h => absurd h not_mem_nil) (by
      intro request hrequest
      simp only [mem_cons, not_mem_nil, or_false] at hrequest
      rcases hrequest with rfl | rfl
      · exact ⟨by decide, by decide, by simp, nofun⟩
      · exact ⟨by decide, by decide, by simp, nofun⟩)
  exact ⟨pages, token, hwalk, hcount⟩

end Walk

end Fireemu.PubSub
