import Fireemu.Types.Determinism

/-!
# The identifiers of a session

A session draws its event, invocation, transaction and correlation identifiers from one source: the
high word of an identifier hashes the session, its seed and the kind, the low word hashes a counter
of the kind under the high word.  Both hashes are bijections of words, so no identifier is drawn
twice, and a reset, which mixes its epoch into the seed, starts streams of their own.
-/

namespace Fireemu.Session

/-- The kinds mixed into an identifier. -/
inductive IdKind
  | event
  | invocation
  | transaction
  | correlation
  deriving DecidableEq

/-- The discriminant of a kind. -/
def IdKind.value : IdKind → BitVec 64
  | event => 1
  | invocation => 2
  | transaction => 3
  | correlation => 4

/-- The deterministic source of identifiers. -/
structure DeterministicIdSource where
  session : BitVec 128
  seed : BitVec 64
  commandCounter : BitVec 64
  counters : IdKind → BitVec 64

namespace DeterministicIdSource

/-- The source of a session and a seed. -/
def new (session : BitVec 128) (seed : BitVec 64) : DeterministicIdSource :=
  ⟨session, seed, 0, fun _ => 0⟩

/-- What the high word of a kind is hashed from. -/
def sessionKey (source : DeterministicIdSource) (kind : IdKind) : BitVec 64 :=
  let lo := source.session.setWidth 64
  let hi := (source.session >>> 64).setWidth 64
  lo ^^^ hi.rotateLeft 17 ^^^ source.seed ^^^ (kind.value <<< 56)

/-- The identifier of a kind with a counter. -/
def mixed (source : DeterministicIdSource) (kind : IdKind) (counter : BitVec 64) : BitVec 128 :=
  let sessionHash := (SplitMix64.mk (source.sessionKey kind)).nextU64.1
  let counterHash := (SplitMix64.mk (sessionHash ^^^ counter)).nextU64.1
  sessionHash ++ counterHash

def nextMixed (source : DeterministicIdSource) (kind : IdKind) : BitVec 128 × DeterministicIdSource :=
  let counter := source.counters kind + 1
  (source.mixed kind counter, { source with counters := Function.update source.counters kind counter })

def nextCommandId (source : DeterministicIdSource) : BitVec 64 × DeterministicIdSource :=
  let counter := source.commandCounter + 1
  (counter, { source with commandCounter := counter })

end DeterministicIdSource

/-- The source of an epoch of a session. -/
def idSourceFor (id : BitVec 128) (seed epoch : BitVec 64) : DeterministicIdSource :=
  .new id (seed ^^^ epoch.rotateLeft 32)

/-- A draw of a command id, or of an identifier of a kind. -/
inductive IdCall
  | command
  | mixed (kind : IdKind)
  deriving DecidableEq

namespace DeterministicIdSource

/-- The identifiers some calls draw, with their kinds. -/
def drawn (source : DeterministicIdSource) : List IdCall → List (IdKind × BitVec 128)
  | [] => []
  | .command :: calls => source.nextCommandId.2.drawn calls
  | .mixed kind :: calls =>
    (kind, (source.nextMixed kind).1) :: (source.nextMixed kind).2.drawn calls

variable {source source' : DeterministicIdSource} {kind kind' : IdKind} {counter counter' : BitVec 64}
  {calls : List IdCall} {x : BitVec 128}

theorem word_mk_injective : Function.Injective fun s => (SplitMix64.mk s).nextU64.1 := by
  intro s t h
  exact (BitVec.add_left_inj _).1 (SplitMix64.mix_injective h)

/-- An identifier determines the key of its high word, and with it the counter. -/
theorem key_and_counter_of_mixed (h : source.mixed kind counter = source'.mixed kind' counter') :
    source.sessionKey kind = source'.sessionKey kind' ∧ counter = counter' := by
  have hhigh := congrArg (BitVec.extractLsb' 64 64) h
  have hlow := congrArg (BitVec.extractLsb' 0 64) h
  simp only [mixed, BitVec.extractLsb'_append_eq_left, BitVec.extractLsb'_append_eq_right] at hhigh hlow
  rw [hhigh] at hlow
  exact ⟨word_mk_injective hhigh, (BitVec.xor_right_inj _).1 (word_mk_injective hlow)⟩

theorem value_injective : Function.Injective fun kind : IdKind => kind.value <<< 56 := by
  intro k k'
  cases k <;> cases k' <;> decide

/-- Whatever some calls draw has the session and the seed of the source, and a counter they pass. -/
theorem mixed_of_mem_drawn (h : (kind, x) ∈ source.drawn calls) :
    ∃ n < calls.count (.mixed kind),
      x = source.mixed kind (source.counters kind + 1 + BitVec.ofNat 64 n) := by
  induction calls generalizing source with
  | nil => cases h
  | cons call calls ih =>
    cases call with
    | command =>
      obtain ⟨n, hn, hx⟩ := ih h
      exact ⟨n, by simpa using hn, hx⟩
    | mixed k =>
      rcases List.mem_cons.1 h with heq | hrest
      · obtain ⟨rfl, rfl⟩ := Prod.mk.inj heq
        exact ⟨0, by simp, by simp [nextMixed]⟩
      · obtain ⟨n, hn, rfl⟩ := ih hrest
        by_cases hk : k = kind
        · subst hk
          refine ⟨n + 1, by simpa using hn, congrArg (source.mixed k) ?_⟩
          simp [nextMixed, BitVec.ofNat_add, BitVec.add_assoc, BitVec.add_comm]
        · refine ⟨n, by simpa [hk] using hn, congrArg (source.mixed kind) ?_⟩
          simp [nextMixed, Function.update_of_ne (Ne.symm hk)]

/-- The next identifier of a kind is not drawn again before its counter comes round. -/
theorem nodup_drawn (h : ∀ kind, calls.count (.mixed kind) < 2 ^ 64) :
    ((source.drawn calls).map Prod.snd).Nodup := by
  induction calls generalizing source with
  | nil => exact List.nodup_nil
  | cons call calls ih =>
    have hrest : ∀ kind, calls.count (.mixed kind) < 2 ^ 64 := fun kind =>
      List.count_le_count_cons.trans_lt (h kind)
    cases call with
    | command => exact ih hrest
    | mixed k =>
      refine List.nodup_cons.2 ⟨fun hmem => ?_, ih hrest⟩
      obtain ⟨⟨kind, x⟩, hx, heq⟩ := List.mem_map.1 hmem
      obtain ⟨n, hn, rfl⟩ := mixed_of_mem_drawn hx
      obtain ⟨hkey, hcounter⟩ := key_and_counter_of_mixed heq
      obtain rfl : kind = k := value_injective ((BitVec.xor_right_inj _).1 hkey)
      have hk := h kind
      rw [List.count_cons_self] at hk
      simp only [nextMixed, Function.update_self, BitVec.add_assoc, BitVec.add_right_inj] at hcounter
      bv_omega

theorem rotateLeft_injective : Function.Injective fun x : BitVec 64 => x.rotateLeft 32 := by
  intro x y h
  ext i hi
  rcases Nat.lt_or_ge i 32 with hlow | hhigh
  · have := congrArg (fun z => BitVec.getLsbD z (i + 32)) h
    simpa [BitVec.getLsbD_rotateLeft, hlow, show i + 32 < 64 by omega] using this
  · have := congrArg (fun z => BitVec.getLsbD z (i - 32)) h
    simpa [BitVec.getLsbD_rotateLeft, show i - 32 < 32 by omega, show 32 + (i - 32) = i by omega, hi]
      using this

/-- The identifiers a source draws are pairwise distinct, whatever the order of the calls, and two
epochs of a session draw none of a kind in common. -/
theorem ids_never_repeat (session : BitVec 128) (seed : BitVec 64) :
    (∀ calls : List IdCall, (∀ kind, calls.count (.mixed kind) < 2 ^ 64) →
      (((new session seed).drawn calls).map Prod.snd).Nodup) ∧
    ∀ epoch epoch' : BitVec 64, epoch ≠ epoch' → ∀ (calls calls' : List IdCall) (kind : IdKind),
      ∀ x x', (kind, x) ∈ (idSourceFor session seed epoch).drawn calls →
        (kind, x') ∈ (idSourceFor session seed epoch').drawn calls' → x ≠ x' := by
  refine ⟨fun calls h => nodup_drawn h, fun epoch epoch' hne calls calls' kind x x' h h' heq => hne ?_⟩
  obtain ⟨_, _, rfl⟩ := mixed_of_mem_drawn h
  obtain ⟨_, _, rfl⟩ := mixed_of_mem_drawn h'
  -- The keys differ in the seed alone.
  have hkey := (key_and_counter_of_mixed heq).1
  simp only [sessionKey, idSourceFor, new, BitVec.xor_left_inj, BitVec.xor_right_inj] at hkey
  exact rotateLeft_injective hkey

theorem ids_never_repeat_sample :
    let calls := [.mixed .event, .command, .mixed .correlation, .mixed .event]
    (((new 7 42).drawn calls).map Prod.snd).Nodup ∧
      ((idSourceFor 7 42 1).nextMixed .event).1 ≠ ((idSourceFor 7 42 2).nextMixed .event).1 :=
  ⟨(ids_never_repeat 7 42).1 _ (by rintro ⟨⟩ <;> decide),
    (ids_never_repeat 7 42).2 1 2 (by decide) [.mixed .event] [.mixed .event] .event _ _
      (List.mem_singleton_self _) (List.mem_singleton_self _)⟩

end DeterministicIdSource

end Fireemu.Session
