import Fireemu.Library.BlockStream

/-!
# Digests

The incremental CRC32C and MD5 digests of `hash.rs`.  CRC32C works off eight bytes at a time through
tables and the rest byte by byte; MD5 works off blocks of 64 bytes and keeps an incomplete one.  For
both, adding bytes in pieces is adding them at once (`Crc32c.update_append`, `Md5.update_append`).

The buffer of an incomplete MD5 block is the list of its bytes; what the source leaves behind them in
the array is never read.
-/

namespace Fireemu

open Library (absorb absorb_append absorb_of_lt absorb_of_le length_absorb_lt)
open List Function BitVec

/-- A byte. -/
abbrev Byte := BitVec 8

/-! ### CRC32C -/

namespace Crc32c

/-- One bit of the reflected division. -/
def bitStep (value : BitVec 32) : BitVec 32 :=
  if value.getLsbD 0 then value >>> 1 ^^^ 0x82f63b78#32 else value >>> 1

/-- The tables: a byte, followed by as many zero bytes as the number of the table. -/
def table : ℕ → Byte → BitVec 32
  | 0, i => bitStep^[8] (i.setWidth 32)
  | k + 1, i =>
      let previous := table k i
      previous >>> 8 ^^^ bitStep^[8] ((previous.setWidth 8).setWidth 32)

/-- One byte. -/
def byteStep (state : BitVec 32) (byte : Byte) : BitVec 32 :=
  state >>> 8 ^^^ table 0 ((state ^^^ byte.setWidth 32).setWidth 8)

/-- Byte `i` of a word, from the least significant one. -/
def byteAt (value : BitVec 64) (i : ℕ) : Byte := (value >>> (8 * i)).setWidth 8

/-- The word of eight bytes, the least significant one first. -/
def fromLeBytes : List Byte → BitVec 64
  | [] => 0
  | byte :: bytes => byte.setWidth 64 ||| fromLeBytes bytes <<< 8

/-- Eight bytes at once. -/
def wordStep (state : BitVec 32) (word : BitVec 64) : BitVec 32 :=
  let value := word ^^^ state.setWidth 64
  table 7 (byteAt value 0) ^^^ table 6 (byteAt value 1) ^^^ table 5 (byteAt value 2)
    ^^^ table 4 (byteAt value 3) ^^^ table 3 (byteAt value 4) ^^^ table 2 (byteAt value 5)
    ^^^ table 1 (byteAt value 6) ^^^ table 0 (byteAt value 7)

end Crc32c

/-- Incremental CRC32C digest. -/
structure Crc32c where
  state : BitVec 32
  deriving DecidableEq

namespace Crc32c

/-- The empty digest. -/
def new : Crc32c := ⟨BitVec.allOnes 32⟩

/-- The state after some bytes. -/
def updateState (state : BitVec 32) : List Byte → BitVec 32
  | b₀ :: b₁ :: b₂ :: b₃ :: b₄ :: b₅ :: b₆ :: b₇ :: bytes =>
      updateState (wordStep state (fromLeBytes [b₀, b₁, b₂, b₃, b₄, b₅, b₆, b₇])) bytes
  | bytes => bytes.foldl byteStep state

/-- Adds bytes to the digest. -/
def update (digest : Crc32c) (bytes : List Byte) : Crc32c := ⟨updateState digest.state bytes⟩

/-- The final digest. -/
def finalize (digest : Crc32c) : BitVec 32 := ~~~digest.state

variable {a state : BitVec 32} {byte : Byte} {bytes : List Byte}

theorem bitStep_xor {b : BitVec 32} : bitStep (a ^^^ b) = bitStep a ^^^ bitStep b := by
  unfold bitStep
  rw [getLsbD_xor, ushiftRight_xor_distrib]
  generalize 0x82f63b78#32 = p
  have hc : ∀ x y : BitVec 32, x ^^^ p ^^^ (y ^^^ p) = x ^^^ y := by
    intro x y
    rw [show x ^^^ p ^^^ (y ^^^ p) = x ^^^ y ^^^ (p ^^^ p) by ac_rfl, BitVec.xor_self, xor_zero]
  cases a.getLsbD 0 <;> cases b.getLsbD 0
  · rfl
  · exact BitVec.xor_assoc _ _ _
  · show a >>> 1 ^^^ b >>> 1 ^^^ p = a >>> 1 ^^^ p ^^^ b >>> 1
    ac_rfl
  · exact (hc _ _).symm

/-- Eight bits. -/
def shift (value : BitVec 32) : BitVec 32 := bitStep^[8] value

theorem shift_xor (a b : BitVec 32) : shift (a ^^^ b) = shift a ^^^ shift b := by
  simp only [shift, iterate_succ, Function.comp, iterate_zero, id, bitStep_xor]

theorem bitStep_of_even (h : a.getLsbD 0 = false) : bitStep a = a >>> 1 := by
  unfold bitStep
  rw [h]
  rfl

/-- A word without its low byte only moves. -/
theorem shift_shiftLeft (a : BitVec 32) : shift (a >>> 8 <<< 8) = a >>> 8 := by
  have hstep : ∀ k < 8, bitStep ((a >>> 8 <<< 8) >>> k) = (a >>> 8 <<< 8) >>> (k + 1) := by
    intro k hk
    rw [bitStep_of_even, shiftRight_add]
    rw [getLsbD_ushiftRight, getLsbD_shiftLeft]
    simp [show k < 8 from hk]
  have hrun : ∀ k ≤ 8, bitStep^[k] (a >>> 8 <<< 8) = (a >>> 8 <<< 8) >>> k := by
    intro k hk
    induction k with
    | zero => simp
    | succ k ih => rw [iterate_succ_apply', ih (by omega), hstep k (by omega)]
  unfold shift
  rw [hrun 8 le_rfl]
  apply eq_of_getLsbD_eq
  intro i hi
  simp only [getLsbD_ushiftRight, getLsbD_shiftLeft]
  by_cases h : 8 + i < 32
  · simp [h]
  · simp [getLsbD_of_ge a (8 + i) (by omega), h]

/-- A word is its low byte and the rest. -/
theorem xor_low (a : BitVec 32) : (a >>> 8 <<< 8) ^^^ (a.setWidth 8).setWidth 32 = a := by
  apply eq_of_getLsbD_eq
  intro i hi
  simp only [getLsbD_xor, getLsbD_shiftLeft, getLsbD_ushiftRight, getLsbD_setWidth]
  by_cases h : i < 8
  · simp [h, hi]
  · simp [h, hi, show 8 + (i - 8) = i by omega]

theorem shift_eq (a : BitVec 32) : shift a = a >>> 8 ^^^ shift ((a.setWidth 8).setWidth 32) := by
  conv_lhs => rw [← xor_low a, shift_xor, shift_shiftLeft]

theorem table_eq (k : ℕ) (i : Byte) : table k i = shift^[k + 1] (i.setWidth 32) := by
  induction k with
  | zero => rfl
  | succ k ih =>
    rw [iterate_succ_apply', ← ih]
    exact (shift_eq _).symm

theorem byteStep_eq (state : BitVec 32) (byte : Byte) :
    byteStep state byte = shift (state ^^^ byte.setWidth 32) := by
  rw [shift_eq, byteStep, table_eq]
  congr 1
  apply eq_of_getLsbD_eq
  intro i hi
  simp only [getLsbD_ushiftRight, getLsbD_xor, getLsbD_setWidth]
  simp

/-- Four bytes take a word to what its own bytes leave. -/
theorem shift_four (a : BitVec 32) :
    shift^[4] a = shift^[4] ((a.setWidth 8).setWidth 32)
      ^^^ shift^[3] (((a >>> 8).setWidth 8).setWidth 32)
      ^^^ shift^[2] (((a >>> 16).setWidth 8).setWidth 32)
      ^^^ shift (((a >>> 24).setWidth 8).setWidth 32) := by
  have hzero : a >>> 24 >>> 8 = 0#32 := by
    rw [← shiftRight_add]
    exact ushiftRight_eq_zero (by decide)
  have h₁ := shift_eq a
  have h₂ : shift (a >>> 8) = a >>> 16 ^^^ shift (((a >>> 8).setWidth 8).setWidth 32) := by
    rw [shift_eq, ← shiftRight_add]
  have h₃ : shift (a >>> 16) = a >>> 24 ^^^ shift (((a >>> 16).setWidth 8).setWidth 32) := by
    rw [shift_eq, ← shiftRight_add]
  have h₄ : shift (a >>> 24) = shift (((a >>> 24).setWidth 8).setWidth 32) := by
    rw [shift_eq, hzero, zero_xor]
  simp only [iterate_succ, Function.comp, iterate_zero, id]
  simp only [h₁, h₂, h₃, h₄, shift_xor]
  ac_rfl

theorem byteAt_xor (v w : BitVec 64) (i : ℕ) : byteAt (v ^^^ w) i = byteAt v i ^^^ byteAt w i := by
  unfold byteAt
  rw [ushiftRight_xor_distrib, setWidth_xor]

theorem byteAt_fromLeBytes_zero : byteAt (fromLeBytes (byte :: bytes)) 0 = byte := by
  apply eq_of_getLsbD_eq
  intro i hi
  simp only [byteAt, fromLeBytes, getLsbD_setWidth, getLsbD_ushiftRight, getLsbD_or, getLsbD_shiftLeft]
  simp [hi, show i < 64 by omega]

variable {j : ℕ} {f : BitVec 32 → BitVec 32}

theorem byteAt_fromLeBytes_succ (hj : j < 7) :
    byteAt (fromLeBytes (byte :: bytes)) (j + 1) = byteAt (fromLeBytes bytes) j := by
  apply eq_of_getLsbD_eq
  intro i hi
  simp only [byteAt, fromLeBytes, getLsbD_setWidth, getLsbD_ushiftRight, getLsbD_or, getLsbD_shiftLeft]
  rw [getLsbD_of_ge byte (8 * (j + 1) + i) (by omega), show 8 * (j + 1) + i - 8 = 8 * j + i by omega]
  simp [hi, show 8 * (j + 1) + i < 64 by omega, show ¬ 8 * (j + 1) + i < 8 by omega]

theorem byteAt_fromLeBytes (hj : j < 8) : byteAt (fromLeBytes bytes) j = bytes.getD j 0 := by
  induction bytes generalizing j with
  | nil => simp [fromLeBytes, byteAt]
  | cons byte bytes ih =>
    cases j with
    | zero => exact byteAt_fromLeBytes_zero
    | succ => rw [byteAt_fromLeBytes_succ (by omega), ih (by omega), getD_cons_succ]

theorem byteAt_setWidth (state : BitVec 32) (j : ℕ) :
    byteAt (state.setWidth 64) j = (state >>> (8 * j)).setWidth 8 := by
  apply eq_of_getLsbD_eq
  intro i hi
  simp only [byteAt, getLsbD_setWidth, getLsbD_ushiftRight]
  by_cases h : 8 * j + i < 64
  · simp [h]
  · simp [h, getLsbD_of_ge state (8 * j + i) (by omega)]

/-- Eight additive steps, one after the other or each by its distance from the end. -/
theorem eight_steps (hf : ∀ a b, f (a ^^^ b) = f a ^^^ f b) (s x₀ x₁ x₂ x₃ x₄ x₅ x₆ x₇ : BitVec 32) :
    f (f (f (f (f (f (f (f (s ^^^ x₀) ^^^ x₁) ^^^ x₂) ^^^ x₃) ^^^ x₄) ^^^ x₅) ^^^ x₆) ^^^ x₇) =
      f^[8] s ^^^ (f^[8] x₀ ^^^ f^[7] x₁ ^^^ f^[6] x₂ ^^^ f^[5] x₃ ^^^ f^[4] x₄ ^^^ f^[3] x₅
        ^^^ f^[2] x₆ ^^^ f x₇) := by
  simp only [hf, iterate_succ, Function.comp, iterate_zero, id]
  ac_rfl

theorem iterate_xor (hf : ∀ a b, f (a ^^^ b) = f a ^^^ f b) (n : ℕ) (a b : BitVec 32) :
    f^[n] (a ^^^ b) = f^[n] a ^^^ f^[n] b := by
  induction n generalizing a b with
  | zero => rfl
  | succ n ih => rw [iterate_succ_apply, hf, ih, iterate_succ_apply, iterate_succ_apply]

/-- Eight bytes take a word to what its own bytes leave. -/
theorem shift_eight (a : BitVec 32) :
    shift^[8] a = shift^[8] ((a.setWidth 8).setWidth 32)
      ^^^ shift^[7] (((a >>> 8).setWidth 8).setWidth 32)
      ^^^ shift^[6] (((a >>> 16).setWidth 8).setWidth 32)
      ^^^ shift^[5] (((a >>> 24).setWidth 8).setWidth 32) := by
  have h := congrArg shift^[4] (shift_four a)
  simp only [iterate_xor shift_xor] at h
  simpa only [← iterate_add_apply, ← iterate_succ_apply, Nat.reduceAdd, Nat.succ_eq_add_one] using h

/-- The byte of a word in front of a table. -/
theorem table_byteAt {k : ℕ} {word : BitVec 64} :
    table k (byteAt (word ^^^ state.setWidth 64) j) = shift^[k + 1] ((byteAt word j).setWidth 32)
      ^^^ shift^[k + 1] (((state >>> (8 * j)).setWidth 8).setWidth 32) := by
  rw [table_eq, byteAt_xor, byteAt_setWidth, setWidth_xor, iterate_xor shift_xor]

theorem table_byteAt_high (k : ℕ) (hj : 4 ≤ j) (state : BitVec 32) (word : BitVec 64) :
    table k (byteAt (word ^^^ state.setWidth 64) j) = shift^[k + 1] ((byteAt word j).setWidth 32) := by
  rw [table_eq, byteAt_xor, byteAt_setWidth, ushiftRight_eq_zero (by omega), setWidth_zero, xor_zero]

/-- Eight bytes at once are eight bytes one by one. -/
theorem wordStep_eq {b₀ b₁ b₂ b₃ b₄ b₅ b₆ b₇ : Byte} :
    wordStep state (fromLeBytes [b₀, b₁, b₂, b₃, b₄, b₅, b₆, b₇]) =
      [b₀, b₁, b₂, b₃, b₄, b₅, b₆, b₇].foldl byteStep state := by
  simp only [foldl_cons, foldl_nil, byteStep_eq]
  rw [eight_steps shift_xor, shift_eight state]
  simp only [wordStep]
  rw [table_byteAt, table_byteAt, table_byteAt, table_byteAt, table_byteAt_high _ (by decide),
    table_byteAt_high _ (by decide), table_byteAt_high _ (by decide), table_byteAt_high _ (by decide)]
  rw [byteAt_fromLeBytes (by decide), byteAt_fromLeBytes (by decide),
    byteAt_fromLeBytes (by decide), byteAt_fromLeBytes (by decide),
    byteAt_fromLeBytes (by decide), byteAt_fromLeBytes (by decide),
    byteAt_fromLeBytes (by decide), byteAt_fromLeBytes (by decide)]
  simp only [getD_cons_zero, getD_cons_succ, Nat.reduceAdd, Nat.reduceMul, ushiftRight_zero, iterate_one]
  ac_rfl

theorem updateState_eq : updateState state bytes = bytes.foldl byteStep state := by
  fun_induction updateState state bytes with
  | case1 state b₀ b₁ b₂ b₃ b₄ b₅ b₆ b₇ bytes ih => rw [ih, wordStep_eq]; rfl
  | case2 => rfl

/-- Bytes in two pieces. -/
theorem update_append (digest : Crc32c) (a b : List Byte) :
    digest.update (a ++ b) = (digest.update a).update b := by
  simp only [update, updateState_eq, foldl_append]

end Crc32c

/-- CRC32C of some bytes. -/
def crc32c (bytes : List Byte) : BitVec 32 := (Crc32c.new.update bytes).finalize

example : crc32c [0x61#8] = 0xC1D04330#32 := by decide

/-! ### MD5 -/

namespace Md5

/-- The chaining value. -/
structure Words where
  a : BitVec 32
  b : BitVec 32
  c : BitVec 32
  d : BitVec 32
  deriving DecidableEq

/-- The rotations of a group of four rounds, by quarter. -/
def shifts : List (List ℕ) := [[7, 12, 17, 22], [5, 9, 14, 20], [4, 11, 16, 23], [6, 10, 15, 21]]

/-- The additive constants of the rounds. -/
def constants : List (BitVec 32) :=
  [0xd76aa478, 0xe8c7b756, 0x242070db, 0xc1bdceee, 0xf57c0faf, 0x4787c62a, 0xa8304613, 0xfd469501,
   0x698098d8, 0x8b44f7af, 0xffff5bb1, 0x895cd7be, 0x6b901122, 0xfd987193, 0xa679438e, 0x49b40821,
   0xf61e2562, 0xc040b340, 0x265e5a51, 0xe9b6c7aa, 0xd62f105d, 0x02441453, 0xd8a1e681, 0xe7d3fbc8,
   0x21e1cde6, 0xc33707d6, 0xf4d50d87, 0x455a14ed, 0xa9e3e905, 0xfcefa3f8, 0x676f02d9, 0x8d2a4c8a,
   0xfffa3942, 0x8771f681, 0x6d9d6122, 0xfde5380c, 0xa4beea44, 0x4bdecfa9, 0xf6bb4b60, 0xbebfbc70,
   0x289b7ec6, 0xeaa127fa, 0xd4ef3085, 0x04881d05, 0xd9d4d039, 0xe6db99e5, 0x1fa27cf8, 0xc4ac5665,
   0xf4292244, 0x432aff97, 0xab9423a7, 0xfc93a039, 0x655b59c3, 0x8f0ccc92, 0xffeff47d, 0x85845dd1,
   0x6fa87e4f, 0xfe2ce6e0, 0xa3014314, 0x4e0811a1, 0xf7537e82, 0xbd3af235, 0x2ad7d2bb, 0xeb86d391]

/-- The words of a block, their least significant bytes first. -/
def blockWord (block : List Byte) (i : ℕ) : BitVec 32 :=
  ((block.drop (4 * i)).take 4).foldr (fun byte word => byte.setWidth 32 ||| word <<< 8) 0

/-- One round. -/
def round (block : List Byte) (w : Words) (i : ℕ) : Words :=
  let (function, word) := match i / 16 with
    | 0 => ((w.b &&& w.c) ||| (~~~w.b &&& w.d), i)
    | 1 => ((w.d &&& w.b) ||| (~~~w.d &&& w.c), (5 * i + 1) % 16)
    | 2 => (w.b ^^^ w.c ^^^ w.d, (3 * i + 5) % 16)
    | _ => (w.c ^^^ (w.b ||| ~~~w.d), (7 * i) % 16)
  let rotated := (function + w.a + constants.getD i 0 + blockWord block word).rotateLeft
    ((shifts.getD (i / 16) []).getD (i % 4) 0)
  ⟨w.d, w.b + rotated, w.b, w.c⟩

/-- Works a block of 64 bytes into the chaining value. -/
def compress (state : Words) (block : List Byte) : Words :=
  let w := (List.range 64).foldl (round block) state
  ⟨state.a + w.a, state.b + w.b, state.c + w.c, state.d + w.d⟩

end Md5

/-- Incremental MD5 digest: the chaining value, the bytes of an incomplete block and the number of
bytes so far. -/
structure Md5 where
  state : Md5.Words
  tail : List Byte
  byteLen : BitVec 64
  deriving DecidableEq

namespace Md5

/-- The empty digest. -/
def new : Md5 := ⟨⟨0x67452301#32, 0xefcdab89#32, 0x98badcfe#32, 0x10325476#32⟩, [], 0⟩

/-- Adds bytes to the digest: they complete the incomplete block first. -/
def update (digest : Md5) (bytes : List Byte) : Md5 :=
  let byteLen := digest.byteLen + BitVec.ofNat 64 bytes.length
  if digest.tail ≠ [] then
    let take := min (64 - digest.tail.length) bytes.length
    let tail := digest.tail ++ bytes.take take
    if tail.length < 64 then ⟨digest.state, tail, byteLen⟩
    else
      let (state, rest) := absorb compress 64 (compress digest.state tail) (bytes.drop take)
      ⟨state, rest, byteLen⟩
  else
    let (state, rest) := absorb compress 64 digest.state bytes
    ⟨state, rest, byteLen⟩

/-- The bytes of a word, the least significant one first. -/
def toLeBytes {w : ℕ} (n : ℕ) (word : BitVec w) : List Byte :=
  (List.range n).map fun i => (word >>> (8 * i)).setWidth 8

/-- The final digest. -/
def finalize (digest : Md5) : List Byte :=
  let finalLen := if digest.tail.length < 56 then 64 else 128
  let finalBlocks := digest.tail ++ 0x80#8 ::
    List.replicate (finalLen - 8 - (digest.tail.length + 1)) 0#8 ++ toLeBytes 8 (digest.byteLen * 8)
  let (w, _) := absorb compress 64 digest.state finalBlocks
  toLeBytes 4 w.a ++ toLeBytes 4 w.b ++ toLeBytes 4 w.c ++ toLeBytes 4 w.d

/-- A digest whose incomplete block is incomplete. -/
def Incomplete (digest : Md5) : Prop := digest.tail.length < 64

theorem incomplete_new : new.Incomplete := by
  show 0 < 64
  decide

variable {digest : Md5}

/-- Adding bytes is feeding them behind the incomplete block. -/
theorem update_eq (h : digest.Incomplete) (bytes : List Byte) :
    digest.update bytes = ⟨(absorb compress 64 digest.state (digest.tail ++ bytes)).1,
        (absorb compress 64 digest.state (digest.tail ++ bytes)).2,
        digest.byteLen + BitVec.ofNat 64 bytes.length⟩ := by
  dsimp only [update]
  by_cases htail : digest.tail = []
  · rw [if_neg (not_not.2 htail), htail, nil_append]
  · rw [if_pos htail]
    have hpart : digest.tail.length < 64 := h
    by_cases hshort : digest.tail.length + bytes.length < 64
    · -- the bytes do not complete the block
      have htake : min (64 - digest.tail.length) bytes.length = bytes.length := by omega
      have hlen : (digest.tail ++ bytes).length < 64 := by rwa [List.length_append]
      rw [htake, take_length, if_pos hlen, absorb_of_lt hlen]
    · have htake : min (64 - digest.tail.length) bytes.length = 64 - digest.tail.length := by omega
      have hs : (digest.tail ++ bytes).take 64 = digest.tail ++ bytes.take (64 - digest.tail.length) := by
        rw [take_append, take_of_length_le hpart.le]
      have hrest : (digest.tail ++ bytes).drop 64 = bytes.drop (64 - digest.tail.length) := by
        rw [drop_append, drop_eq_nil_of_le hpart.le, nil_append]
      have hle : 64 ≤ (digest.tail ++ bytes).length := by
        rw [List.length_append]
        omega
      have hfull : ¬ (digest.tail ++ bytes.take (64 - digest.tail.length)).length < 64 := by
        rw [← hs, length_take]
        omega
      rw [htake, if_neg hfull, absorb_of_le (l := digest.tail ++ bytes) (by decide) hle, hs, hrest]

theorem Incomplete.update (h : digest.Incomplete) (bytes : List Byte) : (digest.update bytes).Incomplete := by
  rw [update_eq h]
  exact length_absorb_lt (by decide) _ _

/-- Bytes in two pieces. -/
theorem update_append (h : digest.Incomplete) (a b : List Byte) :
    digest.update (a ++ b) = (digest.update a).update b := by
  rw [update_eq (h.update a), update_eq h, update_eq h, ← List.append_assoc,
    absorb_append (by decide), List.length_append, BitVec.ofNat_add, BitVec.add_assoc]

end Md5

/-- Standard base64 with padding, three bytes at a time. -/
def base64Standard : List Byte → String
  | [] => ""
  | [a] => encode a 0 1
  | [a, b] => encode a b 2
  | a :: b :: c :: bytes =>
      encode a b 3 c ++ base64Standard bytes
where
  digit (value : Byte) : Char :=
    "ABCDEFGHIJKLMNOPQRSTUVWXYZabcdefghijklmnopqrstuvwxyz0123456789+/".toList.getD value.toNat 'A'
  encode (first second : Byte) (length : ℕ) (third : Byte := 0) : String :=
    String.ofList [digit (first >>> 2), digit ((first &&& 0x03#8) <<< 4 ||| second >>> 4),
      if 1 < length then digit ((second &&& 0x0f#8) <<< 2 ||| third >>> 6) else '=',
      if 2 < length then digit (third &&& 0x3f#8) else '=']

/-- MD5 of some bytes. -/
def md5 (bytes : List Byte) : List Byte := (Md5.new.update bytes).finalize

end Fireemu
