import Fireemu.Types.Hash
import Fireemu.Types.Ids

/-!
# Base32

The text form of the shared secrets of one-time passwords.  The encoder writes groups of five bytes
as eight letters; the decoder shifts the values of the letters into one word over the whole text and
takes a byte off it whenever it holds eight bits, so what earlier groups left in the word must not
reach a later byte.
-/

namespace Fireemu.Auth.Base32

open List

def alphabet : Str := "ABCDEFGHIJKLMNOPQRSTUVWXYZ234567".toList

/-- The letter of a five-bit value. -/
def letter (index : ℕ) : Char := alphabet.getD index '='

structure Base32Error where
  offset : ℕ
  deriving DecidableEq

/-- A group of at most five bytes: its letters, then `=` up to eight characters. -/
def encodeChunk (chunk : List Byte) : Str :=
  let bits := (chunk ++ List.replicate (5 - chunk.length) 0).foldl (fun n (b : Byte) => n * 256 + b.toNat) 0
  let chars := match chunk.length with
    | 1 => 2
    | 2 => 4
    | 3 => 5
    | 4 => 7
    | _ => 8
  (List.range 8).map fun i =>
    if i < chars then letter (bits / 2 ^ (35 - i * 5) % 32) else '='

/-- Encodes with padding. -/
def encode : List Byte → Str
  | [] => []
  | a :: b :: c :: d :: e :: data => encodeChunk [a, b, c, d, e] ++ encode data
  | chunk => encodeChunk chunk

/-- The value of a character, in either case. -/
def valueOf (c : Char) : Option ℕ :=
  let c := c.toUpper
  if 'A' ≤ c ∧ c ≤ 'Z' then some (c.toNat - 'A'.toNat)
  else if '2' ≤ c ∧ c ≤ '7' then some (c.toNat - '2'.toNat + 26)
  else none

/-- The decoder's loop.  The shifted word ends in five clear bits, which the value fills. -/
def decodeFrom (buffer bits offset : ℕ) : Str → Except Base32Error (List Byte)
  | [] => .ok []
  | c :: text =>
    if c = '=' then .ok []
    else match valueOf c with
      | none => .error ⟨offset⟩
      | some value =>
        let buffer := buffer * 32 % 2 ^ 64 + value
        if 8 ≤ bits + 5 then
          (decodeFrom buffer (bits + 5 - 8) (offset + 1) text).map
            (BitVec.ofNat 8 (buffer / 2 ^ (bits + 5 - 8)) :: ·)
        else decodeFrom buffer (bits + 5) (offset + 1) text

/-- Decodes either case; padding is optional. -/
def decode (text : Str) : Except Base32Error (List Byte) := decodeFrom 0 0 0 text

variable {buffer bits offset v : ℕ} {text : Str}

theorem valueOf_letter : ∀ v < 32, valueOf (letter v) = some v ∧ letter v ≠ '=' := by decide

variable {n : ℕ}

theorem decodeFrom_letter :
    decodeFrom buffer bits offset (letter (n % 32) :: text) = if 8 ≤ bits + 5 then
        (decodeFrom (buffer * 32 % 2 ^ 64 + n % 32) (bits + 5 - 8) (offset + 1) text).map
          (BitVec.ofNat 8 ((buffer * 32 % 2 ^ 64 + n % 32) / 2 ^ (bits + 5 - 8)) :: ·)
      else decodeFrom (buffer * 32 % 2 ^ 64 + n % 32) (bits + 5) (offset + 1) text := by
  obtain ⟨hvalue, hne⟩ := valueOf_letter (n % 32) (Nat.mod_lt _ (by decide))
  simp only [decodeFrom, hne, hvalue, if_false]

theorem decodeFrom_pad : decodeFrom buffer bits offset ('=' :: text) = .ok [] := by
  simp [decodeFrom]

theorem ofNat_eq {b : Byte} : BitVec.ofNat 8 n = b ↔ n % 256 = b.toNat := by
  rw [← BitVec.toNat_inj, BitVec.toNat_ofNat]

/-- A group is read back whatever earlier groups left in the word. -/
theorem decodeFrom_encode {data : List Byte} (buffer offset : ℕ) :
    decodeFrom buffer 0 offset (encode data) = .ok data := by
  fun_induction encode data generalizing buffer offset with
  | case1 => rfl
  | case2 a b c d e data ih =>
    simp [encodeChunk, range_succ, decodeFrom_letter, ih, Except.map, ofNat_eq]
    and_intros <;> omega
  | case3 chunk hnil hlong =>
    match chunk with
    | [a] | [a, b] | [a, b, c] | [a, b, c, d] =>
      simp [encodeChunk, range_succ, decodeFrom_letter, decodeFrom_pad, Except.map, ofNat_eq]
      and_intros <;> omega
    | _ :: _ :: _ :: _ :: _ :: _ => exact (hlong _ _ _ _ _ _ rfl).elim

/-- Padding after a text changes nothing. -/
theorem decodeFrom_append_padding :
    decodeFrom buffer bits offset (text ++ List.replicate n '=') = decodeFrom buffer bits offset text := by
  induction text generalizing buffer bits offset with
  | nil => cases n <;> simp [decodeFrom, replicate_succ]
  | cons c text ih => simp only [cons_append, decodeFrom, ih]

theorem reads_toLower : ∀ c ∈ '=' :: alphabet,
    valueOf c.toLower = valueOf c ∧ (c.toLower = '=' ↔ c = '=') := @of_decide_eq_true _ (decidableBAll _ _) rfl

theorem decodeFrom_toLower (h : ∀ c ∈ text, c ∈ '=' :: alphabet) :
    decodeFrom buffer bits offset (text.map Char.toLower) = decodeFrom buffer bits offset text := by
  induction text generalizing buffer bits offset with
  | nil => rfl
  | cons c text ih =>
    obtain ⟨hc, htext⟩ := forall_mem_cons.1 h
    obtain ⟨hvalue, hpad⟩ := reads_toLower c hc
    simp only [map_cons, decodeFrom, hvalue, hpad, ih htext]

/-- The padding of RFC 4648 for a length in bytes. -/
def padding (n : ℕ) : ℕ :=
  match n % 5 with
  | 0 => 0
  | 1 => 6
  | 2 => 4
  | 3 => 3
  | _ => 1

theorem letter_mem_alphabet : ∀ v < 32, letter v ∈ alphabet := by decide

/-- Letters, then the padding, in blocks of eight characters. -/
theorem encode_shape (data : List Byte) : ∃ letters : Str,
    encode data = letters ++ List.replicate (padding data.length) '=' ∧ (∀ c ∈ letters, c ∈ alphabet) ∧
      letters.length + padding data.length = 8 * ((data.length + 4) / 5) := by
  have hletter : ∀ n, letter (n % 32) ∈ alphabet := fun n =>
    letter_mem_alphabet _ (Nat.mod_lt _ (by decide))
  fun_induction encode data with
  | case1 => exact ⟨[], rfl, by simp, rfl⟩
  | case2 a b c d e data ih =>
    obtain ⟨letters, heq, hmem, hlen⟩ := ih
    have hpad : padding (data.length + 5) = padding data.length := by simp [padding]
    refine ⟨encodeChunk [a, b, c, d, e] ++ letters, by simp [heq, hpad], ?_, ?_⟩
    · simpa [encodeChunk, range_succ, hletter, or_imp, forall_and] using hmem
    · simp [encodeChunk, hpad]
      omega
  | case3 chunk hnil hlong =>
    refine ⟨(encodeChunk chunk).take (8 - padding chunk.length), ?_⟩
    match chunk with
    | [a] | [a, b] | [a, b, c] | [a, b, c, d] =>
      simp [encodeChunk, range_succ, padding, hletter]
    | _ :: _ :: _ :: _ :: _ :: _ => exact (hlong _ _ _ _ _ _ rfl).elim

/-- Secrets survive the text form, also lower-cased and without its padding. -/
theorem secret_round_trips (data : List Byte) : ∃ letters : Str,
    encode data = letters ++ List.replicate (padding data.length) '=' ∧ (∀ c ∈ letters, c ∈ alphabet) ∧
      letters.length + padding data.length = 8 * ((data.length + 4) / 5) ∧
      decode (encode data) = .ok data ∧ decode ((encode data).map Char.toLower) = .ok data ∧
      decode letters = .ok data ∧ decode (letters.map Char.toLower) = .ok data := by
  obtain ⟨letters, heq, hmem, hlen⟩ := encode_shape data
  have hfull : decode (encode data) = .ok data := decodeFrom_encode 0 0
  have hbare : decode letters = .ok data := by
    rw [← hfull, heq]
    exact decodeFrom_append_padding.symm
  have hletters : ∀ c ∈ letters, c ∈ '=' :: alphabet := fun c hc => mem_cons_of_mem _ (hmem c hc)
  have hall : ∀ c ∈ encode data, c ∈ '=' :: alphabet := by
    rw [heq]
    exact forall_mem_append.2 ⟨hletters, by simp⟩
  exact ⟨letters, heq, hmem, hlen, hfull, (decodeFrom_toLower hall).trans hfull, hbare,
    (decodeFrom_toLower hletters).trans hbare⟩

end Fireemu.Auth.Base32
