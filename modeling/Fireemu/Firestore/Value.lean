import Fireemu.Library.Binary64
import Fireemu.Library.SortedMap
import Fireemu.Types.Ids
import Fireemu.Types.Machine

/-!
# Field values and their total ordering

The value type order is null, Boolean, NaN, numbers (integers and doubles together), timestamp,
text, bytes, reference, geographical point, array, vector, map.  `canonicalCmp` is the total
preorder of query results (`1` and `1.0` compare equal); `storedEq` is identity of stored content.

A map value is an entry list in key order, which the operations of `OrdList` keep; texts are
compared by code points, which is UTF-8 byte order.
-/

namespace Fireemu

open Library (Binary64 linCmp Coherent)

/-- First and last second of the supported years. -/
def Timestamp.minSeconds : ℤ := -62135596800

@[inherit_doc Timestamp.minSeconds]
def Timestamp.maxSeconds : ℤ := 253402300799

/-- Seconds since the Unix epoch and nanoseconds, within the supported years. -/
structure Timestamp where
  seconds : ℤ
  nanos : ℕ
  nanos_lt : nanos < 1000000000
  seconds_mem : Timestamp.minSeconds ≤ seconds ∧ seconds ≤ Timestamp.maxSeconds
  deriving DecidableEq

namespace Timestamp

/-- Seconds first, then nanoseconds. -/
def key (t : Timestamp) : ℤ ×ₗ ℕ := toLex (t.seconds, t.nanos)

theorem key_injective : Function.Injective key := fun s t h => by
  have h' : (s.seconds, s.nanos) = (t.seconds, t.nanos) := toLex.injective h
  cases s
  cases t
  simp_all

instance : LinearOrder Timestamp := LinearOrder.lift' key key_injective

/-- The timestamp of given seconds and nanoseconds, if they are in range. -/
def new (seconds : ℤ) (nanos : ℕ) : Option Timestamp :=
  if h : nanos < 1000000000 then
    if h' : minSeconds ≤ seconds ∧ seconds ≤ maxSeconds then some ⟨seconds, nanos, h, h'⟩
    else none
  else none

/-- The stored timestamp: precision below one microsecond is dropped. -/
def truncatedToMicros (t : Timestamp) : Timestamp :=
  { t with
    nanos := t.nanos / 1000 * 1000
    nanos_lt := (Nat.div_mul_le_self _ _).trans_lt t.nanos_lt }

end Timestamp

/-- Doubles in canonical order: NaN is one value below every other double. -/
def cmpDoubles (a b : Binary64) : Ordering :=
  match a.isNan, b.isNan with
  | true, true => .eq
  | true, false => .lt
  | false, true => .gt
  | false, false => (a.partialCmp b).getD .eq

/-- Geographical point: no coordinate is NaN or out of range. -/
structure GeoPoint where
  latitude : Binary64
  longitude : Binary64
  latitude_mem : (Binary64.ofInt (-90)).le latitude = true ∧ latitude.le (Binary64.ofInt 90) = true
  longitude_mem :
    (Binary64.ofInt (-180)).le longitude = true ∧ longitude.le (Binary64.ofInt 180) = true
  deriving DecidableEq

/-- Latitude first, then longitude. -/
def GeoPoint.cmp (a b : GeoPoint) : Ordering :=
  (cmpDoubles a.latitude b.latitude).then (cmpDoubles a.longitude b.longitude)

/-- A field value. -/
inductive Value
  | null
  | boolean (b : Bool)
  | integer (i : I64)
  | double (d : Binary64)
  | timestamp (t : Timestamp)
  | string (s : Str)
  | bytes (b : List UInt8)
  | reference (name : Str)
  | geoPoint (p : GeoPoint)
  | array (items : List Value)
  | vector (components : List Binary64)
  | map (entries : List (Str × Value))

/-- The fields of a document or of a map value, in key order. -/
abbrev Fields := List (Str × Value)

/-- Value kinds in sort order. -/
inductive ValueKind
  | null | boolean | nan | number | timestamp | string | bytes | reference | geoPoint | array
  | vector | map
  deriving DecidableEq, Repr

/-- The place of a kind in the sort order. -/
def ValueKind.rank : ValueKind → ℕ
  | .null => 0
  | .boolean => 1
  | .nan => 2
  | .number => 3
  | .timestamp => 4
  | .string => 5
  | .bytes => 6
  | .reference => 7
  | .geoPoint => 8
  | .array => 9
  | .vector => 10
  | .map => 11

/-- Comparison of kinds. -/
def ValueKind.cmp (a b : ValueKind) : Ordering := linCmp a.rank b.rank

/-- References order by path segments. -/
def cmpReference (a b : Str) : Ordering := linCmp (a.splitOn '/') (b.splitOn '/')

/-- Exact comparison of an integer with a double that is not NaN. -/
def cmpIntDouble (i : I64) (d : Binary64) : Ordering :=
  if d.isInfinite then if Binary64.lt (.zero false) d then .lt else .gt
  else if (Binary64.ofInt (2 ^ 63)).le d then .lt
  else if d.lt (Binary64.ofInt (-2 ^ 63)) then .gt
  else
    let t := d.trunc
    match linCmp i.1 t with
    | .eq =>
      -- the difference of a double and its integer part is exact
      let frac := d.scaled - t * Binary64.one
      if 0 < frac then .lt else if frac < 0 then .gt else .eq
    | o => o

/-- Vectors of the same length order by their first different components. -/
def cmpComponents : List Binary64 → List Binary64 → Ordering
  | x :: a, y :: b => (cmpDoubles x y).then (cmpComponents a b)
  | _, _ => .eq

namespace Value

/-- Kind used for type ordering. -/
def kind : Value → ValueKind
  | .null => .null
  | .boolean _ => .boolean
  | .integer _ => .number
  | .double d => if d.isNan then .nan else .number
  | .timestamp _ => .timestamp
  | .string _ => .string
  | .bytes _ => .bytes
  | .reference _ => .reference
  | .geoPoint _ => .geoPoint
  | .array _ => .array
  | .vector _ => .vector
  | .map _ => .map

mutual

/-- Total preorder over all values. -/
def canonicalCmp (a b : Value) : Ordering :=
  (a.kind.cmp b.kind).then <|
    match a, b with
    | .boolean a, .boolean b => linCmp a b
    | .integer a, .integer b => linCmp a.1 b.1
    | .double a, .double b => if a.isNan && b.isNan then .eq else cmpDoubles a b
    | .integer a, .double b => cmpIntDouble a b
    | .double a, .integer b => (cmpIntDouble b a).swap
    | .timestamp a, .timestamp b => linCmp a b
    | .string a, .string b => linCmp a b
    | .bytes a, .bytes b => linCmp (a.map UInt8.toNat) (b.map UInt8.toNat)
    | .reference a, .reference b => cmpReference a b
    | .geoPoint a, .geoPoint b => a.cmp b
    | .array a, .array b => cmpSlices a b
    | .vector a, .vector b => (linCmp a.length b.length).then (cmpComponents a b)
    | .map a, .map b => cmpMaps a b
    | _, _ => .eq

/-- Arrays order by their first different items, then by length. -/
def cmpSlices : List Value → List Value → Ordering
  | [], [] => .eq
  | [], _ :: _ => .lt
  | _ :: _, [] => .gt
  | x :: a, y :: b => (canonicalCmp x y).then (cmpSlices a b)

/-- Maps order by their first different entries, then by size. -/
def cmpMaps : List (Str × Value) → List (Str × Value) → Ordering
  | [], [] => .eq
  | [], _ :: _ => .lt
  | _ :: _, [] => .gt
  | (k, v) :: a, (k', v') :: b => ((linCmp k k').then (canonicalCmp v v')).then (cmpMaps a b)

end

end Value

end Fireemu
