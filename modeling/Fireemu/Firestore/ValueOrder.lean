import Fireemu.Firestore.Value

/-!
# The canonical order is a total preorder

Doubles compare by an integer key with NaN at the bottom (`cmpDoubles_eq`), and all numbers that
are not NaN by one integer key (`cmpSameKind_number`), which is the exactness of the mixed integer
and double comparison.  `canonicalCmp` is oriented and coherent by induction on the value, one case
per kind, which gives the instance of `Std.TransCmp`.
-/

namespace Fireemu

open Library (Binary64 linCmp Coherent linCmp_eq_lt linCmp_eq_gt linCmp_eq_eq coherent_of_transCmp
  coherent_of_nil)

/-! ### Numbers -/

/-- The key doubles are compared by: NaN below everything. -/
def doubleKey (d : Binary64) : WithBot ℤ := if d.isNan then ⊥ else d.scaled

theorem cmpDoubles_eq {a b : Binary64} : cmpDoubles a b = linCmp (doubleKey a) (doubleKey b) := by
  unfold cmpDoubles doubleKey Binary64.partialCmp
  cases a.isNan <;> cases b.isNan
  · have hmono : StrictMono ((↑) : ℤ → WithBot ℤ) := WithBot.coe_strictMono
    simp [Library.linCmp_map_of_strictMono hmono]
  · exact (linCmp_eq_gt.2 (WithBot.bot_lt_coe _)).symm
  · exact (linCmp_eq_lt.2 (WithBot.bot_lt_coe _)).symm
  · exact (linCmp_eq_eq.2 rfl).symm

instance : Std.TransCmp cmpDoubles := by
  have h : cmpDoubles = fun a b => linCmp (doubleKey a) (doubleKey b) := by
    funext a b
    exact cmpDoubles_eq
  rw [h]
  exact Library.transCmp_of_coherent (fun x y => Std.OrientedCmp.eq_swap)
    fun x y z => coherent_of_transCmp (c := linCmp) _ _ _

/-- Comparing an integer with the integer part of a fraction, and then with what is left. -/
theorem linCmp_tdiv {i n : ℤ} {d : ℤ} (hd : 0 < d) :
    (match linCmp i (n.tdiv d) with
      | .eq => if 0 < n - n.tdiv d * d then Ordering.lt
        else if n - n.tdiv d * d < 0 then .gt else .eq
      | o => o) = linCmp (i * d) n := by
  have hn : d * n.tdiv d + n.tmod d = n := Int.mul_tdiv_add_tmod n d
  have hlo : -d < n.tmod d := Int.lt_tmod_of_pos n hd
  have hhi : n.tmod d < d := Int.tmod_lt_of_pos n hd
  -- the remainder has the sign of the dividend, and so has the quotient
  cases hcmp : linCmp i (n.tdiv d) with
  | lt =>
    rw [linCmp_eq_lt] at hcmp
    rw [eq_comm, linCmp_eq_lt]
    nlinarith
  | gt =>
    rw [linCmp_eq_gt] at hcmp
    rw [eq_comm, linCmp_eq_gt]
    nlinarith
  | eq =>
    rw [linCmp_eq_eq] at hcmp
    subst hcmp
    rcases lt_trichotomy 0 (n - n.tdiv d * d) with h | h | h
    · rw [if_pos h, eq_comm, linCmp_eq_lt]
      omega
    · rw [if_neg h.not_lt, if_neg h.not_gt, eq_comm, linCmp_eq_eq]
      omega
    · rw [if_neg h.asymm, if_pos h, eq_comm, linCmp_eq_gt]
      omega

/-- The mixed comparison is the comparison of the two numbers. -/
theorem cmpIntDouble_eq {i : I64} {d : Binary64} (hd : d.isNan = false) :
    cmpIntDouble i d = linCmp (i.1 * Binary64.one) d.scaled := by
  have hone := Binary64.one_pos
  have hi : -2 ^ 63 ≤ i.1 ∧ i.1 < 2 ^ 63 := by
    have := i.2
    unfold i64Min i64Max at this
    omega
  have hlow : -2 ^ 63 * (Binary64.one : ℤ) ≤ i.1 * Binary64.one :=
    mul_le_mul_of_nonneg_right hi.1 hone.le
  have hhigh : i.1 * Binary64.one < 2 ^ 63 * (Binary64.one : ℤ) :=
    mul_lt_mul_of_pos_right hi.2 hone
  have hpos63 : (Binary64.ofInt (2 ^ 63)).isNan = false := by decide +kernel
  have hneg63 : (Binary64.ofInt (-2 ^ 63)).isNan = false := by decide +kernel
  unfold cmpIntDouble
  split_ifs with hinf hpos hge hlt
  · have hmag : 2 ^ 63 * (Binary64.one : ℤ) < d.magnitude := by
      exact_mod_cast Binary64.lt_magnitude_infinite hinf
    have hd' := Binary64.lt_zero_iff hd |>.1 hpos
    rw [eq_comm, linCmp_eq_lt]
    unfold Binary64.scaled at hd' ⊢
    split_ifs at hd' ⊢ <;> omega
  · have hmag : 2 ^ 63 * (Binary64.one : ℤ) < d.magnitude := by
      exact_mod_cast Binary64.lt_magnitude_infinite hinf
    have hd' := (not_congr (Binary64.lt_zero_iff hd)).1 hpos
    rw [eq_comm, linCmp_eq_gt]
    unfold Binary64.scaled at hd' ⊢
    split_ifs at hd' ⊢ <;> omega
  · rw [Binary64.le_iff hpos63 hd, Binary64.scaled_two_pow_63] at hge
    rw [eq_comm, linCmp_eq_lt]
    exact hhigh.trans_le hge
  · rw [Binary64.lt_iff hd hneg63, Binary64.scaled_neg_two_pow_63] at hlt
    rw [eq_comm, linCmp_eq_gt]
    exact hlt.trans_le hlow
  · exact linCmp_tdiv hone

/-! ### Values of one kind -/

namespace Value

/-- The key numbers that are not NaN are compared by. -/
def numberKey : Value → ℤ
  | .integer i => i.1 * Binary64.one
  | .double d => d.scaled
  | _ => 0

/-- Comparison of two values of the same kind. -/
def cmpSameKind : Value → Value → Ordering
  | .boolean a, .boolean b => linCmp a b
  | .integer a, .integer b => linCmp a.1 b.1
  | .double a, .double b => if a.isNan && b.isNan then .eq else cmpDoubles a b
  | .integer a, .double b => cmpIntDouble a b
  | .double a, .integer b => (cmpIntDouble b a).swap
  | .timestamp a, .timestamp b => linCmp a b
  | .string a, .string b => linCmp a b
  | .bytes a, .bytes b => linCmp (a.map UInt8.toNat) (b.map UInt8.toNat)
  | .reference a, .reference b => cmpReference a b
  | .geoPoint a, .geoPoint b => a.cmp b
  | .array a, .array b => cmpSlices a b
  | .vector a, .vector b => (linCmp a.length b.length).then (cmpComponents a b)
  | .map a, .map b => cmpMaps a b
  | _, _ => .eq

theorem canonicalCmp_eq {a b : Value} : canonicalCmp a b = (a.kind.cmp b.kind).then (cmpSameKind a b) := by
  cases a <;> cases b <;> simp only [canonicalCmp, cmpSameKind]

theorem kindCmp_eq_eq {a b : ValueKind} : a.cmp b = .eq ↔ a = b := by
  rw [ValueKind.cmp, linCmp_eq_eq]
  cases a <;> cases b <;> decide

theorem kind_double {d : Binary64} (h : d.isNan = false) : (double d).kind = .number := by
  simp [kind, h]

variable {a b d : Value}

theorem cmpSameKind_number (ha : a.kind = .number) (hb : b.kind = .number) :
    cmpSameKind a b = linCmp a.numberKey b.numberKey := by
  have hone := Binary64.one_pos
  cases a <;> try simp [kind] at ha
  all_goals cases b <;> try simp [kind] at hb
  case integer.integer i j =>
    exact (Library.linCmp_map_of_strictMono (strictMono_mul_right_of_pos hone) i.1 j.1).symm
  case integer.double i d => exact cmpIntDouble_eq hb
  case double.integer d i =>
    rw [cmpSameKind, cmpIntDouble_eq ha]
    exact Library.swap_cmp _ _
  case double.double c d => simp [cmpSameKind, cmpDoubles, ha, hb, numberKey, Binary64.partialCmp]

/-- Arrays and maps, whose comparison recurs. -/
def isContainer : Value → Bool
  | .array _ => true
  | .map _ => true
  | _ => false

/-- Outside the numbers the kind of a value tells its constructor. -/
theorem exists_of_kind {v : Value} {k : ValueKind} : k = v.kind →
    match k with
    | .null => v = .null
    | .boolean => ∃ b, v = .boolean b
    | .nan => True
    | .number => True
    | .timestamp => ∃ t, v = .timestamp t
    | .string => ∃ s, v = .string s
    | .bytes => ∃ b, v = .bytes b
    | .reference => ∃ name, v = .reference name
    | .geoPoint => ∃ p, v = .geoPoint p
    | .array => ∃ items, v = .array items
    | .vector => ∃ components, v = .vector components
    | .map => ∃ entries, v = .map entries := by
  rintro rfl
  cases v
  case double d => cases h : d.isNan <;> simp [kind, h]
  all_goals simp [kind]

theorem cmpComponents_swap {a : List Binary64} (b : List Binary64) :
    cmpComponents a b = (cmpComponents b a).swap := by
  induction a generalizing b with
  | nil => cases b <;> rfl
  | cons x a ih =>
    cases b with
    | nil => rfl
    | cons =>
      rw [cmpComponents, cmpComponents, Ordering.swap_then, ← ih, Library.swap_cmp (c := cmpDoubles)]

theorem cmpComponents_coherent {a b d : List Binary64} (hab : a.length = b.length) (hbd : b.length = d.length) :
    Coherent (cmpComponents a b) (cmpComponents b d) (cmpComponents a d) := by
  induction a generalizing b d with
  | nil =>
    have hb := List.length_eq_zero_iff.1 hab.symm
    subst hb
    have hd := List.length_eq_zero_iff.1 hbd.symm
    subst hd
    exact Coherent.eq
  | cons x a ih =>
    obtain ⟨y, b, rfl⟩ := List.exists_cons_of_length_eq_add_one hab.symm
    obtain ⟨z, d, rfl⟩ := List.exists_cons_of_length_eq_add_one hbd.symm
    exact (coherent_of_transCmp x y z).then fun _ _ =>
      ih (Nat.succ_injective hab) (Nat.succ_injective hbd)

theorem cmpSameKind_swap (ha : a.isContainer = false) : cmpSameKind a b = (cmpSameKind b a).swap := by
  cases a <;> cases b <;> try rfl
  case boolean.boolean x y => exact (Library.swap_cmp (c := linCmp) y x).symm
  case integer.integer x y => exact (Library.swap_cmp (c := linCmp) y.1 x.1).symm
  case integer.double => exact Ordering.swap_swap.symm
  case double.double c d =>
    rw [cmpSameKind, cmpSameKind, Bool.and_comm]
    split_ifs
    · rfl
    · exact (Library.swap_cmp d c).symm
  case timestamp.timestamp x y => exact (Library.swap_cmp (c := linCmp) y x).symm
  case string.string x y => exact (Library.swap_cmp (c := linCmp) y x).symm
  case bytes.bytes x y => exact (Library.swap_cmp (c := linCmp) (y.map _) (x.map _)).symm
  case reference.reference x y =>
    exact (Library.swap_cmp (c := linCmp) (y.splitOn '/') (x.splitOn '/')).symm
  case geoPoint.geoPoint p q =>
    rw [cmpSameKind, cmpSameKind, GeoPoint.cmp, GeoPoint.cmp, Ordering.swap_then,
      Library.swap_cmp, Library.swap_cmp]
  case vector.vector x y =>
    rw [cmpSameKind, cmpSameKind, Ordering.swap_then, Library.swap_cmp, ← cmpComponents_swap]
  all_goals cases ha

theorem cmpSameKind_nan (ha : a.kind = .nan) (hb : b.kind = .nan) : cmpSameKind a b = .eq := by
  cases a <;> try simp [kind] at ha
  cases b <;> try simp [kind] at hb
  simp [cmpSameKind, ha, hb]

theorem cmpSameKind_coherent (ha : a.isContainer = false) (hab : a.kind = b.kind) (hbd : a.kind = d.kind) :
    Coherent (cmpSameKind a b) (cmpSameKind b d) (cmpSameKind a d) := by
  by_cases hn : a.kind = .number
  · have hb := hab.symm.trans hn
    have hd := hbd.symm.trans hn
    rw [cmpSameKind_number hn hb, cmpSameKind_number hb hd, cmpSameKind_number hn hd]
    exact coherent_of_transCmp _ _ _
  by_cases hnan : a.kind = .nan
  · have hb := hab.symm.trans hnan
    have hd := hbd.symm.trans hnan
    rw [cmpSameKind_nan hnan hb, cmpSameKind_nan hb hd, cmpSameKind_nan hnan hd]
    exact Coherent.eq
  -- in every other kind the three values have one constructor
  have hb := exists_of_kind hab
  have hd := exists_of_kind hbd
  cases a with
  | null =>
    subst hb hd
    exact Coherent.eq
  | boolean x | timestamp x | string x =>
    obtain ⟨⟨y, rfl⟩, z, rfl⟩ := And.intro hb hd
    exact coherent_of_transCmp (c := linCmp) x y z
  | integer => exact absurd rfl hn
  | double x => cases h : x.isNan <;> simp [kind, h] at hn hnan
  | bytes x =>
    obtain ⟨⟨y, rfl⟩, z, rfl⟩ := And.intro hb hd
    exact coherent_of_transCmp (c := linCmp) (x.map _) (y.map _) (z.map _)
  | reference x =>
    obtain ⟨⟨y, rfl⟩, z, rfl⟩ := And.intro hb hd
    exact coherent_of_transCmp (c := linCmp) (x.splitOn '/') (y.splitOn '/') (z.splitOn '/')
  | geoPoint x =>
    obtain ⟨⟨y, rfl⟩, z, rfl⟩ := And.intro hb hd
    exact (coherent_of_transCmp x.latitude y.latitude z.latitude).then fun _ _ =>
      coherent_of_transCmp x.longitude y.longitude z.longitude
  | array => cases ha
  | vector x =>
    obtain ⟨⟨y, rfl⟩, z, rfl⟩ := And.intro hb hd
    exact (coherent_of_transCmp x.length y.length z.length).then fun hxy hyz =>
      cmpComponents_coherent (linCmp_eq_eq.1 hxy) (linCmp_eq_eq.1 hyz)
  | map => cases ha

/-! ### All values -/

theorem canonicalCmp_swap_of (h : cmpSameKind a b = (cmpSameKind b a).swap) :
    canonicalCmp a b = (canonicalCmp b a).swap := by
  rw [canonicalCmp_eq, canonicalCmp_eq, Ordering.swap_then, ← h, ValueKind.cmp, ValueKind.cmp,
    Library.swap_cmp]

theorem canonicalCmp_coherent_of
    (h : a.kind = b.kind → a.kind = d.kind → Coherent (cmpSameKind a b) (cmpSameKind b d) (cmpSameKind a d)) :
    Coherent (canonicalCmp a b) (canonicalCmp b d) (canonicalCmp a d) := by
  simp only [canonicalCmp_eq]
  refine Coherent.then (coherent_of_transCmp (c := linCmp) _ _ _) fun hab hbd => ?_
  have hab' := kindCmp_eq_eq.1 hab
  exact h hab' (hab'.trans (kindCmp_eq_eq.1 hbd))

mutual

theorem canonicalCmp_swap : ∀ a b : Value, canonicalCmp a b = (canonicalCmp b a).swap
  | .array a, b => canonicalCmp_swap_of <| by
      cases b with
      | array b => exact cmpSlices_swap a b
      | _ => rfl
  | .map a, b => canonicalCmp_swap_of <| by
      cases b with
      | map b => exact cmpMaps_swap a b
      | _ => rfl
  | .null, b | .boolean _, b | .integer _, b | .double _, b | .timestamp _, b | .string _, b
  | .bytes _, b | .reference _, b | .geoPoint _, b | .vector _, b =>
      canonicalCmp_swap_of (cmpSameKind_swap rfl)

theorem cmpSlices_swap : ∀ a b : List Value, cmpSlices a b = (cmpSlices b a).swap
  | [], [] => rfl
  | [], _ :: _ => rfl
  | _ :: _, [] => rfl
  | x :: a, y :: b => by
      rw [cmpSlices, cmpSlices, Ordering.swap_then, ← canonicalCmp_swap x y, ← cmpSlices_swap a b]

theorem cmpMaps_swap : ∀ a b : List (Str × Value), cmpMaps a b = (cmpMaps b a).swap
  | [], [] => rfl
  | [], _ :: _ => rfl
  | _ :: _, [] => rfl
  | (k, v) :: a, (k', v') :: b => by
      rw [cmpMaps, cmpMaps, Ordering.swap_then, Ordering.swap_then, ← canonicalCmp_swap v v',
        ← cmpMaps_swap a b, Library.swap_cmp]

end

mutual

theorem canonicalCmp_coherent : ∀ a b d : Value,
    Coherent (canonicalCmp a b) (canonicalCmp b d) (canonicalCmp a d)
  | .array a, b, d => canonicalCmp_coherent_of fun hb hd => by
      obtain ⟨⟨b, rfl⟩, d, rfl⟩ := And.intro (exists_of_kind hb) (exists_of_kind hd)
      exact cmpSlices_coherent a b d
  | .map a, b, d => canonicalCmp_coherent_of fun hb hd => by
      obtain ⟨⟨b, rfl⟩, d, rfl⟩ := And.intro (exists_of_kind hb) (exists_of_kind hd)
      exact cmpMaps_coherent a b d
  | .null, _, _ | .boolean _, _, _ | .integer _, _, _ | .double _, _, _ | .timestamp _, _, _
  | .string _, _, _ | .bytes _, _, _ | .reference _, _, _ | .geoPoint _, _, _ | .vector _, _, _ =>
      canonicalCmp_coherent_of (cmpSameKind_coherent rfl)

theorem cmpSlices_coherent : ∀ a b d : List Value, Coherent (cmpSlices a b) (cmpSlices b d) (cmpSlices a d)
  | [], _, _ | _ :: _, [], _ | _ :: _, _ :: _, [] =>
      coherent_of_nil rfl (fun _ _ => rfl) (fun _ _ => rfl) (by simp)
  | x :: a, y :: b, z :: d =>
      (canonicalCmp_coherent x y z).then fun _ _ => cmpSlices_coherent a b d

theorem cmpMaps_coherent : ∀ a b d : List (Str × Value), Coherent (cmpMaps a b) (cmpMaps b d) (cmpMaps a d)
  | [], _, _ | _ :: _, [], _ | _ :: _, _ :: _, [] =>
      coherent_of_nil rfl (fun _ _ => rfl) (fun _ _ => rfl) (by simp)
  | (k, v) :: a, (k', v') :: b, (k'', v'') :: d =>
      ((coherent_of_transCmp (c := linCmp) k k' k'').then fun _ _ =>
        canonicalCmp_coherent v v' v'').then fun _ _ => cmpMaps_coherent a b d

end

instance : Std.TransCmp canonicalCmp :=
  Library.transCmp_of_coherent canonicalCmp_swap canonicalCmp_coherent

/-! ### Numbers by their numeric value -/

/-- The number a value is; a value that is not a number, or is NaN, is none. -/
def number : Value → Option (WithBot (WithTop ℚ))
  | .integer i => some (((i.1 : ℚ) : WithTop ℚ) : WithBot (WithTop ℚ))
  | .double d => d.number
  | _ => none

/-- A 64-bit integer is far from the infinities. -/
theorem integer_units (i : I64) :
    -Binary64.infinite < i.1 * Binary64.one ∧ i.1 * Binary64.one < Binary64.infinite := by
  have hone := Binary64.one_pos
  have hi : -2 ^ 63 ≤ i.1 ∧ i.1 < 2 ^ 63 := by
    have := i.2
    unfold i64Min i64Max at this
    omega
  have hb : (2 ^ 63 : ℤ) * Binary64.one < Binary64.infinite := by decide +kernel
  constructor <;> nlinarith

theorem number_eq_some {v : Value} {x : WithBot (WithTop ℚ)} (h : v.number = some x) :
    v.kind = .number ∧ x = Binary64.ofUnits v.numberKey ∧
      v.numberKey ∈ Set.Icc (-Binary64.infinite) Binary64.infinite := by
  cases v <;> try cases h
  case integer.refl i =>
    have hone : (Binary64.one : ℚ) ≠ 0 := by exact_mod_cast Binary64.one_pos.ne'
    obtain ⟨hlow, hhigh⟩ := integer_units i
    refine ⟨rfl, ?_, hlow.le, hhigh.le⟩
    rw [numberKey, Binary64.ofUnits, if_neg hhigh.not_ge, if_neg hlow.not_ge]
    push_cast
    rw [mul_div_cancel_right₀ _ hone]
  case double d =>
    cases hnan : d.isNan with
    | true =>
      rw [number, Binary64.number, hnan] at h
      cases h
    | false =>
      obtain ⟨hn, hu⟩ := Binary64.number_eq hnan
      rw [number, hn] at h
      exact ⟨kind_double hnan, (Option.some.inj h).symm, hu⟩

theorem canonicalCmp_number {x y : WithBot (WithTop ℚ)} (ha : a.number = some x) (hb : b.number = some y) :
    canonicalCmp a b = linCmp x y := by
  obtain ⟨hka, rfl, hua⟩ := number_eq_some ha
  obtain ⟨hkb, rfl, hub⟩ := number_eq_some hb
  have hkind : a.kind.cmp b.kind = .eq := kindCmp_eq_eq.2 (hka.trans hkb.symm)
  have hcmp := Binary64.ofUnits_strictMonoOn.cmp_map_eq hua hub
  rw [cmp_eq_compare, cmp_eq_compare] at hcmp
  rw [canonicalCmp_eq, hkind, Ordering.eq_then, cmpSameKind_number hka hkb]
  exact hcmp.symm

/-- The comparison of values is a total preorder, and the exact comparison of numbers. -/
theorem canonicalCmp_total_preorder :
    (∀ a, canonicalCmp a a = .eq) ∧ (∀ a b, canonicalCmp b a = (canonicalCmp a b).swap) ∧
    (∀ a b c, (canonicalCmp a b).isLE = true → (canonicalCmp b c).isLE = true →
      (canonicalCmp a c).isLE = true) ∧
    ∀ a b x y, a.number = some x → b.number = some y → canonicalCmp a b = linCmp x y :=
  ⟨fun _ => Std.ReflCmp.compare_self, fun a b => canonicalCmp_swap b a,
    fun _ _ _ => Std.TransCmp.isLE_trans, fun _ _ _ _ => canonicalCmp_number⟩

-- `2 ^ 53 + 1` lies between two neighbouring doubles
example : canonicalCmp (.integer ⟨2 ^ 53 + 1, by decide⟩) (.double (.ofInt (2 ^ 53))) = .gt ∧
    canonicalCmp (.integer ⟨2 ^ 53 + 1, by decide⟩) (.double (.ofInt (2 ^ 53 + 2))) = .lt := by
  decide +kernel

end Value

end Fireemu
