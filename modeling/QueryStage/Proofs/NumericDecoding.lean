import QueryStage.Decoder.Decode
import QueryStage.Proofs.DoubleValues

/-!
# Decoding numbers

A number is decoded exactly if a value that the type holds is decoded as that value, and any other
is out of range. Integers and doubles are read from each other, so the bounds of the integers and
the precision of doubles both matter. Decoding is exact but in two places: the double just above the
64-bit integers is taken for the largest of them, and a 64-bit integer with too many significant
bits is rounded to a double.
-/

namespace QueryStage

/-- The exact value of a number in a pipeline output. -/
def Bson.number? : Bson → Option ℚ
  | int32 n => some n.toInt
  | int64 n => some n.toInt
  | double x => x.value?
  | _ => none

namespace Ty

def isNumber : Ty → Bool
  | int32 | int64 | double => true
  | _ => false

/-- The exact value of a decoded number of this type. -/
def number? : Ty → Value → Option ℚ
  | int32, .int32 n => some n.toInt
  | int64, .int64 n => some n.toInt
  | double, .double x => x.value?
  | _, _ => none

/-- A number of this type has the value. -/
def Holds (ty : Ty) (q : ℚ) : Prop := ∃ v, ty.number? v = some q

/-- What is decoded for this type has the exact value `q`. There is a result if the type holds `q`,
and otherwise `q` is out of range. -/
structure DecodesExactly (ty : Ty) (b : Bson) (q : ℚ) : Prop where
  exact : ∀ v, (Decoder.value ty).decode b = .ok v → ty.number? v = some q
  succeeds : ty.Holds q → ∃ v, (Decoder.value ty).decode b = .ok v
  outOfRange : ¬ ty.Holds q →
    ∃ written, (Decoder.value ty).decode b = .error (.outOfRange written ty)

theorem DecodesExactly.of_ok {ty : Ty} {b : Bson} {q : ℚ} {v : Value} (h : ty.decode b = .ok v)
    (hv : ty.number? v = some q) : ty.DecodesExactly b q := by
  have hdecode : (Decoder.value ty).decode b = .ok v := h
  refine ⟨fun v' hv' => ?_, fun _ => ⟨v, hdecode⟩, fun hq => absurd ⟨v, hv⟩ hq⟩
  rw [hdecode, Except.ok.injEq] at hv'
  rw [← hv', hv]

theorem DecodesExactly.of_error {ty : Ty} {b : Bson} {q : ℚ} {written : String}
    (h : ty.decode b = .error (.outOfRange written ty)) (hq : ¬ ty.Holds q) :
    ty.DecodesExactly b q := by
  have hdecode : (Decoder.value ty).decode b = .error (.outOfRange written ty) := h
  refine ⟨fun v hv => ?_, fun hq' => absurd hq' hq, fun _ => ⟨written, hdecode⟩⟩
  rw [hdecode] at hv
  cases hv

end Ty

namespace Ty

theorem holds_int32_iff {q : ℚ} :
    int32.Holds q ↔ ∃ n : Int, -2 ^ 31 ≤ n ∧ n < 2 ^ 31 ∧ q = n := by
  constructor
  · rintro ⟨v, hv⟩
    cases v with
    | int32 n => exact ⟨n.toInt, n.le_toInt, n.toInt_lt, (Option.some.inj hv).symm⟩
    | _ => cases hv
  · rintro ⟨n, hlow, hhigh, rfl⟩
    refine ⟨.int32 (.ofInt n), ?_⟩
    rw [number?, Int32.toInt_ofInt_of_le hlow hhigh]

theorem holds_int64_iff {q : ℚ} :
    int64.Holds q ↔ ∃ n : Int, -2 ^ 63 ≤ n ∧ n < 2 ^ 63 ∧ q = n := by
  constructor
  · rintro ⟨v, hv⟩
    cases v with
    | int64 n => exact ⟨n.toInt, n.le_toInt, n.toInt_lt, (Option.some.inj hv).symm⟩
    | _ => cases hv
  · rintro ⟨n, hlow, hhigh, rfl⟩
    refine ⟨.int64 (.ofInt n), ?_⟩
    rw [number?, Int64.toInt_ofInt_of_le hlow hhigh]

end Ty

theorem toInt_of_narrow? {n : Int64} {i : Int32} (h : narrow? n = some i) : i.toInt = n.toInt := by
  unfold narrow? at h
  split at h
  · rename_i hrange
    rw [Bool.and_eq_true, decide_eq_true_eq, decide_eq_true_eq] at hrange
    cases h
    exact Int32.toInt_ofInt_of_le hrange.1 hrange.2
  · cases h

theorem range_of_narrow?_eq_none {n : Int64} (h : narrow? n = none) :
    ¬ (-2 ^ 31 ≤ n.toInt ∧ n.toInt < 2 ^ 31) := by
  rintro ⟨hlow, hhigh⟩
  unfold narrow? at h
  rw [if_pos] at h
  · cases h
  · rw [Bool.and_eq_true, decide_eq_true_eq, decide_eq_true_eq]
    exact ⟨hlow, hhigh⟩

namespace Binary64

/-- A whole double is read as a 64-bit integer if it is one. The double above all of them is read as
the largest. -/
theorem toInt64?_cases (x : Binary64) :
    (∃ n : Int, x.toInt? = some n ∧ -2 ^ 63 ≤ n ∧ n < 2 ^ 63 ∧ x.toInt64? = some (.ofInt n)) ∨
      (x.toInt? = some (2 ^ 63) ∧ x.toInt64? = some Int64.maxValue) ∨
      x.toInt64? = none ∧ ∀ n : Int, x.toInt? = some n → n < -2 ^ 63 ∨ 2 ^ 63 < n := by
  have hpow : Int.pow 2 63 = 2 ^ 63 := rfl
  unfold toInt64?
  cases x.toInt? with
  | none => exact .inr (.inr ⟨rfl, by simp⟩)
  | some n =>
    simp only [hpow, Bool.or_eq_true, decide_eq_true_eq, Option.some.injEq]
    split
    · rename_i hrange
      exact .inr (.inr ⟨rfl, by rintro _ rfl; exact hrange⟩)
    · split
      · rename_i htop
        exact .inr (.inl ⟨htop, rfl⟩)
      · exact .inl ⟨n, rfl, by omega, by omega, rfl⟩

theorem fits_of_lt {m : Nat} (h : m < 2 ^ 53) : fits m = true := by
  have hlog : m.log2 - 52 = 0 := by
    by_cases hm : m = 0
    · rw [hm, Nat.log2_zero]
    · have hlt := (Nat.log2_lt hm).mpr h
      omega
  rw [fits, hlog, pow_zero, Nat.mod_one, decide_eq_true_eq]

end Binary64

namespace Ty

/-- Where a number is decoded that is not the given one: the double above the 64-bit integers, and
a 64-bit integer with more significant bits than a double has. -/
def rounds : Ty → Bson → Bool
  | int64, .double x => x.toInt? = some (2 ^ 63)
  | double, .int64 n => !Binary64.fits n.toInt.natAbs
  | _, _ => false

theorem decode_int32_int64 (n : Int64) :
    int32.decode (.int64 n) = match narrow? n with
      | some i => .ok (.int32 i)
      | none => .error (.outOfRange (toString n.toInt) int32) := rfl

theorem int32_of_int64 (n : Int64) : int32.DecodesExactly (.int64 n) n.toInt := by
  have hdecode := decode_int32_int64 n
  cases hnarrow : narrow? n with
  | some i =>
    rw [hnarrow] at hdecode
    apply DecodesExactly.of_ok hdecode
    rw [number?, toInt_of_narrow? hnarrow]
  | none =>
    rw [hnarrow] at hdecode
    apply DecodesExactly.of_error hdecode
    rw [holds_int32_iff]
    rintro ⟨m, hlow, hhigh, hm⟩
    rw [Int.cast_inj] at hm
    exact range_of_narrow?_eq_none hnarrow ⟨hm ▸ hlow, hm ▸ hhigh⟩

theorem int32_of_double {x : Binary64} (hx : x.isFinite = true) :
    int32.DecodesExactly (.double x) x.value := by
  have hmax : narrow? Int64.maxValue = none := by decide
  cases hread : x.toInt64?.bind narrow? with
  | some i =>
    apply DecodesExactly.of_ok (v := .int32 i)
    · simp [decode, hread]
    · obtain ⟨l, hl, hi⟩ := Option.bind_eq_some_iff.mp hread
      have hin := toInt_of_narrow? hi
      rcases x.toInt64?_cases with ⟨n, hn, hlow, hhigh, h64⟩ | ⟨-, h64⟩ | ⟨h64, -⟩
      · rw [h64, Option.some.injEq] at hl
        rw [← hl, Int64.toInt_ofInt_of_le hlow hhigh] at hin
        rw [number?, hin, Binary64.value_of_toInt? hn]
      · rw [h64, Option.some.injEq] at hl
        rw [← hl, hmax] at hi
        cases hi
      · rw [h64] at hl
        cases hl
  | none =>
    have hdecode : int32.decode (.double x) = .error (.outOfRange x.text int32) := by
      simp [decode, hread]
    apply DecodesExactly.of_error hdecode
    rw [holds_int32_iff]
    rintro ⟨m, hlow, hhigh, hm⟩
    have hint := Binary64.toInt?_of_value hx hm
    rcases x.toInt64?_cases with ⟨n, hn, hn0, hn1, h64⟩ | ⟨htop, -⟩ | ⟨-, hrange⟩
    · rw [hint, Option.some.injEq] at hn
      rw [h64, Option.bind_some] at hread
      have hrange := range_of_narrow?_eq_none hread
      rw [Int64.toInt_ofInt_of_le hn0 hn1, ← hn] at hrange
      exact hrange ⟨hlow, hhigh⟩
    · rw [hint, Option.some.injEq] at htop
      omega
    · have hout := hrange m hint
      omega

theorem int64_of_double {x : Binary64} (hx : x.isFinite = true) (htop : x.toInt? ≠ some (2 ^ 63)) :
    int64.DecodesExactly (.double x) x.value := by
  rcases x.toInt64?_cases with ⟨n, hn, hlow, hhigh, h64⟩ | ⟨htop', -⟩ | ⟨h64, hrange⟩
  · apply DecodesExactly.of_ok (v := .int64 (.ofInt n))
    · simp [decode, h64]
    · rw [number?, Int64.toInt_ofInt_of_le hlow hhigh, Binary64.value_of_toInt? hn]
  · exact absurd htop' htop
  · have hdecode : int64.decode (.double x) = .error (.outOfRange x.text int64) := by
      simp [decode, h64]
    apply DecodesExactly.of_error hdecode
    rw [holds_int64_iff]
    rintro ⟨m, hlow, hhigh, hm⟩
    have hout := hrange m (Binary64.toInt?_of_value hx hm)
    omega

theorem log2_natAbs_le (n : Int64) : n.toInt.natAbs.log2 ≤ 1022 := by
  by_cases hn : n.toInt.natAbs = 0
  · rw [hn, Nat.log2_zero]
    omega
  · have hlow := n.le_toInt
    have hhigh := n.toInt_lt
    have hlog : n.toInt.natAbs.log2 < 64 := (Nat.log2_lt hn).mpr (by omega)
    omega

theorem double_of_int64 {n : Int64} (h : Binary64.fits n.toInt.natAbs = true) :
    double.DecodesExactly (.int64 n) n.toInt := by
  apply DecodesExactly.of_ok (v := .double (.ofInt n.toInt)) rfl
  exact Binary64.value?_ofInt (log2_natAbs_le n) h

theorem double_of_int32 (n : Int32) : double.DecodesExactly (.int32 n) n.toInt := by
  have hlow := n.le_toInt
  have hhigh := n.toInt_lt
  have hlog := log2_natAbs_le n.toInt64
  rw [Int32.toInt_toInt64] at hlog
  apply DecodesExactly.of_ok (v := .double (.ofInt n.toInt)) rfl
  exact Binary64.value?_ofInt hlog (Binary64.fits_of_lt (by omega))

theorem number?_of_toInt? {x : Binary64} {n : Int} (hx : x.isFinite = true)
    (h : x.toInt? = some n) : (Bson.double x).number? = some (n : ℚ) :=
  Binary64.value?_eq_some_iff.mpr ⟨hx, Binary64.value_of_toInt? h⟩

theorem not_decodesExactly_of_rounds {ty : Ty} {b : Bson} {q : ℚ} (hb : b.number? = some q)
    (h : ty.rounds b = true) : ¬ ty.DecodesExactly b q := by
  intro hexact
  unfold rounds at h
  split at h
  · rename_i x
    rw [decide_eq_true_eq] at h
    have hdecode : (Decoder.value int64).decode (.double x) = .ok (.int64 Int64.maxValue) := by
      rcases x.toInt64?_cases with ⟨n, hn, -, hhigh, -⟩ | ⟨-, h64⟩ | ⟨-, hrange⟩
      · rw [h, Option.some.injEq] at hn
        omega
      · simp [Decoder.decode, decode, h64]
      · have hout := hrange _ h
        omega
    have hvalue := Binary64.value_of_toInt? h
    rw [(Binary64.value?_eq_some_iff.mp hb).2] at hvalue
    have hnumber := Option.some.inj (hexact.exact _ hdecode)
    rw [hvalue, Int.cast_inj] at hnumber
    exact absurd hnumber (by decide)
  · rename_i n
    rw [Bool.not_eq_true'] at h
    cases hb
    have hnumber := hexact.exact (.double (.ofInt n.toInt)) rfl
    have hfits := (Binary64.exists_value?_iff (log2_natAbs_le n)).mp ⟨_, hnumber⟩
    rw [h] at hfits
    cases hfits
  · cases h

/-- A number is decoded exactly by every numeric type, or out of its range, just where decoding does
not round: a double is not the one above all 64-bit integers, and a 64-bit integer that is decoded
as a double has no more significant bits than that. -/
theorem decodesExactly_iff {ty : Ty} (hty : ty.isNumber = true) {b : Bson} {q : ℚ}
    (hb : b.number? = some q) : ty.DecodesExactly b q ↔ ty.rounds b = false := by
  constructor
  · intro hexact
    rw [← Bool.not_eq_true]
    exact fun h => not_decodesExactly_of_rounds hb h hexact
  · intro h
    cases b with
    | int32 n =>
      cases hb
      cases ty with
      | int32 => exact .of_ok (v := .int32 n) rfl rfl
      | int64 => exact .of_ok (v := .int64 n.toInt64) rfl (by rw [number?, Int32.toInt_toInt64])
      | double => exact double_of_int32 n
      | _ => cases hty
    | int64 n =>
      cases hb
      cases ty with
      | int32 => exact int32_of_int64 n
      | int64 => exact .of_ok (v := .int64 n) rfl rfl
      | double => exact double_of_int64 (by simpa [rounds] using h)
      | _ => cases hty
    | double x =>
      obtain ⟨hx, rfl⟩ := Binary64.value?_eq_some_iff.mp hb
      cases ty with
      | int32 => exact int32_of_double hx
      | int64 => exact int64_of_double hx (by simpa [rounds] using h)
      | double => exact .of_ok (v := .double x) rfl hb
      | _ => cases hty
    | _ => cases hb

/-- The double of the least 64-bit integer, and the second integer after the range in which doubles
hold all of them. -/
theorem exact_at_bounds :
    (Bson.double ⟨0xC3E0000000000000⟩).number? = some ((-2 ^ 63 : Int) : ℚ) ∧
      int64.DecodesExactly (.double ⟨0xC3E0000000000000⟩) (-2 ^ 63 : Int) ∧
      int32.DecodesExactly (.double ⟨0xC3E0000000000000⟩) (-2 ^ 63 : Int) ∧
      double.DecodesExactly (.int64 9007199254740994) (9007199254740994 : Int) := by
  have hleast : (Bson.double ⟨0xC3E0000000000000⟩).number? = some ((-2 ^ 63 : Int) : ℚ) :=
    number?_of_toInt? (by decide) (by decide)
  refine ⟨hleast, ?_, ?_, ?_⟩
  · exact (decodesExactly_iff rfl hleast).mpr (by decide)
  · exact (decodesExactly_iff rfl hleast).mpr rfl
  · exact (decodesExactly_iff rfl rfl).mpr (by decide)

/-- The double `2 ^ 63` is decoded as the 64-bit integer below it, and the first integer after the
range in which doubles hold all of them is decoded as the double below it. -/
theorem rounded_beyond_bounds :
    (Bson.double ⟨0x43E0000000000000⟩).number? = some ((2 ^ 63 : Int) : ℚ) ∧
      ¬ int64.DecodesExactly (.double ⟨0x43E0000000000000⟩) (2 ^ 63 : Int) ∧
      ¬ double.DecodesExactly (.int64 9007199254740993) (9007199254740993 : Int) := by
  have htop : (Bson.double ⟨0x43E0000000000000⟩).number? = some ((2 ^ 63 : Int) : ℚ) :=
    number?_of_toInt? (by decide) (by decide)
  refine ⟨htop, ?_, ?_⟩
  · exact not_decodesExactly_of_rounds htop (by decide)
  · exact not_decodesExactly_of_rounds rfl (by decide)

end Ty

end QueryStage
