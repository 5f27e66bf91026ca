import Mathlib.Algebra.Order.Field.Power
import Mathlib.Algebra.Order.Field.Rat
import Mathlib.Tactic.NormNum
import Mathlib.Tactic.Positivity
import Mathlib.Tactic.Ring
import QueryStage.Number.Binary64

/-!
# Exact values of doubles

The value of a finite double is a rational number that its bits give exactly. A double that is whole
is read as the integer of the same value. The double made of an integer has the value of that
integer if the integer has no more significant bits than a significand holds, and otherwise no
double has that value.
-/

namespace QueryStage

namespace Binary64

/-- The exact value of a finite double without its sign. -/
def magnitude (x : Binary64) : ℚ := x.significand * 2 ^ x.power

def value (x : Binary64) : ℚ := if x.negative then -x.magnitude else x.magnitude

def value? (x : Binary64) : Option ℚ := if x.isFinite then some x.value else none

theorem value?_eq_some_iff {x : Binary64} {q : ℚ} :
    x.value? = some q ↔ x.isFinite = true ∧ x.value = q := by
  unfold value?
  split <;> simp_all

theorem significand_lt (x : Binary64) : x.significand < 2 ^ 53 := by
  have hfraction : x.fraction < 2 ^ 52 := Nat.mod_lt _ (by decide)
  have hpow : Nat.pow 2 52 = 2 ^ 52 := rfl
  unfold significand
  split <;> omega

theorem value_eq_signed {x : Binary64} {m : Nat} (h : x.magnitude = m) :
    x.value = (x.signed m : Int) := by
  rw [value, h, signed]
  split <;> simp

theorem magnitude_of_value {x : Binary64} {n : Int} (h : x.value = n) :
    x.magnitude = n.natAbs := by
  have hnonneg : 0 ≤ x.magnitude := by
    unfold magnitude
    positivity
  have habs : |x.value| = x.magnitude := by
    unfold value
    split
    · rw [abs_neg, abs_of_nonneg hnonneg]
    · exact abs_of_nonneg hnonneg
  rw [← habs, h, Nat.cast_natAbs, Int.cast_abs]

theorem magnitude_of_nonneg {x : Binary64} (h : 0 ≤ x.power) :
    x.magnitude = (x.significand * 2 ^ x.power.toNat : ℕ) := by
  obtain ⟨k, hk⟩ := Int.eq_ofNat_of_zero_le h
  simp [magnitude, hk]

theorem magnitude_eq_iff {x : Binary64} (h : ¬ 0 ≤ x.power) {m : Nat} :
    x.magnitude = m ↔ x.significand = m * 2 ^ (-x.power).toNat := by
  obtain ⟨k, hk⟩ := Int.eq_ofNat_of_zero_le (a := -x.power) (by omega)
  have hpower : x.power = -(k : ℤ) := by omega
  rw [hk, Int.toNat_natCast, magnitude, hpower, zpow_neg, zpow_natCast, ← div_eq_mul_inv,
    div_eq_iff (by positivity), ← Nat.cast_inj (R := ℚ)]
  push_cast
  rfl

theorem value_of_toInt? {x : Binary64} {n : Int} (h : x.toInt? = some n) : x.value = n := by
  unfold toInt? at h
  split at h
  · cases h
  · split at h
    · rename_i hpower
      cases h
      exact value_eq_signed (magnitude_of_nonneg hpower)
    · rename_i hpower
      dsimp only at h
      split at h
      · rename_i hmod
        cases h
        apply value_eq_signed
        rw [magnitude_eq_iff hpower]
        exact (Nat.div_mul_cancel (Nat.dvd_of_mod_eq_zero hmod)).symm
      · cases h

theorem toInt?_of_value {x : Binary64} (hx : x.isFinite = true) {n : Int} (h : x.value = n) :
    x.toInt? = some n := by
  have hsome : x.toInt?.isSome = true := by
    unfold toInt?
    simp only [hx, Bool.not_true, Bool.false_eq_true, if_false]
    split
    · rfl
    · rename_i hpower
      have hsignificand := (magnitude_eq_iff hpower).mp (magnitude_of_value h)
      rw [if_pos]
      · rfl
      · exact hsignificand ▸ Nat.mul_mod_left _ _
  obtain ⟨m, hm⟩ := Option.isSome_iff_exists.mp hsome
  have hvalue := value_of_toInt? hm
  rw [h, Int.cast_inj] at hvalue
  rw [hm, hvalue]

/-- Whether a natural number has no more significant bits than a significand holds. -/
def fits (m : Nat) : Bool := m % 2 ^ (m.log2 - 52) = 0

/-- No double has the magnitude of an integer with too many significant bits. -/
theorem fits_of_magnitude {x : Binary64} {m : Nat} (h : x.magnitude = m) : fits m = true := by
  have hlt := x.significand_lt
  rw [fits, decide_eq_true_eq]
  by_cases hm : m = 0
  · simp [hm]
  by_cases hpower : 0 ≤ x.power
  · rw [magnitude_of_nonneg hpower, Nat.cast_inj] at h
    have hlog : m.log2 < 53 + x.power.toNat := by
      rw [Nat.log2_lt hm, ← h, pow_add]
      exact Nat.mul_lt_mul_of_pos_right hlt (by positivity)
    have hdvd : 2 ^ (m.log2 - 52) ∣ 2 ^ x.power.toNat := pow_dvd_pow 2 (by omega)
    apply Nat.mod_eq_zero_of_dvd
    exact hdvd.trans ⟨x.significand, by rw [← h, mul_comm]⟩
  · rw [magnitude_eq_iff hpower] at h
    have hle : m ≤ x.significand := h ▸ Nat.le_mul_of_pos_right m (by positivity)
    have hlog : m.log2 < 53 := (Nat.log2_lt hm).mpr (by omega)
    have hzero : m.log2 - 52 = 0 := by omega
    rw [hzero, pow_zero, Nat.mod_one]

theorem roundDiv_of_mod_eq_zero {n d : Nat} (hd : 0 < d) (h : n % d = 0) :
    roundDiv n d = n / d := by
  have hne : ¬ d = 0 := by omega
  simp [roundDiv, h, hne]

theorem magnitudeBits_of_fits {m : Nat} (htop : m.log2 ≤ 1023) (h : fits m = true) :
    ∃ s, magnitudeBits m = (m.log2 + 1022) * 2 ^ 52 + s ∧ s * 2 ^ m.log2 = m * 2 ^ 52 := by
  rw [fits, decide_eq_true_eq] at h
  unfold magnitudeBits
  dsimp only
  rw [if_neg (by omega)]
  refine ⟨_, rfl, ?_⟩
  split
  · rename_i hlow
    rw [Nat.pow_eq, mul_assoc, ← pow_add, Nat.sub_add_cancel hlow]
  · have hsplit : m.log2 = (m.log2 - 52) + 52 := by omega
    rw [Nat.pow_eq, roundDiv_of_mod_eq_zero (by positivity) h]
    conv_lhs => rw [hsplit, pow_add]
    rw [← mul_assoc, Nat.add_sub_cancel, Nat.div_mul_cancel (Nat.dvd_of_mod_eq_zero h)]

theorem fields_ofNat {e f : Nat} (negative : Bool) (he : e < 2048) (hf : f < 2 ^ 52) :
    let x : Binary64 := ⟨UInt64.ofNat ((if negative then Nat.pow 2 63 else 0) + (e * 2 ^ 52 + f))⟩
    x.negative = negative ∧ x.exponentField = e ∧ x.fraction = f := by
  have hbits : (UInt64.ofNat ((if negative then Nat.pow 2 63 else 0) + (e * 2 ^ 52 + f))).toNat =
      (if negative then Nat.pow 2 63 else 0) + (e * 2 ^ 52 + f) := by
    rw [UInt64.toNat_ofNat']
    apply Nat.mod_eq_of_lt
    cases negative <;> simp <;> omega
  simp only [Binary64.negative, exponentField, fraction, hbits]
  cases negative <;> simp <;> omega

theorem magnitude_of_fields {x : Binary64} {top s : Nat} (hexponent : x.exponentField = top + 1023)
    (hlow : 2 ^ 52 ≤ s) (hfraction : x.fraction = s - 2 ^ 52) :
    x.magnitude = s * 2 ^ top / 2 ^ 52 := by
  have hsignificand : x.significand = s := by
    rw [significand, hexponent, if_neg (by omega), hfraction, Nat.pow_eq]
    omega
  have hpower : x.power = (top : ℤ) - (52 : ℕ) := by
    rw [power, hexponent, if_neg (by omega)]
    omega
  rw [magnitude, hsignificand, hpower, zpow_sub₀ (by simp), zpow_natCast, zpow_natCast,
    mul_div_assoc]

theorem significand_bounds {m s : Nat} (hm : m ≠ 0) (hs : s * 2 ^ m.log2 = m * 2 ^ 52) :
    2 ^ 52 ≤ s ∧ s < 2 ^ 53 := by
  constructor
  · apply Nat.le_of_mul_le_mul_right (c := 2 ^ m.log2) _ (by positivity)
    rw [hs, mul_comm]
    exact Nat.mul_le_mul_right _ (Nat.log2_self_le hm)
  · apply Nat.lt_of_mul_lt_mul_right (a := 2 ^ m.log2)
    have hpow : 2 ^ 53 * 2 ^ m.log2 = 2 ^ (m.log2 + 1) * 2 ^ 52 := by ring
    rw [hs, hpow]
    exact Nat.mul_lt_mul_of_pos_right Nat.lt_log2_self (by positivity)

/-- The double of an integer that fits is finite and has the value of the integer. -/
theorem value?_ofInt {n : Int} (htop : n.natAbs.log2 ≤ 1022) (h : fits n.natAbs = true) :
    (ofInt n).value? = some (n : ℚ) := by
  rw [value?_eq_some_iff]
  by_cases hn : n = 0
  · subst hn
    have hsignificand : (ofInt 0).significand = 0 := rfl
    exact ⟨rfl, by simp [value, magnitude, hsignificand]⟩
  · generalize hm : n.natAbs = m at htop h
    have hm0 : m ≠ 0 := by omega
    obtain ⟨s, hbits, hs⟩ := magnitudeBits_of_fits (by omega) h
    obtain ⟨hlow, hhigh⟩ := significand_bounds hm0 hs
    have hx : ofInt n = ⟨UInt64.ofNat ((if decide (n < 0) then Nat.pow 2 63 else 0) +
        ((m.log2 + 1023) * 2 ^ 52 + (s - 2 ^ 52)))⟩ := by
      have hcarry : (m.log2 + 1022) * 2 ^ 52 + s = (m.log2 + 1023) * 2 ^ 52 + (s - 2 ^ 52) := by
        omega
      rw [ofInt, if_neg hn, hm, hbits, hcarry]
      simp only [decide_eq_true_eq]
    obtain ⟨hsign, hexponent, hfraction⟩ :=
      fields_ofNat (decide (n < 0)) (e := m.log2 + 1023) (f := s - 2 ^ 52) (by omega) (by omega)
    rw [← hx] at hsign hexponent hfraction
    have hmagnitude : (ofInt n).magnitude = m := by
      rw [magnitude_of_fields hexponent hlow hfraction, div_eq_iff (by positivity)]
      exact_mod_cast hs
    constructor
    · rw [isFinite, hexponent, decide_eq_true_eq]
      omega
    · rw [value_eq_signed hmagnitude, signed, hsign, ← hm]
      congr 1
      simp only [decide_eq_true_eq]
      split <;> omega

/-- The integers that are values of doubles are those that fit, as far as doubles reach. -/
theorem exists_value?_iff {n : Int} (htop : n.natAbs.log2 ≤ 1022) :
    (∃ x : Binary64, x.value? = some (n : ℚ)) ↔ fits n.natAbs = true := by
  constructor
  · rintro ⟨x, hx⟩
    exact fits_of_magnitude (magnitude_of_value (value?_eq_some_iff.mp hx).2)
  · exact fun h => ⟨_, value?_ofInt htop h⟩

theorem roundDiv_le (n d : Nat) : roundDiv n d ≤ n / d + 1 := by
  simp only [roundDiv]
  split <;> omega

theorem magnitudeBits_le {m : Nat} (h : m.log2 ≤ 1022) : magnitudeBits m ≤ 2046 * 2 ^ 52 := by
  have hm : m < 2 ^ (m.log2 + 1) := Nat.lt_log2_self
  have hsignificand : (if m.log2 ≤ 52 then m * Nat.pow 2 (52 - m.log2)
      else roundDiv m (Nat.pow 2 (m.log2 - 52))) ≤ 2 ^ 53 := by
    split
    · calc m * Nat.pow 2 (52 - m.log2)
          ≤ 2 ^ (m.log2 + 1) * 2 ^ (52 - m.log2) := Nat.mul_le_mul_right _ hm.le
        _ = 2 ^ 53 := by rw [← pow_add]; congr 1; omega
    · have hquotient : m / 2 ^ (m.log2 - 52) < 2 ^ 53 := by
        apply Nat.div_lt_of_lt_mul
        rwa [← pow_add, show m.log2 - 52 + 53 = m.log2 + 1 by omega]
      exact (roundDiv_le _ _).trans hquotient
  simp only [magnitudeBits]
  rw [if_neg (by omega), Nat.pow_eq]
  omega

theorem isNaN_ofInt {n : Int} (h : n.natAbs.log2 ≤ 1022) : (ofInt n).isNaN = false := by
  have hbits := magnitudeBits_le h
  have hexponent : (ofInt n).exponentField ≠ 2047 := by
    unfold ofInt
    split
    · decide
    · simp only [exponentField, UInt64.toNat_ofNat', Nat.pow_eq]
      split <;> omega
  simp [isNaN, hexponent]

end Binary64
end QueryStage
