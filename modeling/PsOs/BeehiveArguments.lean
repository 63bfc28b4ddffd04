import Mathlib.Algebra.Order.Ring.Abs
import PsOs.BeehiveField

/-! The numbers that `main` computes from the results of `atoi`. -/

namespace PsOs.Beehive

def cells (dim : FieldGeometry) : ℕ := dim.height * dim.width % 2 ^ 64

structure WithinLimits (dim : FieldGeometry) : Prop where
  threshold : dim.numberFlowers = cells dim
  queued : ∀ p < cells dim, asSize (asInt p) = p
  seed : seed dim < cells dim
  divisor : dim.width ≠ 0

theorem cells_globalField (width height : ℤ) :
    cells (globalField width height) = asSize (width * height) := by
  have hcast : ((cells (globalField width height) : ℕ) : ℤ) = width * height % 2 ^ 64 := by
    have hw : ((asSize width : ℕ) : ℤ) = width % 2 ^ 64 := Int.toNat_of_nonneg (by omega)
    have hh : ((asSize height : ℕ) : ℤ) = height % 2 ^ 64 := Int.toNat_of_nonneg (by omega)
    rw [cells, globalField, Int.natCast_mod, Int.natCast_mul, hw, hh, Nat.cast_pow, Nat.cast_ofNat,
      ← Int.mul_emod, Int.mul_comm]
  rw [asSize, ← hcast, Int.toNat_natCast]

theorem abs_product_le (width height : Int32) : |width.toInt * height.toInt| ≤ 2 ^ 62 := by
  have hw : |width.toInt| ≤ 2 ^ 31 := abs_le.mpr ⟨width.le_toInt, width.toInt_lt.le⟩
  have hh : |height.toInt| ≤ 2 ^ 31 := abs_le.mpr ⟨height.le_toInt, height.toInt_lt.le⟩
  rw [abs_mul]
  exact mul_le_mul hw hh (abs_nonneg _) (by norm_num)

section Limits

variable {width height : ℤ}

theorem withinLimits_of_product (hpos : 0 < width * height) (hlt : width * height < 2 ^ 31) :
    WithinLimits (globalField width height) := by
  obtain ⟨n, hn⟩ := Int.eq_ofNat_of_zero_le hpos.le
  have hcells : cells (globalField width height) = n := by
    rw [cells_globalField, hn, asSize_cast (by omega)]
  constructor
  · rw [hcells, globalField, hn, asInt_cast (by omega), asSize_cast (by omega)]
  · intro p hp
    rw [asInt_cast (by omega), asSize_cast (by omega)]
  · have hseed : seed (globalField width height) = cells (globalField width height) / 2 := rfl
    rw [hseed, hcells]
    omega
  · intro hzero
    rw [cells, hzero] at hcells
    omega

theorem product_of_withinLimits (habs : |width * height| ≤ 2 ^ 62)
    (h : WithinLimits (globalField width height)) :
    0 < width * height ∧ width * height < 2 ^ 31 := by
  obtain ⟨hlow, hhigh⟩ := abs_le.mp habs
  have hcells := cells_globalField width height
  have hseed := h.seed
  have hthreshold : asSize (asInt (width * height)) = asSize (width * height) :=
    h.threshold.trans hcells
  have hqueued := h.queued (2 ^ 31)
  rw [hcells] at hseed hqueued
  generalize width * height = product at *
  have hle : -2 ^ 31 ≤ asInt product := Int.le_bmod (by decide)
  have hlt : asInt product < 2 ^ 31 := Int.bmod_lt (by decide)
  have htop : asSize (asInt (2 ^ 31 : ℕ)) ≠ 2 ^ 31 := by decide
  unfold asSize at *
  constructor
  · by_contra hneg
    by_cases hzero : product = 0
    · rw [hzero] at hseed
      cases hseed
    · exact htop (hqueued (by omega))
  · by_contra hbig
    omega

end Limits

theorem withinLimits_iff (width height : Int32) :
    WithinLimits (globalField width.toInt height.toInt) ↔
      0 < width.toInt * height.toInt ∧ width.toInt * height.toInt < 2 ^ 31 := by
  constructor
  · exact product_of_withinLimits (abs_product_le width height)
  · rintro ⟨hpos, hlt⟩
    exact withinLimits_of_product hpos hlt

/-- The product of `65536` and `65536` is 0 as an `int`; a field of width 0 has no cell for the
seed. -/
theorem not_withinLimits :
    ¬ WithinLimits (globalField (65536 : Int32).toInt (65536 : Int32).toInt) ∧
      ¬ WithinLimits (globalField (0 : Int32).toInt (5 : Int32).toInt) := by
  constructor
  · intro h
    exact absurd h.threshold (by decide)
  · intro h
    exact absurd h.seed (by decide)

end PsOs.Beehive
