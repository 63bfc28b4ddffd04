import PsOs.BeehiveMoves
import PsOs.Grid

namespace PsOs.Beehive

open Grid

variable {dim : FieldGeometry} {pos q : ℕ}

theorem asInt_cast {n : ℕ} (h : n < 2 ^ 31) : asInt n = n :=
  Int.bmod_eq_of_le (by omega) (by omega)

theorem asSize_cast {n : ℕ} (h : n < 2 ^ 64) : asSize n = n := by
  unfold asSize
  omega

def FieldGeometry.size (dim : FieldGeometry) : ℕ := dim.width * dim.height

structure FieldGeometry.Valid (dim : FieldGeometry) : Prop where
  width_pos : 0 < dim.width
  size_pos : 0 < dim.size
  size_lt : dim.size < 2 ^ 31

theorem globalField_eq {width height : ℕ} (hw : 1 ≤ width) (hh : 1 ≤ height)
    (hsize : width * height < 2 ^ 31) :
    globalField width height = ⟨width, height, width * height⟩ := by
  have hwidth : width ≤ width * height := Nat.le_mul_of_pos_right width hh
  have hheight : height ≤ width * height := Nat.le_mul_of_pos_left height hw
  rw [globalField, ← Nat.cast_mul, asInt_cast hsize, asSize_cast (by omega),
    asSize_cast (by omega), asSize_cast (by omega)]

theorem globalField_valid {width height : ℕ} (hw : 1 ≤ width) (hh : 1 ≤ height)
    (hsize : width * height < 2 ^ 31) : (globalField width height).Valid := by
  rw [globalField_eq hw hh hsize]
  exact ⟨hw, Nat.mul_pos hw hh, hsize⟩

theorem FieldGeometry.Valid.product (hv : dim.Valid) :
    dim.height * dim.width % 2 ^ 64 = dim.size := by
  have := hv.size_lt
  rw [Nat.mul_comm]
  exact Nat.mod_eq_of_lt (by change dim.size < _; omega)

theorem FieldGeometry.Valid.seed_lt (hv : dim.Valid) : seed dim < dim.size := by
  have := hv.size_pos
  rw [seed, hv.product]
  omega

theorem FieldGeometry.Valid.init_hasNectar {N : ℕ} (hv : dim.Valid) (hq : q < dim.size) :
    (init dim N).shared.hasNectar q = true := by
  simp only [init, hv.product]
  exact decide_eq_true hq

theorem add_one_lt_size (hpos : pos < dim.size) (hcol : pos % dim.width + 1 < dim.width) :
    pos + 1 < dim.size := by
  have hrow : pos / dim.width < dim.height :=
    Nat.div_lt_of_lt_mul (by simpa [FieldGeometry.size] using hpos)
  have hle : dim.width * (pos / dim.width + 1) ≤ dim.size := Nat.mul_le_mul_left _ hrow
  have hsplit := Nat.mod_add_div pos dim.width
  rw [Nat.mul_add] at hle
  omega

section Positions

variable (hw : 0 < dim.width) (hsize : dim.size ≤ 2 ^ 63) (hpos : pos < dim.size)

include hw hsize hpos

/-- No computation of `calculate_positions` wraps around on a field of at most `2 ^ 63` cells. -/
theorem calculatePositions_eq : calculatePositions pos dim =
    ![if dim.width ≤ pos then pos - dim.width else errorValue,
      if pos + dim.width < dim.size then pos + dim.width else errorValue,
      if 0 < pos % dim.width then pos - 1 else errorValue,
      if pos % dim.width + 1 < dim.width then pos + 1 else errorValue] := by
  have hheight : 0 < dim.height := by
    by_contra hzero
    simp [FieldGeometry.size, Nat.eq_zero_of_not_pos hzero] at hpos
  have hwidth : dim.width ≤ dim.size := Nat.le_mul_of_pos_right _ hheight
  have h₁ : dim.width * dim.height % 2 ^ 64 = dim.size :=
    Nat.mod_eq_of_lt (by change dim.size < _; omega)
  have h₂ : (pos + dim.width) % 2 ^ 64 = pos + dim.width := Nat.mod_eq_of_lt (by omega)
  have h₃ : (pos + 1) % 2 ^ 64 = pos + 1 := Nat.mod_eq_of_lt (by omega)
  have h₄ : pos % dim.width < (dim.width + (2 ^ 64 - 1)) % 2 ^ 64 ↔
      pos % dim.width + 1 < dim.width := by omega
  simp only [calculatePositions, h₁, h₂, h₃, h₄]

theorem calculatePositions_iff :
    (∃ k, calculatePositions pos dim k = q ∧ q ≠ errorValue) ↔
      q < dim.size ∧ Adjacent dim.width pos q := by
  have hright := add_one_lt_size hpos
  rw [calculatePositions_eq hw hsize hpos, adjacent_iff hw]
  simp only [Fin.exists_fin_succ, Fin.exists_fin_zero, or_false, Matrix.cons_val_zero,
    Matrix.cons_val_succ]
  unfold errorValue
  constructor
  · rintro (⟨hq, hne⟩ | ⟨hq, hne⟩ | ⟨hq, hne⟩ | ⟨hq, hne⟩) <;> split at hq <;> omega
  · rintro ⟨hlt, ⟨hle, rfl⟩ | rfl | ⟨hcol, rfl⟩ | ⟨hcol, rfl⟩⟩
    · exact .inl ⟨if_pos hle, by omega⟩
    · exact .inr (.inl ⟨if_pos hlt, by omega⟩)
    · exact .inr (.inr (.inl ⟨if_pos hcol, by omega⟩))
    · exact .inr (.inr (.inr ⟨if_pos hcol, by omega⟩))

end Positions

namespace FieldGeometry.Valid

variable (hv : dim.Valid) (hpos : pos < dim.size)

include hv hpos

theorem adjacent_entry {k : Fin 4} (hk : calculatePositions pos dim k ≠ errorValue) :
    calculatePositions pos dim k < dim.size ∧
      Adjacent dim.width pos (calculatePositions pos dim k) := by
  have := hv.size_lt
  exact (calculatePositions_iff hv.width_pos (by omega) hpos).mp ⟨k, rfl, hk⟩

theorem exists_entry (hq : q < dim.size) (hadj : Adjacent dim.width pos q) :
    ∃ k, calculatePositions pos dim k = q := by
  have := hv.size_lt
  obtain ⟨k, hk, -⟩ :=
    (calculatePositions_iff hv.width_pos (by omega) hpos).mpr ⟨hq, hadj⟩
  exact ⟨k, hk⟩

omit hpos in
theorem ne_errorValue (hq : q < dim.size) : q ≠ errorValue := by
  have := hv.size_lt
  unfold errorValue
  omega

end FieldGeometry.Valid

end PsOs.Beehive
