import Mathlib.Data.Nat.Dist
import Mathlib.Tactic.Ring

/-! Grids whose cells are numbered row by row, `width` to a row. -/

namespace PsOs.Grid

variable {width p q : ℕ}

def Adjacent (width p q : ℕ) : Prop :=
  p / width = q / width ∧ (p % width + 1 = q % width ∨ q % width + 1 = p % width) ∨
    p % width = q % width ∧ (p / width + 1 = q / width ∨ q / width + 1 = p / width)

instance (width p q : ℕ) : Decidable (Adjacent width p q) :=
  inferInstanceAs (Decidable (_ ∨ _))

/-- The number of steps to a neighbour of the same row or column that lead from one cell to the
other. -/
def distance (width p q : ℕ) : ℕ :=
  Nat.dist (p / width) (q / width) + Nat.dist (p % width) (q % width)

theorem adjacent_iff_distance : Adjacent width p q ↔ distance width p q = 1 := by
  unfold Adjacent distance Nat.dist
  omega

theorem Adjacent.symm (h : Adjacent width p q) : Adjacent width q p := by
  unfold Adjacent at *
  omega

theorem Adjacent.ne (h : Adjacent width p q) : p ≠ q := by
  rintro rfl
  unfold Adjacent at h
  omega

variable (hw : 0 < width)

include hw

theorem adjacent_sub_one (hp : 0 < p % width) : Adjacent width p (p - 1) := by
  have hsplit := Nat.mod_add_div p width
  have hlt := Nat.mod_lt p hw
  obtain ⟨hdiv, hmod⟩ : (p - 1) / width = p / width ∧ (p - 1) % width = p % width - 1 :=
    (Nat.div_mod_unique hw).mpr ⟨by omega, by omega⟩
  exact .inl ⟨hdiv.symm, .inr (by omega)⟩

theorem adjacent_sub_width (hp : width ≤ p) : Adjacent width p (p - width) :=
  .inr ⟨Nat.mod_eq_sub_mod hp, .inr (Nat.div_eq_sub_div hw hp).symm⟩

theorem adjacent_add_one (hp : p % width + 1 < width) : Adjacent width p (p + 1) := by
  have hsplit := Nat.mod_add_div p width
  obtain ⟨hdiv, hmod⟩ : (p + 1) / width = p / width ∧ (p + 1) % width = p % width + 1 :=
    (Nat.div_mod_unique hw).mpr ⟨by omega, hp⟩
  exact .inl ⟨hdiv.symm, .inl hmod.symm⟩

theorem adjacent_add_width : Adjacent width p (p + width) := by
  have h := adjacent_sub_width hw (Nat.le_add_left width p)
  rw [Nat.add_sub_cancel] at h
  exact h.symm

theorem adjacent_iff : Adjacent width p q ↔
    width ≤ p ∧ q = p - width ∨ q = p + width ∨ 0 < p % width ∧ q = p - 1 ∨
      p % width + 1 < width ∧ q = p + 1 := by
  constructor
  · have hp := Nat.mod_add_div p width
    have hq := Nat.mod_add_div q width
    have hlt := Nat.mod_lt q hw
    rintro (⟨hrow, hcol | hcol⟩ | ⟨hcol, hrow | hrow⟩)
    · rw [← hrow] at hq
      omega
    · rw [← hrow] at hq
      omega
    · rw [← hrow, Nat.mul_add] at hq
      omega
    · rw [← hrow, Nat.mul_add] at hp
      omega
  · rintro (⟨hp, rfl⟩ | rfl | ⟨hp, rfl⟩ | ⟨hp, rfl⟩)
    · exact adjacent_sub_width hw hp
    · exact adjacent_add_width hw
    · exact adjacent_sub_one hw hp
    · exact adjacent_add_one hw hp

theorem connected {size : ℕ} {S : ℕ → Prop}
    (hS : ∀ p q, p < size → q < size → Adjacent width p q → S p → S q)
    (hp : p < size) (h : S p) (hq : q < size) : S q := by
  -- from every cell to the left end of its row and from there up to cell 0
  have hzero : ∀ p, p < size → (S p ↔ S 0) := by
    intro p
    induction p using Nat.strong_induction_on with
    | _ p ih =>
      intro hp
      have hback : ∀ q, q < p → Adjacent width p q → (S p ↔ S 0) := by
        intro q hqp hadj
        have hq : q < size := by omega
        rw [← ih q hqp hq]
        exact ⟨hS p q hp hq hadj, hS q p hq hp hadj.symm⟩
      by_cases hcol : 0 < p % width
      · have : p ≠ 0 := by
          rintro rfl
          simp at hcol
        exact hback (p - 1) (by omega) (adjacent_sub_one hw hcol)
      · by_cases hrow : width ≤ p
        · exact hback (p - width) (by omega) (adjacent_sub_width hw hrow)
        · have : p = 0 := by
            rw [Nat.mod_eq_of_lt (by omega)] at hcol
            omega
          rw [this]
  rw [hzero q hq, ← hzero p hp]
  exact h

end PsOs.Grid
