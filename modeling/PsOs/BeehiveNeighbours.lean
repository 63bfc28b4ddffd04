import Mathlib.Tactic.FinCases
import PsOs.BeehiveField

/-! `calculate_positions` on every field whose cells can be numbered. -/

namespace PsOs.Beehive

open Grid

variable {dim : FieldGeometry} {pos q : ℕ}

def Reports (dim : FieldGeometry) (p q : ℕ) : Prop :=
  ∃ k, calculatePositions p dim k = q ∧ q ≠ errorValue

structure ExactNeighbours (dim : FieldGeometry) (pos : ℕ) : Prop where
  distinct : ∀ j k, calculatePositions pos dim j ≠ errorValue →
    calculatePositions pos dim j = calculatePositions pos dim k → j = k
  inField : ∀ k, calculatePositions pos dim k ≠ errorValue → calculatePositions pos dim k < dim.size
  neighbours : ∀ q, Reports dim pos q ↔ q < dim.size ∧ distance dim.width pos q = 1
  symmetric : ∀ q < dim.size, Reports dim pos q ↔ Reports dim q pos

section Positions

variable (hw : 0 < dim.width) (hsize : dim.size ≤ 2 ^ 63) (hpos : pos < dim.size)

include hw hsize hpos

theorem entry_cases {k : Fin 4} (hk : calculatePositions pos dim k = q) (hne : q ≠ errorValue) :
    k = 0 ∧ dim.width ≤ pos ∧ q = pos - dim.width ∨ k = 1 ∧ q = pos + dim.width ∨
      k = 2 ∧ 0 < pos % dim.width ∧ q = pos - 1 ∨
      k = 3 ∧ pos % dim.width + 1 < dim.width ∧ q = pos + 1 := by
  rw [calculatePositions_eq hw hsize hpos] at hk
  fin_cases k
  · left
    change (if dim.width ≤ pos then pos - dim.width else errorValue) = q at hk
    split at hk
    · exact ⟨rfl, ‹_›, hk.symm⟩
    · exact absurd hk.symm hne
  · right; left
    change (if pos + dim.width < dim.size then pos + dim.width else errorValue) = q at hk
    split at hk
    · exact ⟨rfl, hk.symm⟩
    · exact absurd hk.symm hne
  · right; right; left
    change (if 0 < pos % dim.width then pos - 1 else errorValue) = q at hk
    split at hk
    · exact ⟨rfl, ‹_›, hk.symm⟩
    · exact absurd hk.symm hne
  · right; right; right
    change (if pos % dim.width + 1 < dim.width then pos + 1 else errorValue) = q at hk
    split at hk
    · exact ⟨rfl, ‹_›, hk.symm⟩
    · exact absurd hk.symm hne

theorem entry_injective {j k : Fin 4} (hne : calculatePositions pos dim j ≠ errorValue)
    (hjk : calculatePositions pos dim j = calculatePositions pos dim k) : j = k := by
  have hj := entry_cases hw hsize hpos rfl hne
  have hk := entry_cases hw hsize hpos hjk.symm hne
  have hlt := Nat.mod_lt pos hw
  have hle := Nat.mod_le pos dim.width
  obtain ⟨rfl, hj⟩ | ⟨rfl, hj⟩ | ⟨rfl, hj⟩ | ⟨rfl, hj⟩ := hj <;>
    obtain ⟨rfl, hk⟩ | ⟨rfl, hk⟩ | ⟨rfl, hk⟩ | ⟨rfl, hk⟩ := hk <;> first | rfl | omega

theorem reports_iff :
    Reports dim pos q ↔ q < dim.size ∧ distance dim.width pos q = 1 := by
  rw [← adjacent_iff_distance]
  exact calculatePositions_iff hw hsize hpos

end Positions

theorem exactNeighbours (hw : 1 ≤ dim.width) (hsize : dim.width * dim.height ≤ 2 ^ 63)
    (hpos : pos < dim.width * dim.height) : ExactNeighbours dim pos := by
  constructor
  · exact fun j k => entry_injective hw hsize hpos
  · exact fun k hk => ((reports_iff hw hsize hpos).mp ⟨k, rfl, hk⟩).1
  · exact fun q => reports_iff hw hsize hpos
  · intro q hq
    rw [reports_iff hw hsize hpos, reports_iff hw hsize hq, ← adjacent_iff_distance,
      ← adjacent_iff_distance]
    exact ⟨fun h => ⟨hpos, h.2.symm⟩, fun h => ⟨hq, h.2.symm⟩⟩

theorem exactNeighbours_longestRow : ExactNeighbours ⟨2 ^ 63, 1, 2 ^ 63⟩ (2 ^ 63 - 1) :=
  exactNeighbours (by decide) (by decide) (by decide)

end PsOs.Beehive
