import Mathlib.Data.List.Rotate
import Mathlib.Data.Nat.ModEq

/-! Loops over the indices below a bound whose body may fail, and indices modulo the bound. -/

namespace PsOs.CountedLoops

variable {σ : Type} {body : σ → ℕ → Option σ} {n : ℕ} {s : σ}

/-- A loop whose body keeps the invariant from each index to the next does not fail. -/
theorem exists_foldlM_range (Inv : ℕ → σ → Prop) (h₀ : Inv 0 s)
    (hstep : ∀ i < n, ∀ t, Inv i t → ∃ u, body t i = some u ∧ Inv (i + 1) u) :
    ∃ t, (List.range n).foldlM body s = some t ∧ Inv n t := by
  induction n with
  | zero => exact ⟨s, rfl, h₀⟩
  | succ n ih =>
    obtain ⟨t, ht, hinv⟩ := ih fun i hi => hstep i (Nat.lt_succ_of_lt hi)
    obtain ⟨u, hu, hinv'⟩ := hstep n (Nat.lt_succ_self n) t hinv
    refine ⟨u, ?_, hinv'⟩
    rw [List.range_succ, List.foldlM_append, ht]
    simp [hu]

theorem map_add_mod_range (n k : ℕ) :
    (List.range n).map (fun i => (i + k) % n) = (List.range n).rotate k := by
  apply List.ext_getElem
  · simp
  · intro i hi hi'
    simp [List.getElem_rotate]

theorem map_add_mod_perm (n k : ℕ) :
    ((List.range n).map fun i => (i + k) % n).Perm (List.range n) := by
  rw [map_add_mod_range]
  exact List.rotate_perm _ _

theorem add_mod_ne {i j : ℕ} (hij : i < j) (hj : j < n) (k : ℕ) : (i + k) % n ≠ (j + k) % n := by
  intro h
  have hmod : i ≡ j [MOD n] := Nat.ModEq.add_right_cancel' k h
  exact hij.ne (hmod.eq_of_lt_of_lt (hij.trans hj) hj)

end PsOs.CountedLoops
