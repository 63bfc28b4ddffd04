import Mathlib.Data.Set.Finite.Lemmas

/-! Locks that every thread takes in ascending order. -/

namespace PsOs.OrderedLocks

variable {ι κ : Type} [LinearOrder κ] {owner : κ → Option ι} {wants : ι → Option κ}

/-- A thread that waits for a lock holds only locks below it. -/
def Ascending (owner : κ → Option ι) (wants : ι → Option κ) : Prop :=
  ∀ i k k', owner k = some i → wants i = some k' → k < k'

def Blocked (owner : κ → Option ι) (wants : ι → Option κ) (i : ι) : Prop :=
  ∃ k, wants i = some k ∧ owner k ≠ none

theorem Ascending.exists_unblocked [Finite ι] (h : Ascending owner wants) (i : ι) :
    ∃ j, ¬ Blocked owner wants j ∧ (j = i ∨ ∃ k, owner k = some j) := by
  by_cases hi : Blocked owner wants i
  · obtain ⟨k₀, hwaits⟩ := hi
    -- the holder of the greatest lock that somebody waits for
    obtain ⟨j, ⟨k, hk, hheld⟩, hmax⟩ := Set.exists_max_image {j | Blocked owner wants j}
      (fun j => (wants j).getD k₀) (Set.toFinite _) ⟨i, k₀, hwaits⟩
    obtain ⟨holder, hholder⟩ := Option.ne_none_iff_exists'.mp hheld
    refine ⟨holder, ?_, .inr ⟨k, hholder⟩⟩
    rintro ⟨k', hk', hheld'⟩
    have hle := hmax holder ⟨k', hk', hheld'⟩
    simp only [hk, hk', Option.getD_some] at hle
    exact absurd (h holder k k' hholder hk') (not_lt.mpr hle)
  · exact ⟨i, hi, .inl rfl⟩

end PsOs.OrderedLocks
