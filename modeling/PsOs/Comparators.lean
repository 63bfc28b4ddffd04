import Mathlib.Data.List.Basic
import Mathlib.Logic.Function.Basic

/-! Sorting by a comparison function in the manner of `qsort`. -/

namespace PsOs.Comparators

variable {α : Type}

abbrev Comparator (α : Type) := α → α → Int32

structure TotalPreorder (r : α → α → Prop) : Prop where
  trans : ∀ x y z, r x y → r y z → r x z
  total : ∀ x y, r x y ∨ r y x

structure Follows (cmp : Comparator α) (r : α → α → Prop) (l : List α) : Prop where
  neg : ∀ x ∈ l, ∀ y ∈ l, (cmp x y < 0 ↔ ¬ r y x)
  pos : ∀ x ∈ l, ∀ y ∈ l, (0 < cmp x y ↔ ¬ r x y)

def Consistent (cmp : Comparator α) (l : List α) : Prop := ∃ r, TotalPreorder r ∧ Follows cmp r l

def SortedBy (cmp : Comparator α) (l : List α) : Prop := l.Pairwise fun x y => cmp x y ≤ 0

/-- What a sorting function may make of `l`: nothing is known for an inconsistent comparator. -/
def Allowed (cmp : Comparator α) (l result : List α) : Prop :=
  Consistent cmp l → result.Perm l ∧ SortedBy cmp result

abbrev Qsort (α : Type) := Comparator α → List α → List α

def Conforms (qsort : Qsort α) : Prop := ∀ cmp l, Allowed cmp l (qsort cmp l)

section Preorder

variable {cmp : Comparator α} {r : α → α → Prop} {l : List α} {x y : α}

theorem Follows.le_iff (h : Follows cmp r l) (hx : x ∈ l) (hy : y ∈ l) : cmp x y ≤ 0 ↔ r x y := by
  rw [← Int32.not_lt, h.pos x hx y hy, not_not]

open Classical in
theorem mergeSort_spec (hr : TotalPreorder r) (h : Follows cmp r l) :
    (l.mergeSort fun x y => decide (r x y)).Perm l ∧
      SortedBy cmp (l.mergeSort fun x y => decide (r x y)) := by
  have hperm := List.mergeSort_perm l fun x y => decide (r x y)
  refine ⟨hperm, ?_⟩
  have hpairwise : (l.mergeSort fun x y => decide (r x y)).Pairwise fun x y => decide (r x y) :=
    List.pairwise_mergeSort (by simpa using hr.trans) (by simpa using hr.total) l
  refine hpairwise.imp_of_mem fun hx hy hxy => ?_
  exact (h.le_iff (hperm.mem_iff.mp hx) (hperm.mem_iff.mp hy)).mpr (of_decide_eq_true hxy)

theorem exists_allowed (cmp : Comparator α) (l : List α) : ∃ result, Allowed cmp l result := by
  by_cases h : Consistent cmp l
  · obtain ⟨r, hr, hfollows⟩ := h
    exact ⟨_, fun _ => mergeSort_spec hr hfollows⟩
  · exact ⟨l, fun hc => absurd hc h⟩

theorem exists_conforms {result : List α} (h : Allowed cmp l result) :
    ∃ qsort, Conforms qsort ∧ qsort cmp l = result := by
  classical
  choose base hbase using exists_allowed (α := α)
  refine ⟨fun cmp' l' => if cmp' = cmp ∧ l' = l then result else base cmp' l', ?_, by simp⟩
  intro cmp' l'
  by_cases heq : cmp' = cmp ∧ l' = l
  · simpa [heq] using h
  · simpa [heq] using hbase cmp' l'

theorem exists_allowed_pair (hx : x ∈ l) (hy : y ∈ l) (hxy : x ≠ y) (hcmp : cmp x y ≤ 0) :
    ∃ result, Allowed cmp l result ∧ (result.Perm l → [x, y].Sublist result) := by
  classical
  have hperm : l.Perm (x :: y :: (l.erase x).erase y) := by
    have hy' : y ∈ l.erase x := (List.mem_erase_of_ne (Ne.symm hxy)).mpr hy
    exact (List.perm_cons_erase hx).trans ((List.perm_cons_erase hy').cons x)
  by_cases h : Consistent cmp l
  · obtain ⟨r, hr, hfollows⟩ := h
    have hfollows' : Follows cmp r (x :: y :: (l.erase x).erase y) :=
      ⟨fun a ha b hb => hfollows.neg a (hperm.mem_iff.mpr ha) b (hperm.mem_iff.mpr hb),
        fun a ha b hb => hfollows.pos a (hperm.mem_iff.mpr ha) b (hperm.mem_iff.mpr hb)⟩
    obtain ⟨hsort, hsorted⟩ := mergeSort_spec hr hfollows'
    refine ⟨_, fun _ => ⟨hsort.trans hperm.symm, hsorted⟩, fun _ => ?_⟩
    apply List.pair_sublist_mergeSort (by simpa using hr.trans) (by simpa using hr.total)
    · exact decide_eq_true ((hfollows.le_iff hx hy).mp hcmp)
    · exact ((List.nil_sublist _).cons_cons y).cons_cons x
  · refine ⟨x :: y :: (l.erase x).erase y, fun hc => absurd hc h, fun _ => ?_⟩
    exact ((List.nil_sublist _).cons_cons y).cons_cons x

theorem eq_pair {result : List α} (hperm : result.Perm [x, y]) (hsorted : SortedBy cmp result)
    (hpos : 0 < cmp y x) : result = [x, y] := by
  match result, hperm.length_eq with
  | [u, v], _ =>
    have hu : u = x ∨ u = y := by simpa using hperm.mem_iff.mp List.mem_cons_self
    rcases hu with rfl | rfl
    · have hv := List.perm_singleton.mp ((List.perm_cons u).mp hperm)
      rw [hv]
    · have hv := List.perm_singleton.mp ((List.perm_cons u).mp (hperm.trans (.swap _ _ _)))
      cases hv
      exact absurd (List.pairwise_pair.mp hsorted) (Int32.not_le.mpr hpos)

end Preorder

end PsOs.Comparators
