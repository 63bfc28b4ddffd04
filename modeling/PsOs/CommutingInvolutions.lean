import Mathlib.Data.List.Perm.Basic

/-! Words of involutions that commute: only the parities of the letters matter. -/

namespace PsOs.CommutingInvolutions

variable {ι α : Type}

structure Commuting (act : α → ι → α) : Prop where
  involutive : ∀ x i, act (act x i) i = x
  commute : ∀ x i j, act (act x i) j = act (act x j) i

variable {act : α → ι → α} {v w : List ι}

theorem Commuting.foldl_perm (h : Commuting act) (hperm : v.Perm w) (x : α) :
    v.foldl act x = w.foldl act x :=
  hperm.foldl_eq' (fun i _ j _ y => h.commute y i j) x

variable [DecidableEq ι]

theorem Commuting.foldl_even (h : Commuting act) (heven : ∀ i, w.count i % 2 = 0) (x : α) :
    w.foldl act x = x := by
  induction hlen : w.length using Nat.strongRecOn generalizing w with
  | ind k ih =>
    cases w with
    | nil => rfl
    | cons i w =>
      have hi := heven i
      rw [List.count_cons_self] at hi
      have hmem : i ∈ w := List.count_pos_iff.mp (by omega)
      have hperm : (i :: w).Perm (i :: i :: w.erase i) := (List.perm_cons_erase hmem).cons i
      have hcount : ∀ j, (w.erase i).count j % 2 = 0 := by
        intro j
        have hj := heven j
        rw [hperm.count_eq, List.count_cons, List.count_cons] at hj
        omega
      have hshort : (w.erase i).length < k := by
        have := hperm.length_eq
        simp only [List.length_cons] at this hlen
        omega
      rw [h.foldl_perm hperm, List.foldl_cons, List.foldl_cons, h.involutive]
      exact ih _ hshort hcount rfl

theorem Commuting.foldl_eq_of_parity (h : Commuting act)
    (hparity : ∀ i, v.count i % 2 = w.count i % 2) (x : α) : v.foldl act x = w.foldl act x := by
  have hdouble : ∀ i, (w ++ w).count i % 2 = 0 := by
    intro i
    rw [List.count_append]
    omega
  have hjoint : ∀ i, (w ++ v).count i % 2 = 0 := by
    intro i
    have := hparity i
    rw [List.count_append]
    omega
  calc v.foldl act x
      = v.foldl act ((w ++ w).foldl act x) := by rw [h.foldl_even hdouble]
    _ = (w ++ v).foldl act (w.foldl act x) := by simp only [List.foldl_append]
    _ = w.foldl act x := h.foldl_even hjoint _

end PsOs.CommutingInvolutions
