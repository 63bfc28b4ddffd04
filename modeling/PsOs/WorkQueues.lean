import Mathlib.Algebra.BigOperators.Group.Finset.Piecewise
import Mathlib.Data.Fintype.Basic
import Mathlib.Data.List.Basic

/-! Queues of work items that are closed by pills, one for each worker. -/

namespace PsOs.WorkQueues

variable {α : Type} {pill v : α} {queue : List α}

def PillsLast (pill : α) (queue : List α) : Prop :=
  queue.Pairwise fun v w => v = pill → w = pill

namespace PillsLast

theorem nil : PillsLast pill [] := List.Pairwise.nil

theorem tail (h : PillsLast pill (v :: queue)) : PillsLast pill queue := (List.pairwise_cons.mp h).2

theorem all_of_head (h : PillsLast pill (pill :: queue)) : ∀ w ∈ queue, w = pill :=
  fun w hw => (List.pairwise_cons.mp h).1 w hw rfl

theorem push_pill (h : PillsLast pill queue) : PillsLast pill (queue ++ [pill]) := by
  apply List.pairwise_append.mpr
  refine ⟨h, List.pairwise_singleton _ _, ?_⟩
  intro v _ w hw _
  exact List.mem_singleton.mp hw

theorem push_item (h : PillsLast pill queue) (hnone : pill ∉ queue) :
    PillsLast pill (queue ++ [v]) := by
  apply List.pairwise_append.mpr
  refine ⟨h, List.pairwise_singleton _ _, ?_⟩
  rintro w hw _ _ rfl
  exact absurd hw hnone

end PillsLast

section Feed

variable {items taken : List α} {k : ℕ}

theorem items_prefix (h : taken <+: items ++ List.replicate k pill) (hitems : pill ∉ items)
    (hpill : pill ∈ taken) : items <+: taken := by
  apply List.prefix_of_prefix_length_le (List.prefix_append items _) h
  by_contra hlt
  have hshort : taken <+: items :=
    List.prefix_of_prefix_length_le h (List.prefix_append items _) (not_le.mp hlt).le
  exact hitems (hshort.subset hpill)

theorem eq_of_all_pills [DecidableEq α] (h : taken <+: items ++ List.replicate k pill)
    (hitems : pill ∉ items) (hk : 0 < k) (hcount : taken.count pill = k) :
    taken = items ++ List.replicate k pill := by
  obtain ⟨rest, hrest⟩ := h
  have hnone : rest.count pill = 0 := by
    have htotal := congrArg (List.count pill) hrest
    rw [List.count_append, List.count_append, List.count_eq_zero_of_not_mem hitems,
      List.count_replicate_self, hcount] at htotal
    omega
  cases hlast : rest.getLast? with
  | none =>
    rw [List.getLast?_eq_none_iff.mp hlast, List.append_nil] at hrest
    exact hrest
  | some v =>
    have hend := congrArg List.getLast? hrest
    rw [List.getLast?_append, hlast, List.getLast?_append, List.getLast?_replicate,
      if_neg (by omega)] at hend
    simp only [Option.some_or, Option.some.injEq] at hend
    have hmem := List.mem_of_getLast? hlast
    rw [hend] at hmem
    exact absurd hmem (List.count_eq_zero.mp hnone)

end Feed

section Shares

variable {ι : Type} [DecidableEq ι] {i j : ι}

def share (i : ι) (log : List (ι × α)) : List α :=
  (log.filter fun entry => entry.1 = i).map Prod.snd

theorem share_append_self (log : List (ι × α)) (i : ι) (v : α) :
    share i (log ++ [(i, v)]) = share i log ++ [v] := by
  simp [share, List.filter_append]

theorem share_append_other (log : List (ι × α)) (h : j ≠ i) (v : α) :
    share j (log ++ [(i, v)]) = share j log := by
  simp [share, List.filter_append, Ne.symm h]

theorem share_sublist (log : List (ι × α)) (i : ι) : (share i log).Sublist (log.map Prod.snd) :=
  List.filter_sublist.map Prod.snd

variable [Fintype ι]

theorem sum_share {M : Type} [AddCommMonoid M] (f : α → M) (log : List (ι × α)) :
    ∑ i, ((share i log).map f).sum = ((log.map Prod.snd).map f).sum := by
  induction log with
  | nil => simp [share]
  | cons entry log ih =>
    have hcons : ∀ i, ((share i (entry :: log)).map f).sum =
        (if entry.1 = i then f entry.2 else 0) + ((share i log).map f).sum := by
      intro i
      by_cases hi : entry.1 = i <;> simp [share, hi]
    simp only [hcons, Finset.sum_add_distrib, ih, Finset.sum_ite_eq, Finset.mem_univ, if_true,
      List.map_cons, List.sum_cons]

theorem count_share [DecidableEq α] (v : α) (log : List (ι × α)) :
    ∑ i, (share i log).count v = (log.map Prod.snd).count v := by
  have hcount : ∀ l : List α, l.count v = (l.map fun w => if w = v then 1 else 0).sum := by
    intro l
    induction l with
    | nil => rfl
    | cons w l ih =>
      by_cases hw : w = v <;> simp [hw, ih, Nat.add_comm]
  simp only [hcount]
  exact sum_share _ log

end Shares

end PsOs.WorkQueues
