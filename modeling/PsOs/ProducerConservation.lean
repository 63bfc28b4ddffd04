import Mathlib.Algebra.Order.BigOperators.Group.List
import PsOs.ProducerPreservation

namespace PsOs.ProducerConsumer

open Threads TransitionSystems WorkQueues

variable {c n : ℕ} {task : Task} {s t : State c}

/-- Entry `k` of `taken` is the consumer that has taken the `k`-th element pushed. -/
structure Conserves (n : ℕ) (s : State c) : Prop where
  order : s.shared.taken.map Prod.snd <+: feed n c
  once : ∀ i, (s.locals i).sum + (s.locals i).pc.carried =
    ((share i s.shared.taken).map worth).sum
  onePill : ∀ i, (share i s.shared.taken).count INT_MAX =
    if (s.locals i).pc.tookPill = true then 1 else 0
  valuesFirst : INT_MAX ∈ s.shared.taken.map Prod.snd → values n <+: s.shared.taken.map Prod.snd
  small : ∀ i, |(s.locals i).sum| ≤ n
  asserted : ∀ i, (s.locals i).pc ≠ .aborted
  inside : s.shared.main ≠ .overrun
  pills : s.shared.pushed = feed n c → s.shared.queue.count INT_MAX =
    tally (fun consumer : Consumer => ¬ consumer.pc.tookPill = true) s.locals
  drained : (∀ i, (s.locals i).pc = .exited) →
    s.shared.queue = [] ∧ s.shared.taken.map Prod.snd = feed n c
  printed : ∀ sum, s.shared.main = .finished sum →
    (∀ i, (s.locals i).pc = .exited) ∧ sum = n % 2

theorem sum_values (n : ℕ) : ((values n).map worth).sum = n % 2 := by
  induction n with
  | zero => rfl
  | succ n ih =>
    have hsucc : values (n + 1) = values n ++ [(Element.value n).num] := by
      simp [values, List.range_succ]
    rw [hsucc, List.map_append, List.sum_append, ih, List.map_singleton, List.sum_singleton, worth,
      if_neg (num_ne_pill n), Element.num]
    split <;> push_cast <;> omega

theorem sum_feed (n c : ℕ) : ((feed n c).map worth).sum = n % 2 := by
  rw [feed, List.map_append, List.sum_append, sum_values, List.map_replicate]
  simp [worth]

theorem sum_abs_feed (n c : ℕ) : ((feed n c).map fun v => |worth v|).sum = n := by
  have hone : ∀ v ∈ values n, |worth v| = 1 := by
    intro v hv
    obtain ⟨i, -, rfl⟩ := List.mem_map.mp hv
    rw [worth, if_neg (num_ne_pill i), Element.num]
    split <;> rfl
  rw [feed, List.map_append, List.sum_append, List.map_congr_left hone, List.map_replicate]
  simp [worth, length_values]

theorem count_feed (n c : ℕ) : (feed n c).count INT_MAX = c := by
  rw [feed, List.count_append, List.count_eq_zero_of_not_mem pill_notMem_values,
    List.count_replicate_self, Nat.zero_add]

namespace Inv

theorem order (h : Inv n s) : s.shared.taken.map Prod.snd <+: feed n c := by
  have htaken : s.shared.taken.map Prod.snd <+: s.shared.pushed := ⟨s.shared.queue, h.fifo⟩
  rw [h.fed] at htaken
  exact htaken.trans (List.take_prefix _ _)

theorem small (h : Inv n s) (i : Fin c) : |(s.locals i).sum| ≤ n := by
  have hlist : (share i s.shared.taken).Sublist (feed n c) :=
    (share_sublist _ i).trans h.order.sublist
  have hle := (hlist.map fun v => |worth v|).sum_le_sum (by simp)
  have hbooks := (h.books i).small
  have hcarried := abs_nonneg (s.locals i).pc.carried
  rw [sum_abs_feed] at hle
  omega

theorem count_taken (h : Inv n s) : (s.shared.taken.map Prod.snd).count INT_MAX =
    tally (fun consumer : Consumer => consumer.pc.tookPill = true) s.locals := by
  rw [← count_share, tally, Finset.card_filter]
  apply Finset.sum_congr rfl
  intro i _
  exact (h.books i).pills

theorem pills (h : Inv n s) (hall : s.shared.pushed = feed n c) :
    s.shared.queue.count INT_MAX =
      tally (fun consumer : Consumer => ¬ consumer.pc.tookPill = true) s.locals := by
  have hsplit := tally_add_not (fun consumer : Consumer => consumer.pc.tookPill = true) s.locals
  have hcount := congrArg (List.count INT_MAX) (h.fifo.trans hall)
  rw [List.count_append, count_feed, h.count_taken] at hcount
  rw [Fintype.card_fin] at hsplit
  omega

theorem drained (h : Inv n s) (hc : 0 < c) (hexited : ∀ i, (s.locals i).pc = .exited) :
    s.shared.queue = [] ∧ s.shared.taken.map Prod.snd = feed n c := by
  have hcount : (s.shared.taken.map Prod.snd).count INT_MAX = c := by
    rw [h.count_taken, tally, Finset.filter_true_of_mem, Finset.card_univ, Fintype.card_fin]
    intro i _
    rw [hexited i]
    rfl
  have htaken := eq_of_all_pills h.order pill_notMem_values hc hcount
  have hlen := congrArg List.length h.fifo
  have hpushed := congrArg List.length h.fed
  have htake := (feed n c).length_take_le' (s.shared.main.count n c)
  have hall := congrArg List.length htaken
  rw [List.length_append] at hlen
  refine ⟨?_, htaken⟩
  apply List.eq_nil_of_length_eq_zero
  change _ = (feed n c).length at hall
  omega

theorem printed (h : Inv n s) (hc : 0 < c) {sum : ℤ} (hmain : s.shared.main = .finished sum) :
    (∀ i, (s.locals i).pc = .exited) ∧ sum = n % 2 := by
  have hjoined := h.joined
  simp only [Joined, hmain] at hjoined
  obtain ⟨hexited, hsum⟩ := hjoined
  refine ⟨hexited, ?_⟩
  have hshares : ∀ i, (s.locals i).sum = ((share i s.shared.taken).map worth).sum := by
    intro i
    rw [← (h.books i).sum, hexited i]
    exact (add_zero _).symm
  simp only [hshares] at hsum
  rw [hsum, sum_share, (h.drained hc hexited).2, sum_feed]
  apply Int.bmod_eq_of_le <;> omega

theorem conserves (h : Inv n s) (hc : 0 < c) (hinside : s.shared.main ≠ .overrun) :
    Conserves n s where
  order := h.order
  once i := (h.books i).sum
  onePill i := (h.books i).pills
  valuesFirst hpill := items_prefix h.order pill_notMem_values hpill
  small := h.small
  asserted := h.running
  inside := hinside
  pills := h.pills
  drained := h.drained hc
  printed _ hmain := h.printed hc hmain

end Inv

/-- What `n` and `c` are right for: every run of either program keeps every element, and all
their runs print the same sum. -/
def Conserving (n c : ℕ) : Prop :=
  (∀ (task : Task) (s : State c), Reachable (step task n) (init c) s → Conserves n s) ∧
    ∀ (task task' : Task) (s s' : State c) (sum sum' : ℤ), Reachable (step task n) (init c) s →
      Reachable (step task' n) (init c) s' → s.shared.main = .finished sum →
        s'.shared.main = .finished sum' → sum = sum'

theorem conserving_of_le (hc : 0 < c) (hcn : c ≤ n) : Conserving n c := by
  have hconserves : ∀ (task : Task) (s : State c), Reachable (step task n) (init c) s →
      Conserves n s := by
    intro task s hs
    have hinv := hs.invariant (Inv n) Inv.init fun _ _ _ hs ht => hs.step ht
    exact hinv.conserves hc (not_overrun hcn hs)
  refine ⟨hconserves, fun task task' s s' sum sum' hs hs' hsum hsum' => ?_⟩
  rw [((hconserves task s hs).printed sum hsum).2, ((hconserves task' s' hs').printed sum' hsum').2]

theorem conserving_iff (hc : 0 < c) : Conserving n c ↔ c ≤ n := by
  constructor
  · intro h
    by_contra hlt
    obtain ⟨s, hs, hmain⟩ := reachable_overrun .task2 (not_le.mp hlt)
    exact (h.1 .task2 s hs).inside hmain
  · exact conserving_of_le hc

def onlyConsumer (steps : ℕ) : List (Action 1) :=
  List.replicate steps (.consumer ⟨0, Nat.one_pos⟩ false)

def onlyMain (steps : ℕ) : List (Action 1) := List.replicate steps .main

def wakeOnce : List (Action 1) :=
  .main :: onlyConsumer 3 ++ onlyMain 4 ++ .signal Finset.univ :: onlyMain 3 ++ onlyConsumer 5 ++
    onlyMain 2 ++ .signal ∅ :: onlyMain 3 ++ onlyConsumer 6 ++ onlyMain 2

def pollOnce : List (Action 1) :=
  .main :: .consumer ⟨0, Nat.one_pos⟩ true :: onlyMain 5 ++ onlyConsumer 10 ++ onlyMain 6 ++
    onlyConsumer 6 ++ onlyMain 2

theorem conserves_oneEach : ∃ s s' : State 1, s.shared.main = .finished 1 ∧
    s'.shared.main = .finished 1 ∧ Conserves 1 s ∧ Conserves 1 s' := by
  obtain ⟨s, hs, hp⟩ := exists_reachable_of_run (step .task2 1) (init 1) pollOnce
    (fun s => decide (s.shared.main = .finished 1)) (by decide +kernel)
  obtain ⟨s', hs', hp'⟩ := exists_reachable_of_run (step .task3 1) (init 1) wakeOnce
    (fun s => decide (s.shared.main = .finished 1)) (by decide +kernel)
  have hconserving := (conserving_iff Nat.one_pos).mpr (Nat.le_refl 1)
  exact ⟨s, s', of_decide_eq_true hp, of_decide_eq_true hp', hconserving.1 .task2 s hs,
    hconserving.1 .task3 s' hs'⟩

/-- `./task2 5 1`: the handle of the second consumer is stored behind `tid`. -/
theorem not_conserving_fiveOne : (∃ s : State 5, Reachable (step .task2 1) (init 5) s ∧
    s.shared.main = .overrun) ∧ ¬ Conserving 1 5 := by
  obtain ⟨s, hs, hp⟩ := exists_reachable_of_run (step .task2 1) (init 5) [.main, .main]
    (fun s => decide (s.shared.main = .overrun)) (by decide +kernel)
  have hmain := of_decide_eq_true hp
  exact ⟨⟨s, hs, hmain⟩, fun h => (h.1 .task2 s hs).inside hmain⟩

end PsOs.ProducerConsumer
