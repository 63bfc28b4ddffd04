import Mathlib.Algebra.Order.BigOperators.Group.Multiset
import Mathlib.Algebra.Order.Ring.Nat
import PsOs.TrackerRefinement

namespace PsOs.MemoryTracker

variable {n : ℕ}

structure Clean (acc : Account) : Prop where
  faultless : acc.faults = []
  freed : acc.live = ∅

/-- A free of address 0 is seen only if something else is wrong. -/
def Seen (acc : Account) : Prop :=
  .NULL_FREE ∈ acc.faults → (∃ e ∈ acc.faults, e ≠ .NULL_FREE) ∨ acc.live ≠ ∅

def SizesPositive (acc : Account) : Prop := ∀ e ∈ acc.live.entries, e.2 ≠ 0

def Call.Sized : Call → Prop
  | .allocate _ size _ => size ≠ 0
  | .free _ => True

section Account

variable {acc : Account}

theorem SizesPositive.step (h : SizesPositive acc) {c : Call} (hc : c.Sized) (hfresh : c.Fresh acc) :
    SizesPositive (acc.step n c) := by
  unfold Account.step
  split
  case h_1 => exact h
  case h_2 hfault =>
    cases c with
    | allocate address size line =>
      have ha : address ≠ 0 := by
        rintro rfl
        simp [Account.fault] at hfault
      intro e he
      rw [Account.apply, Finmap.entries_insert_of_notMem (hfresh ha), Multiset.mem_cons] at he
      rcases he with rfl | he
      · exact hc
      · exact h e he
    | free address =>
      have hmem : address ∈ acc.live := by
        by_contra hnot
        by_cases ha : address = 0 <;> simp [Account.fault, ha, hnot] at hfault
      obtain ⟨size, hsize⟩ := exists_lookup hmem
      intro e he
      apply h e
      rw [entries_erase hsize]
      exact Multiset.mem_cons_of_mem he

theorem sizesPositive_foldl {calls : List Call} (h : SizesPositive acc)
    (hfresh : AllFresh n acc calls) (hsized : ∀ c ∈ calls, c.Sized) :
    SizesPositive (calls.foldl (Account.step n) acc) := by
  induction calls generalizing acc with
  | nil => exact h
  | cons c calls ih =>
    apply ih (h.step (hsized c List.mem_cons_self) hfresh.1) hfresh.2
    intro c' hmem
    exact hsized c' (List.mem_cons_of_mem _ hmem)

theorem sizesPositive_account {calls : List Call} (hfresh : AllFresh n .init calls)
    (hsized : ∀ c ∈ calls, c.Sized) : SizesPositive (account n calls) :=
  sizesPositive_foldl (fun e he => absurd he (Multiset.notMem_zero e)) hfresh hsized

theorem liveSize_eq_zero_iff (h : SizesPositive acc) : liveSize acc.live = 0 ↔ acc.live = ∅ := by
  constructor
  · intro hzero
    apply Finmap.ext
    apply Multiset.eq_zero_of_forall_notMem
    intro e he
    have hle : e.2.toNat ≤ liveSize acc.live :=
      Multiset.single_le_sum (fun _ _ => Nat.zero_le _) _ (Multiset.mem_map_of_mem _ he)
    apply h e he
    apply UInt64.toNat_inj.mp
    rw [UInt64.toNat_zero]
    omega
  · intro hempty
    rw [hempty]
    rfl

end Account

theorem Represents.leaked_iff {t : Tracker n} {acc : Account} (h : Represents t acc)
    (hpos : SizesPositive acc) (htotal : acc.allocated < 2 ^ 64) :
    t.isMemoryLeaked = false ↔ acc.live = ∅ := by
  obtain ⟨freed, hsum, hfreed⟩ := h.freed
  have hallocated := h.allocated
  rw [← liveSize_eq_zero_iff hpos, Tracker.isMemoryLeaked, bne_eq_false_iff_eq, ← UInt64.toNat_inj]
  omega

theorem Represents.verdict_iff {t : Tracker n} {acc : Account} (h : Represents t acc)
    (hpos : SizesPositive acc) (htotal : acc.allocated < 2 ^ 64) :
    t.checkCleanMemoryHandling = true ↔
      (∀ e ∈ acc.faults, e = .NULL_FREE) ∧ acc.live = ∅ := by
  rw [Tracker.checkCleanMemoryHandling, Bool.and_eq_true, beq_iff_eq, h.error,
    Bool.not_eq_true', h.leaked_iff hpos htotal]

theorem clean_iff_seen (acc : Account) :
    ((∀ e ∈ acc.faults, e = .NULL_FREE) ∧ acc.live = ∅ ↔ Clean acc) ↔ Seen acc := by
  constructor
  · intro hiff hnull
    by_contra hother
    simp only [not_or, not_exists, not_and, not_not] at hother
    have hclean := hiff.mp hother
    rw [hclean.faultless] at hnull
    cases hnull
  · intro hseen
    constructor
    · rintro ⟨hall, hlive⟩
      refine ⟨List.eq_nil_iff_forall_not_mem.mpr fun e he => ?_, hlive⟩
      rcases hseen (hall e he ▸ he) with ⟨e', he', hne⟩ | hne
      · exact hne (hall e' he')
      · exact hne hlive
    · rintro ⟨hfaults, hlive⟩
      rw [hfaults]
      exact ⟨fun e he => (by cases he), hlive⟩

theorem verdict_right_iff {calls : List Call} (hfresh : AllFresh n .init calls)
    (hsized : ∀ c ∈ calls, c.Sized) (htotal : (account n calls).allocated < 2 ^ 64) :
    ((tracked n calls).checkCleanMemoryHandling = true ↔ Clean (account n calls)) ↔
      Seen (account n calls) := by
  rw [(represents_account hfresh).verdict_iff (sizesPositive_account hfresh hsized) htotal]
  exact clean_iff_seen _

theorem verdict_right_twoCalls :
    ((tracked 100 [.allocate 16 8 1, .free 16]).checkCleanMemoryHandling = true ↔
      Clean (account 100 [.allocate 16 8 1, .free 16])) ↔
        Seen (account 100 [.allocate 16 8 1, .free 16]) := by
  apply verdict_right_iff
  · exact ⟨fun _ => Finmap.notMem_empty, trivial, trivial⟩
  · simp [Call.Sized]
  · decide

theorem null_free_unseen :
    (tracked 100 [.free 0]).checkCleanMemoryHandling = true ∧
      (account 100 [.free 0]).faults = [.NULL_FREE] ∧ ¬ Clean (account 100 [.free 0]) := by
  refine ⟨by decide, rfl, fun h => ?_⟩
  cases h.faultless

end PsOs.MemoryTracker
