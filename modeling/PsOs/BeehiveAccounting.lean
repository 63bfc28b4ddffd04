import PsOs.BeehiveAgreement
import PsOs.BeehiveFrontier

namespace PsOs.Beehive

open Threads TransitionSystems

variable {N : ℕ} {dim : FieldGeometry}

def harvestedCells (dim : FieldGeometry) (hasNectar : ℕ → Bool) : Finset ℕ :=
  (Finset.range dim.size).filter fun p => hasNectar p = false

def Bee.atCollect (b : Bee) : Bool :=
  match b.pc with
  | .collect _ => true
  | _ => false

abbrev collectors (f : Fin N → Bee) : ℕ := tally (fun b => b.atCollect = true) f

structure AccountInv (dim : FieldGeometry) (s : State N) : Prop where
  field : FieldInv dim s
  held : ∀ i, s.shared.fieldMutex = some i → (s.locals i).AtField
  clears : ∀ i pos, (s.locals i).pc = .clearNectar pos → s.shared.hasNectar pos = true
  once : s.shared.harvests.Nodup
  harvested : ∀ p, p ∈ s.shared.harvests ↔ p < dim.size ∧ s.shared.hasNectar p = false
  counted : s.shared.harvests.length = s.shared.collected + collectors s.locals

theorem AccountInv.init (hv : dim.Valid) : AccountInv dim (init dim N) := by
  refine ⟨.init hv, fun i h => ?_, fun i pos h => ?_, List.nodup_nil, fun p => ?_, ?_⟩
  · cases h
  · cases h
  · constructor
    · intro h
      cases h
    · rintro ⟨hp, hn⟩
      rw [hv.init_hasNectar hp] at hn
      cases hn
  · have hnone : collectors (Beehive.init dim N).locals = 0 :=
      tally_eq_zero_iff.mpr fun i => Bool.false_ne_true
    rw [hnone]
    rfl

section Moves

variable {s t : State N} {i : Fin N} {h' : Hive N} {b' : Bee}

theorem held_move (h : AccountInv dim s) (hm : Move dim i s.shared (s.locals i) h' b')
    {j : Fin N} (hj : h'.fieldMutex = some j) : (Function.update s.locals i b' j).AtField := by
  have hstay : (b'.AtField ∨ ¬ (s.locals i).AtField) → s.shared.fieldMutex = some j →
      (Function.update s.locals i b' j).AtField := by
    intro hb hmutex
    have hat := h.held j hmutex
    by_cases hji : j = i
    · subst hji
      rw [Function.update_self]
      exact hb.resolve_right fun hnot => hnot hat
    · rwa [Function.update_of_ne hji]
  cases hm with
  | lockField pos hpc hfree =>
    cases hj
    rw [Function.update_self]
    trivial
  | unlockField hpc => cases hj
  | examined pos k hpc hk | noNectar pos hpc hn | hasNectar pos hpc hn | clearNectar pos hpc
  | collect pos hpc | skip pos k hpc hk | report pos k hpc hk hn | push pos k hpc
  | pushed pos k hpc => exact hstay (.inl trivial) hj
  | _ =>
    apply hstay (.inr _) hj
    simp [Bee.AtField, *]

theorem clears_move (h : AccountInv dim s) (hm : Move dim i s.shared (s.locals i) h' b')
    {j : Fin N} {pos : ℕ} (hj : (Function.update s.locals i b' j).pc = .clearNectar pos) :
    h'.hasNectar pos = true := by
  by_cases hji : j = i
  · subst hji
    rw [Function.update_self] at hj
    cases hm with
    | hasNectar pos' hpc hn =>
      cases hj
      exact hn
    | leave stop gen hpc hgen =>
      rcases leave_pc j s.shared.serial (s.locals j) stop with hp | hp | hp <;> simp [hp] at hj
    | _ => cases hj
  · rw [Function.update_of_ne hji] at hj
    have hn := h.clears j pos hj
    cases hm with
    | clearNectar pos' hpc =>
      exact absurd (h.field.field.exclusive (by simp [Bee.AtField, hj]) (by simp [Bee.AtField, hpc]))
        hji
    | _ => exact hn

theorem harvests_move (h : AccountInv dim s) (hm : Move dim i s.shared (s.locals i) h' b') :
    h'.harvests.Nodup ∧ ∀ p, p ∈ h'.harvests ↔ p < dim.size ∧ h'.hasNectar p = false := by
  cases hm with
  | clearNectar pos hpc =>
    have hn := h.clears i pos hpc
    have hpos : pos < dim.size := by
      have hb := h.field.bees i
      simpa only [Bee.InField, hpc] using hb
    have hfresh : pos ∉ s.shared.harvests := by
      intro hmem
      rw [((h.harvested pos).mp hmem).2] at hn
      cases hn
    constructor
    · exact List.nodup_append.mpr ⟨h.once, List.nodup_singleton _, by grind⟩
    · intro p
      by_cases hp : p = pos
      · simp [hp, hpos]
      · simpa [hp] using h.harvested p
  | _ => exact ⟨h.once, h.harvested⟩

theorem counted_move (h : AccountInv dim s) (hm : Move dim i s.shared (s.locals i) h' b') :
    h'.harvests.length = h'.collected + collectors (Function.update s.locals i b') := by
  have hcount := h.counted
  cases hm with
  | clearNectar pos hpc =>
    have hgain : collectors (Function.update s.locals i ((s.locals i).goto (.collect pos))) =
        collectors s.locals + 1 := tally_update_gain (by simp [Bee.atCollect, hpc]) rfl
    rw [hgain, List.length_append, hcount]
    rfl
  | collect pos hpc =>
    have hloss : collectors (Function.update s.locals i ((s.locals i).goto (.examine pos 0))) + 1 =
        collectors s.locals := tally_update_loss (by simp [Bee.atCollect, hpc]) Bool.false_ne_true
    rw [hcount, ← hloss]
    change s.shared.collected + (_ + 1) = s.shared.collected + 1 + _
    omega
  | leave stop gen hpc hgen =>
    rw [collectors, tally_update_of_iff]
    · exact hcount
    · rcases leave_pc i s.shared.serial (s.locals i) stop with hp | hp | hp <;>
        simp [Bee.atCollect, hp, hpc]
  | _ =>
    rw [collectors, tally_update_of_iff]
    · exact hcount
    · simp [Bee.atCollect, Bee.goto, *]

theorem AccountInv.step {a : Action N} (hv : dim.Valid) (h : AccountInv dim s)
    (ht : step dim s a = some t) : AccountInv dim t := by
  have hfield := h.field.step hv ht
  obtain ⟨i, h', b', hm, rfl⟩ | ⟨-, main, flag, -, rfl⟩ := step_cases ht
  · exact ⟨hfield, fun j => held_move h hm, fun j pos => clears_move h hm, (harvests_move h hm).1,
      (harvests_move h hm).2, counted_move h hm⟩
  · exact ⟨hfield, h.held, h.clears, h.once, h.harvested, h.counted⟩

end Moves

namespace AccountInv

variable {s : State N}

theorem length_harvests (h : AccountInv dim s) :
    s.shared.harvests.length = (harvestedCells dim s.shared.hasNectar).card := by
  have hcells : s.shared.harvests.toFinset = harvestedCells dim s.shared.hasNectar := by
    ext p
    simp [harvestedCells, h.harvested]
  rw [← hcells, List.toFinset_card_of_nodup h.once]

theorem collected_eq (h : AccountInv dim s) (hfree : s.shared.fieldMutex = none) :
    s.shared.collected = (harvestedCells dim s.shared.hasNectar).card := by
  have hnone : collectors s.locals = 0 := by
    apply tally_eq_zero_iff.mpr
    intro i hi
    have hat : (s.locals i).AtField := by
      unfold Bee.atCollect at hi
      unfold Bee.AtField
      cases hpc : (s.locals i).pc <;> simp [hpc] at hi ⊢
    rw [h.field.field i hat] at hfree
    cases hfree
  rw [← h.length_harvests, h.counted, hnone]
  rfl

theorem free_of_left (h : AccountInv dim s) (hleft : ∀ i, (s.locals i).pc = .left) :
    s.shared.fieldMutex = none := by
  cases hmutex : s.shared.fieldMutex with
  | none => rfl
  | some i =>
    have hat := h.held i hmutex
    simp [Bee.AtField, hleft i] at hat

end AccountInv

theorem card_harvestedCells_le (hasNectar : ℕ → Bool) :
    (harvestedCells dim hasNectar).card ≤ dim.size :=
  (Finset.card_filter_le _ _).trans (Finset.card_range _).le

theorem all_harvested {hasNectar : ℕ → Bool}
    (h : dim.size ≤ (harvestedCells dim hasNectar).card) {p : ℕ} (hp : p < dim.size) :
    hasNectar p = false := by
  have hall : harvestedCells dim hasNectar = Finset.range dim.size := by
    apply Finset.eq_of_subset_of_card_le (Finset.filter_subset _ _)
    rwa [Finset.card_range]
  have hmem : p ∈ harvestedCells dim hasNectar := by rw [hall]; exact Finset.mem_range.mpr hp
  exact (Finset.mem_filter.mp hmem).2

end PsOs.Beehive
