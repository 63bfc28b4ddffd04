import PsOs.Threads

/-!
Cyclic barriers in the manner of `pthread_barrier_wait`: the last of `size` threads to arrive
starts a new generation, and a waiting thread may leave once its generation is over.
-/

namespace PsOs.Threads

structure Barrier where
  count : ℕ
  generation : ℕ
  deriving DecidableEq

def Barrier.init : Barrier := ⟨0, 0⟩

def Barrier.arrive (size : ℕ) (b : Barrier) : Barrier :=
  if b.count + 1 = size then ⟨0, b.generation + 1⟩ else ⟨b.count + 1, b.generation⟩

/-- How often a thread has arrived, and whether it has still to leave its last arrival. -/
structure Place where
  arrivals : ℕ
  waiting : Bool

variable {ι L : Type} [Fintype ι]

structure Synced (place : L → Place) (b : Barrier) (f : ι → L) : Prop where
  waiting : ∀ i, (place (f i)).waiting = true →
    (place (f i)).arrivals = b.generation ∨ (place (f i)).arrivals = b.generation + 1
  active : ∀ i, (place (f i)).waiting = false → (place (f i)).arrivals = b.generation
  count : b.count = tally (fun l => (place l).arrivals = b.generation + 1) f
  lt : b.count < Fintype.card ι

namespace Synced

variable {place : L → Place} {b : Barrier} {f : ι → L} {i : ι} {l : L}

theorem init [Nonempty ι] (h : ∀ i, place (f i) = ⟨0, false⟩) : Synced place .init f := by
  refine ⟨?_, ?_, ?_, Fintype.card_pos⟩
  · simp [h]
  · simp [h, Barrier.init]
  · simp [tally, h, Barrier.init]

theorem phase (h : Synced place b f) (i : ι) :
    (place (f i)).arrivals = b.generation ∨
      (place (f i)).waiting = true ∧ (place (f i)).arrivals = b.generation + 1 := by
  cases hw : (place (f i)).waiting with
  | true => exact (h.waiting i hw).imp_right fun harr => ⟨rfl, harr⟩
  | false => exact .inl (h.active i hw)

theorem arrivals_eq (h : Synced place b f) (i : ι) :
    (place (f i)).arrivals = b.generation ∨ (place (f i)).arrivals = b.generation + 1 :=
  (h.phase i).imp_right And.right

theorem exists_unblocked (h : Synced place b f) :
    ∃ i, (place (f i)).arrivals = b.generation := by
  have hlt := h.lt
  rw [h.count, tally_lt_iff] at hlt
  obtain ⟨i, hi⟩ := hlt
  exact ⟨i, (h.arrivals_eq i).resolve_right hi⟩

variable [DecidableEq ι]

theorem keep (h : Synced place b f) (harr : (place l).arrivals = (place (f i)).arrivals)
    (hactive : (place l).waiting = false → (place l).arrivals = b.generation) :
    Synced place b (Function.update f i l) := by
  refine ⟨fun j hj => ?_, fun j hj => ?_, ?_, h.lt⟩
  · by_cases hji : j = i
    · subst hji
      rw [Function.update_self, harr]
      exact h.arrivals_eq j
    · rw [Function.update_of_ne hji] at hj ⊢
      exact h.waiting j hj
  · by_cases hji : j = i
    · subst hji
      rw [Function.update_self] at hj ⊢
      exact hactive hj
    · rw [Function.update_of_ne hji] at hj ⊢
      exact h.active j hj
  · rw [tally_update_of_iff (by rw [harr])]
    exact h.count

theorem stay (h : Synced place b f) (hl : place l = place (f i)) :
    Synced place b (Function.update f i l) :=
  h.keep (by rw [hl]) fun hw => by rw [hl] at hw ⊢; exact h.active i hw

theorem leave (h : Synced place b f) (hgen : (place (f i)).arrivals ≤ b.generation)
    (hl : place l = ⟨(place (f i)).arrivals, false⟩) :
    Synced place b (Function.update f i l) := by
  apply h.keep (by rw [hl])
  intro _
  have := h.arrivals_eq i
  rw [hl]
  change (place (f i)).arrivals = _
  omega

theorem others_arrived (h : Synced place b f) (hi : (place (f i)).waiting = false)
    (hlast : b.count + 1 = Fintype.card ι) {j : ι} (hji : j ≠ i) :
    (place (f j)).arrivals = b.generation + 1 ∧ (place (f j)).waiting = true := by
  have harr : (place (f j)).arrivals = b.generation + 1 := by
    by_contra hj
    have hnot := h.active i hi
    have hsub : Finset.univ.filter (fun k => (place (f k)).arrivals = b.generation + 1) ⊆
        (Finset.univ.erase i).erase j := by
      intro k hk
      have hk' := (Finset.mem_filter.mp hk).2
      simp only [Finset.mem_erase, Finset.mem_univ, and_true]
      constructor
      · rintro rfl
        exact hj hk'
      · rintro rfl
        omega
    have hcard := Finset.card_le_card hsub
    have hmem : j ∈ Finset.univ.erase i := by simpa using hji
    have hpos := Finset.card_pos.mpr ⟨j, hmem⟩
    rw [Finset.card_erase_of_mem (Finset.mem_univ i), Finset.card_univ] at hpos
    rw [Finset.card_erase_of_mem hmem, Finset.card_erase_of_mem (Finset.mem_univ i),
      Finset.card_univ] at hcard
    have hcount := h.count
    change tally (fun l => (place l).arrivals = b.generation + 1) f ≤ _ at hcard
    omega
  refine ⟨harr, ?_⟩
  by_contra hw
  have := h.active j (by simpa using hw)
  omega

theorem arrive (h : Synced place b f) (hi : (place (f i)).waiting = false)
    (hl : place l = ⟨(place (f i)).arrivals + 1, true⟩) :
    Synced place (b.arrive (Fintype.card ι)) (Function.update f i l) := by
  have hgen := h.active i hi
  have hlarr : (place l).arrivals = b.generation + 1 := by rw [hl]; change _ + 1 = _; omega
  have hlwait : (place l).waiting = true := by rw [hl]
  have hlt := h.lt
  by_cases hlast : b.count + 1 = Fintype.card ι
  · -- all others wait already, so nobody is active in the generation that ends
    have hall : ∀ j, (place (Function.update f i l j)).arrivals = b.generation + 1 ∧
        (place (Function.update f i l j)).waiting = true := by
      intro j
      by_cases hji : j = i
      · subst hji
        rw [Function.update_self]
        exact ⟨hlarr, hlwait⟩
      · rw [Function.update_of_ne hji]
        exact h.others_arrived hi hlast hji
    rw [Barrier.arrive, if_pos hlast]
    refine ⟨fun j _ => .inl (hall j).1, fun j _ => (hall j).1, ?_, by change 0 < _; omega⟩
    refine (tally_eq_zero_iff.mpr fun j => ?_).symm
    rw [(hall j).1]
    simp
  · rw [Barrier.arrive, if_neg hlast]
    refine ⟨fun j hj => ?_, fun j hj => ?_, ?_, by change b.count + 1 < _; omega⟩
    · by_cases hji : j = i
      · subst hji
        rw [Function.update_self]
        exact .inr hlarr
      · rw [Function.update_of_ne hji] at hj ⊢
        exact h.waiting j hj
    · by_cases hji : j = i
      · subst hji
        rw [Function.update_self, hlwait] at hj
        cases hj
      · rw [Function.update_of_ne hji] at hj ⊢
        exact h.active j hj
    · have hgain := tally_update_gain (p := fun l => (place l).arrivals = b.generation + 1)
        (show ¬ (place (f i)).arrivals = b.generation + 1 by omega) hlarr
      rw [← h.count] at hgain
      exact hgain.symm

end Synced

end PsOs.Threads
