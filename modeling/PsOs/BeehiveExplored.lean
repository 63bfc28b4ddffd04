import PsOs.BeehiveAgreement
import PsOs.BeehiveReports

/-! Until all flowers are empty, every iteration of the bees takes a position out of the queue. -/

namespace PsOs.Beehive

open Grid Threads TransitionSystems

variable {N : ℕ} {dim : FieldGeometry} {s t : State N} {flights : List ℤ}

def Explored (dim : FieldGeometry) (s : State N) : Prop := s.shared.collected = dim.size

/-- In an iteration that starts with generation `2 * r` of the barrier, the bee has not taken a
position yet and has not found the queue empty. -/
def Pc.early : Pc → Bool
  | .guard | .lockQueue | .isEmpty | .inIsEmpty | .pop | .inPop | .left | .await .second _ => true
  | _ => false

def Untouched (s : State N) : Prop := s.shared.queue ≠ [] ∧ ∀ i, (s.locals i).pc.early = true

def Paced (dim : FieldGeometry) (flights : List ℤ) (s : State N) : Prop :=
  s.shared.barrier.generation / 2 + 1 ≤ flights.length ∨ Explored dim s ∨
    s.shared.barrier.generation % 2 = 0 ∧ s.shared.barrier.generation / 2 ≤ flights.length ∧
      Untouched s

theorem AccountInv.collected_le (h : AccountInv dim s) : s.shared.collected ≤ dim.size := by
  have hcounted := h.counted
  have hle : (harvestedCells dim s.shared.hasNectar).card ≤ dim.size := card_harvestedCells_le _
  rw [h.length_harvests] at hcounted
  omega

theorem Explored.harvested (h : Explored dim s) (haccount : AccountInv dim s) {p : ℕ}
    (hp : p < dim.size) : s.shared.hasNectar p = false := by
  have hcounted := haccount.counted
  have hexplored : s.shared.collected = dim.size := h
  rw [haccount.length_harvests] at hcounted
  exact all_harvested (by omega) hp

section Moves

variable {i : Fin N} {h' : Hive N} {b' : Bee}

theorem collected_move (hm : Move dim i s.shared (s.locals i) h' b') :
    s.shared.collected ≤ h'.collected := by
  cases hm with
  | collect pos hpc => exact Nat.le_succ _
  | _ => exact Nat.le_refl _

theorem Explored.step {a : Action N} (h : Explored dim s) (haccount : AccountInv dim t)
    (ht : step dim s a = some t) : Explored dim t := by
  have hmono : s.shared.collected ≤ t.shared.collected := by
    obtain ⟨i, h', b', hm, rfl⟩ | ⟨-, main, flag, -, rfl⟩ := step_cases ht
    · exact collected_move hm
    · exact Nat.le_refl _
  have hexplored : s.shared.collected = dim.size := h
  exact haccount.collected_le.antisymm (hexplored ▸ hmono)

theorem Untouched.move (h : Untouched s) (hm : Move dim i s.shared (s.locals i) h' b') :
    (s.locals i).pc = .inPop ∨ Untouched ⟨h', Function.update s.locals i b'⟩ := by
  have hearly := h.2 i
  have hstay : ∀ b : Bee, b.pc.early = true → ∀ j, (Function.update s.locals i b j).pc.early = true :=
    fun b hb => (Function.forall_update_iff s.locals fun _ b => b.pc.early = true).mpr
      ⟨hb, fun j _ => h.2 j⟩
  cases hm with
  | popped value queue hpc hq => exact .inl hpc
  | enter hpc hflag | exit hpc hflag | lockQueue hpc hfree | isEmpty hpc | nonempty hpc hq
  | pop hpc => exact .inr ⟨h.1, hstay _ rfl⟩
  | empty hpc hq => exact absurd hq h.1
  | leave stop gen hpc hgen =>
    cases stop with
    | first =>
      rw [hpc] at hearly
      cases hearly
    | second => exact .inr ⟨h.1, hstay _ rfl⟩
  | _ => simp [Pc.early, *] at hearly

theorem generation_move (hm : Move dim i s.shared (s.locals i) h' b') :
    h'.barrier.generation = s.shared.barrier.generation ∨
      s.shared.barrier.count + 1 = N ∧ h'.barrier.generation = s.shared.barrier.generation + 1 ∧
        ∃ stop, (s.locals i).pc = .arrive stop ∧
          b' = (s.locals i).goto (.await stop s.shared.barrier.generation) := by
  cases hm with
  | arrive stop serial hpc =>
    by_cases hlast : s.shared.barrier.count + 1 = N
    · exact .inr ⟨hlast, by simp [Hive.arrive, Barrier.arrive, hlast], stop, hpc, rfl⟩
    · exact .inl (by simp [Hive.arrive, Barrier.arrive, hlast])
  | _ => exact .inl rfl

end Moves

theorem await_of_waiting {b : Bee} (hw : b.place.waiting = true) (heven : b.place.arrivals % 2 = 0) :
    ∃ gen, b.pc = .await .second gen := by
  unfold Bee.place at hw heven
  cases hpc : b.pc with
  | await stop gen =>
    cases stop with
    | first =>
      simp only [hpc, Pc.offset] at heven
      omega
    | second => exact ⟨gen, rfl⟩
  | _ =>
    rw [hpc] at hw
    cases hw

theorem explored_of_empty (hv : dim.Valid) (h : AccountInv dim s)
    (hall : ∀ i, ∃ gen, (s.locals i).pc = .await .second gen) (hq : s.shared.queue = []) :
    Explored dim s := by
  have hfree : s.shared.fieldMutex = none := by
    cases hmutex : s.shared.fieldMutex with
    | none => rfl
    | some i =>
      obtain ⟨gen, hpc⟩ := hall i
      have hat := h.held i hmutex
      simp [Bee.AtField, hpc] at hat
  have hcarries : ∀ i p, ¬ (s.locals i).Carries p := by
    intro i p hcar
    obtain ⟨gen, hpc⟩ := hall i
    simp [Bee.Carries, hpc] at hcar
  have hharvested := (h.field.noSourceLost hv).exhausted hq hcarries hfree
  have hcells : harvestedCells dim s.shared.hasNectar = Finset.range dim.size :=
    Finset.filter_true_of_mem fun p hp => hharvested p (Finset.mem_range.mp hp)
  rw [Explored, h.collected_eq hfree, hcells, Finset.card_range]

theorem Paced.generation {i : Fin N} {h' : Hive N} {stop : Stop} (hv : dim.Valid)
    (h : Paced dim flights s) (hbarrier : BarrierInv s) (hpc : (s.locals i).pc = .arrive stop)
    (hlast : s.shared.barrier.count + 1 = N)
    (hgen : h'.barrier.generation = s.shared.barrier.generation + 1)
    (haccount : AccountInv dim ⟨h', Function.update s.locals i
      ((s.locals i).goto (.await stop s.shared.barrier.generation))⟩)
    (hexplored : Explored dim s → h'.collected = dim.size) :
    Paced dim flights ⟨h', Function.update s.locals i
      ((s.locals i).goto (.await stop s.shared.barrier.generation))⟩ := by
  have hwaiting : (s.locals i).place.waiting = false := by simp [Bee.place, Pc.waiting, hpc]
  have harrivals := hbarrier.sync.active i hwaiting
  unfold Paced
  simp only [hgen]
  obtain hflight | hdone | ⟨-, -, huntouched⟩ := h
  · cases stop with
    | first =>
      simp only [Bee.place, hpc, Pc.offset] at harrivals
      exact .inl (by omega)
    | second =>
      simp only [Bee.place, hpc, Pc.offset] at harrivals
      have hall : ∀ j, ∃ gen, (Function.update s.locals i ((s.locals i).goto
          (.await .second s.shared.barrier.generation)) j).pc = .await .second gen := by
        intro j
        by_cases hji : j = i
        · subst hji
          rw [Function.update_self]
          exact ⟨_, rfl⟩
        · rw [Function.update_of_ne hji]
          obtain ⟨harr, hw⟩ := hbarrier.sync.others_arrived hwaiting (by rwa [Fintype.card_fin]) hji
          exact await_of_waiting hw (by omega)
      by_cases hq : h'.queue = []
      · exact .inr (.inl (explored_of_empty hv haccount hall hq))
      · refine .inr (.inr ⟨by omega, by omega, hq, fun j => ?_⟩)
        obtain ⟨gen, hgen⟩ := hall j
        simp only [hgen, Pc.early]
  · exact .inr (.inl (hexplored hdone))
  · have hearly := huntouched.2 i
    simp only [hpc, Pc.early] at hearly
    cases hearly

theorem Paced.step {a : Action N} (hv : dim.Valid) (h : Paced dim flights s)
    (hbarrier : BarrierInv s) (haccount : AccountInv dim s) (ht : step dim s a = some t) :
    Paced dim (flights ++ flight s a) t := by
  have hexplored : Explored dim s → Explored dim t := fun he => he.step (haccount.step hv ht) ht
  have hlength : flights.length ≤ (flights ++ flight s a).length := by simp
  cases a with
  | main =>
    obtain ⟨h', hm, rfl⟩ := Option.map_eq_some_iff.mp ht
    rw [stepMain_eq hm] at hexplored ⊢
    obtain hflight | hdone | ⟨heven, hcount, huntouched⟩ := h
    · exact .inl (hflight.trans hlength)
    · exact .inr (.inl (hexplored hdone))
    · exact .inr (.inr ⟨heven, hcount.trans hlength, huntouched.1, huntouched.2⟩)
  | bee turn =>
    have haccount' := haccount.step hv ht
    obtain ⟨h', b', hstep, rfl⟩ := Config.move_eq_some.mp ht
    have hm := stepBee_move hstep
    obtain hgen | ⟨hlast, hgen, stop, hpc, rfl⟩ := generation_move hm
    · unfold Paced
      simp only [hgen]
      obtain hflight | hdone | ⟨heven, hcount, huntouched⟩ := h
      · exact .inl (hflight.trans hlength)
      · exact .inr (.inl (hexplored hdone))
      · obtain hpop | huntouched' := huntouched.move hm
        · left
          obtain ⟨value, queue, hq⟩ := List.exists_cons_of_ne_nil huntouched.1
          rw [List.length_append, flight, if_pos hpop, hq]
          simp only [List.head?_cons, Option.toList_some, List.length_singleton]
          omega
        · exact .inr (.inr ⟨heven, hcount.trans hlength, huntouched'⟩)
    · have hnone : flight s (.bee turn) = [] := by
        rw [flight, if_neg (by rw [hpc]; exact Pc.noConfusion)]
      rw [hnone, List.append_nil]
      exact h.generation hv hbarrier hpc hlast hgen haccount' hexplored

theorem rounds_le (h : BarrierInv s) (i : Fin N) :
    (s.locals i).rounds ≤ s.shared.barrier.generation / 2 := by
  obtain hphase | ⟨hw, hphase⟩ := h.phase i
  · omega
  · have hpos : 1 ≤ (s.locals i).pc.offset := by
      cases hpc : (s.locals i).pc with
      | await stop gen => cases stop <;> simp [Pc.offset]
      | _ =>
        rw [hpc] at hw
        cases hw
    omega

/-- However many bees there are and however they are scheduled, every iteration that has ended
has taken a position out of the queue until the field is explored. As only so many positions can
be reported, as many iterations explore it. -/
theorem explored_of_run {width height : ℕ} (hN : 1 ≤ N) (hw : 1 ≤ width) (hh : 1 ≤ height)
    (hsize : width * height < 2 ^ 31) {as : List (Action N)} {s : State N}
    (h : run (step (globalField width height)) (init (globalField width height) N) as = some s)
    (i : Fin N) :
    ((s.locals i).rounds ≤ (trace (step (globalField width height)) flight
        (init (globalField width height) N) as).length ∨
      s.shared.collected = (globalField width height).numberFlowers) ∧
    (1 + (width * (height - 1) + height * (width - 1)) < (s.locals i).rounds →
      s.shared.collected = (globalField width height).numberFlowers ∧
        ∀ p < width * height, s.shared.hasNectar p = false) := by
  have hv := globalField_valid hw hh hsize
  have hdim := globalField_eq hw hh hsize
  let R : List ℤ → State N → Prop := fun flights u =>
    BarrierInv u ∧ AccountInv (globalField width height) u ∧ Paced (globalField width height) flights u
  have hstart : R [] (init (globalField width height) N) := by
    refine ⟨.init hN, .init hv, .inr (.inr ⟨rfl, ?_, ?_, fun i => rfl⟩)⟩
    · simp [init, Barrier.init]
    · simp [init]
  have hstep : ∀ flights u a v, R flights u → step (globalField width height) u a = some v →
      R (flights ++ flight u a) v := by
    rintro flights u a v ⟨hbarrier, haccount, hpaced⟩ huv
    exact ⟨hbarrier.step huv, haccount.step hv huv, hpaced.step hv hbarrier haccount huv⟩
  obtain ⟨hbarrier, haccount, hpaced⟩ := trace_invariant R hstep hstart h
  simp only [List.nil_append] at hpaced
  have hnumber : (globalField width height).size = (globalField width height).numberFlowers := by
    rw [hdim]
    rfl
  have hpace : (s.locals i).rounds ≤ (trace (step (globalField width height)) flight
      (init (globalField width height) N) as).length ∨ Explored (globalField width height) s := by
    have hle := rounds_le hbarrier i
    obtain hflight | hdone | ⟨-, hflight, -⟩ := hpaced
    · exact .inl (by omega)
    · exact .inr hdone
    · exact .inl (hle.trans hflight)
  refine ⟨hpace.imp_right fun hdone => hnumber ▸ hdone, fun hrounds => ?_⟩
  have hflights := (reportCount_of_run hw hh hsize h).flights
  have hexplored : Explored (globalField width height) s := hpace.resolve_left (by omega)
  have hcells : (globalField width height).size = width * height := by
    rw [hdim]
    rfl
  exact ⟨hnumber ▸ hexplored, fun p hp => hexplored.harvested haccount (hcells ▸ hp)⟩

theorem explored_twoCells : ∃ s : State 1, 2 < (s.locals 0).rounds ∧
    ((s.locals 0).rounds ≤ (trace (step (globalField 2 1)) flight (init (globalField 2 1) 1)
        (turns 0 75 0)).length ∨ s.shared.collected = (globalField 2 1).numberFlowers) ∧
    s.shared.collected = (globalField 2 1).numberFlowers ∧
      ∀ p < 2 * 1, s.shared.hasNectar p = false := by
  obtain ⟨s, hs, hp⟩ := (Option.any_eq_true (fun s : State 1 => decide (2 < (s.locals 0).rounds))
    (run (step (globalField 2 1)) (init (globalField 2 1) 1) (turns 0 75 0))).mp (by decide +kernel)
  have hrounds : 2 < (s.locals 0).rounds := of_decide_eq_true hp
  have hw : 1 ≤ 2 := by decide
  obtain ⟨hpace, hexplored⟩ := explored_of_run (by decide) hw (Nat.le_refl 1) (by decide) hs 0
  exact ⟨s, hrounds, hpace, hexplored (by simpa using hrounds)⟩

end PsOs.Beehive
