import PsOs.DiceRounds

namespace PsOs.DiceGame

open Threads TransitionSystems

variable {N : ℕ}

/-- All players make the same number of iterations, nobody waits for one that has left the
loop, `n` counts the players left, and the last of them is the winner. -/
structure Lockstep (s : State N) : Prop where
  rounds : ∀ i j, (s.locals i).pc = .exited → (s.locals j).entered ≤ (s.locals i).rounds
  released : ∀ i j stop gen, (s.locals i).pc = .exited → (s.locals j).pc = .await stop gen →
    gen < s.shared.barrier.generation
  progress : (∃ i, (s.locals i).pc ≠ .exited) → ∃ a, (step s a).isSome
  boundary : s.shared.barrier.generation % 4 ≠ 2 →
    s.shared.state.n = (remaining s).card ∧ 1 ≤ s.shared.state.n
  maximum : ∀ i, (s.locals i).pc = .resetMax ∨ (∃ k, (s.locals i).pc = .compute k) →
    ∀ j, s.shared.state.rolls j = 0 ↔ (s.locals j).loser = true
  winner : (∀ i, (s.locals i).pc = .exited) → ∃! i, (s.locals i).won = true

theorem phase {s : State N} (h : Inv s) (i : Fin N) :
    4 * (s.locals i).rounds + (s.locals i).pc.offset = s.shared.barrier.generation ∨
      (s.locals i).pc.waiting = true ∧
        4 * (s.locals i).rounds + (s.locals i).pc.offset = s.shared.barrier.generation + 1 :=
  h.sync.phase i

theorem of_exited {s : State N} (h : Inv s) {i : Fin N} (hi : (s.locals i).pc = .exited)
    (j : Fin N) :
    4 * (s.locals j).rounds + (s.locals j).pc.offset = s.shared.barrier.generation ∧
      ((s.locals j).pc = .guard ∨ (s.locals j).pc = .exited ∨
        ∃ gen, (s.locals j).pc = .await .printed gen) := by
  have hgen := h.sync.active i (by simp [Player.place, hi, Pc.waiting])
  simp only [Player.place, hi, Pc.offset] at hgen
  have hn := h.players i
  simp only [PlayerOk, hi] at hn
  have hj := h.players j
  have hphase := phase h j
  cases hpc : (s.locals j).pc with
  | guard | exited => simpa [hpc, Pc.offset, Pc.waiting] using hphase
  | await stop gen =>
    cases stop with
    | rolled =>
      simp only [PlayerOk, hpc] at hj
      omega
    | maximum | eliminated =>
      simp only [hpc, Pc.offset] at hphase
      omega
    | printed =>
      simp only [hpc, Pc.offset] at hphase ⊢
      exact ⟨by omega, .inr (.inr ⟨gen, rfl⟩)⟩
  | arrive stop =>
    cases stop with
    | rolled =>
      simp only [PlayerOk, hpc] at hj
      omega
    | _ =>
      simp only [hpc, Pc.offset, Pc.waiting, Bool.false_eq_true, false_and, or_false] at hphase
      omega
  | roll =>
    simp only [PlayerOk, hpc] at hj
    omega
  | _ =>
    simp only [hpc, Pc.offset, Pc.waiting, Bool.false_eq_true, false_and, or_false] at hphase
    omega

theorem enabled_of_phase {s : State N} (h : Inv s) {i : Fin N}
    (harr : 4 * (s.locals i).rounds + (s.locals i).pc.offset = s.shared.barrier.generation)
    (hi : (s.locals i).pc ≠ .exited) : (step s ⟨i, 0, i⟩).isSome := by
  have hmaxN := h.maxN
  have hp := h.players i
  simp only [step, Config.move, Option.isSome_map]
  unfold stepPlayer
  cases hpc : (s.locals i).pc with
  | exited => exact absurd hpc hi
  | guard | roll =>
    simp only
    split <;> rfl
  | await stop gen =>
    have hlt : gen < s.shared.barrier.generation := by
      cases stop <;> simp only [PlayerOk, hpc, Pc.offset] at hp harr <;> omega
    simp [hlt]
  | compute k =>
    simp only
    split
    · rw [dif_pos (by omega)]
      rfl
    · rfl
  | _ => rfl

theorem remaining_card {s : State N} (h : Inv s) (hphase : s.shared.barrier.generation % 4 ≠ 2) :
    s.shared.state.n = (remaining s).card := by
  rw [h.n, tally, remaining]
  have halive : ∀ j, (s.locals j).Alive ↔ (s.locals j).loser = false := by
    intro j
    refine ⟨fun ha => ha.1, fun hl => ⟨hl, ?_, ?_⟩⟩ <;>
      · intro hpc
        have := phase h j
        simp only [hpc, Pc.offset, Pc.waiting, Bool.false_eq_true, false_and, or_false] at this
        omega
  simp only [halive]

theorem entered_le_of_exited {s : State N} (h : Inv s) {i : Fin N}
    (hi : (s.locals i).pc = .exited) (j : Fin N) :
    (s.locals j).entered ≤ (s.locals i).rounds := by
  have hgen := h.sync.active i (by simp [Player.place, hi, Pc.waiting])
  simp only [Player.place, hi, Pc.offset] at hgen
  obtain ⟨harr, hpc | hpc | ⟨gen, hpc⟩⟩ := of_exited h hi j
  all_goals
    simp only [hpc, Pc.offset, Player.entered] at harr ⊢
    omega

theorem released_of_exited {s : State N} (h : Inv s) {i j : Fin N} {stop : Stop} {gen : ℕ}
    (hi : (s.locals i).pc = .exited) (hj : (s.locals j).pc = .await stop gen) :
    gen < s.shared.barrier.generation := by
  obtain ⟨harr, hpc | hpc | ⟨gen', hpc⟩⟩ := of_exited h hi j
  · rw [hpc] at hj
    cases hj
  · rw [hpc] at hj
    cases hj
  · rw [hpc] at hj
    cases hj
    have hp := h.players j
    simp only [PlayerOk, hpc, Pc.offset] at hp harr
    omega

theorem exists_enabled {s : State N} (h : Inv s) {j : Fin N} (hj : (s.locals j).pc ≠ .exited) :
    ∃ a, (step s a).isSome := by
  obtain ⟨i, hi⟩ := h.sync.exists_unblocked
  by_cases hexit : (s.locals i).pc = .exited
  · exact ⟨_, enabled_of_phase h (of_exited h hexit j).1 hj⟩
  · exact ⟨_, enabled_of_phase h hi hexit⟩

theorem rolls_of_computing {s : State N} (h : Inv s)
    (hgen : s.shared.barrier.generation % 4 = 1) (j : Fin N) :
    s.shared.state.rolls j = 0 ↔ (s.locals j).loser = true := by
  have hj := h.players j
  have hphase := phase h j
  cases hpc : (s.locals j).pc with
  | arrive stop | await stop gen =>
    cases stop <;> simp only [PlayerOk, hpc, Pc.offset, Pc.waiting] at hj hphase
    all_goals first
      | exact hj.1.2
      | exact hj.2
  | resetMax | compute k =>
    simp only [PlayerOk, hpc] at hj
    exact hj.1.2
  | _ =>
    simp only [hpc, Pc.offset, Pc.waiting, Bool.false_eq_true, false_and, or_false] at hphase
    omega

theorem existsUnique_winner {s : State N} (h : Inv s) (hall : ∀ i, (s.locals i).pc = .exited) :
    ∃! i, (s.locals i).won = true := by
  have hwon : ∀ j, (s.locals j).won = true ↔ (s.locals j).Alive := by
    intro j
    have hj := h.players j
    simp only [PlayerOk, hall j] at hj
    simp [hj.2.1, Player.Alive, hall j]
  have hone : tally Player.Alive s.locals = 1 := by
    have hn := h.n
    have hpos := h.pos
    obtain ⟨i, -⟩ := h.sync.exists_unblocked
    have hi := h.players i
    simp only [PlayerOk, hall i] at hi
    omega
  obtain ⟨i, hi⟩ := Finset.card_eq_one.mp hone
  have hmem : ∀ j, (s.locals j).Alive ↔ j = i := by
    intro j
    simpa using congrArg (j ∈ ·) hi
  exact ⟨i, (hwon i).mpr ((hmem i).mpr rfl), fun j hj => (hmem j).mp ((hwon j).mp hj)⟩

theorem Inv.lockstep {s : State N} (h : Inv s) : Lockstep s := by
  refine ⟨fun i j hi => entered_le_of_exited h hi j,
    fun i j stop gen hi hj => released_of_exited h hi hj,
    fun ⟨j, hj⟩ => exists_enabled h hj,
    fun hphase => ⟨remaining_card h hphase, h.pos⟩, fun i hi => ?_, existsUnique_winner h⟩
  apply rolls_of_computing h
  rcases phase h i with hp | ⟨hw, -⟩
  · rcases hi with hi | ⟨k, hi⟩ <;> simp only [hi, Pc.offset] at hp <;> omega
  · rcases hi with hi | ⟨k, hi⟩ <;> simp [hi, Pc.waiting] at hw

theorem reachable_lockstep (hN : 1 ≤ N) {s : State N} (h : Reachable step (init N) s) : Lockstep s :=
  have : NeZero N := ⟨by omega⟩
  (reachable_inv h).lockstep

def solo (player : Fin N) (rand moves : ℕ) (serial : Fin N) : List (Action N) :=
  List.replicate moves ⟨player, rand, serial⟩

def twoPlayers : List (Action 2) :=
  solo 0 5 3 0 ++ solo 1 0 3 0 ++ solo 0 0 6 0 ++ solo 1 0 2 0 ++
    solo 0 0 8 0 ++ solo 1 0 4 0 ++ solo 0 0 2 0 ++ solo 1 0 2 0 ++ solo 0 0 2 0 ++ solo 1 0 2 0

theorem lockstep_twoPlayers :
    ∃ s, Reachable step (init 2) s ∧ (∀ i, (s.locals i).pc = .exited) ∧ Lockstep s := by
  obtain ⟨s, hs, hp⟩ := exists_reachable_of_run step (init 2) twoPlayers
    (fun s => decide (∀ i, (s.locals i).pc = .exited)) (by decide +kernel)
  exact ⟨s, hs, by simpa using hp, reachable_lockstep (by decide) hs⟩

end PsOs.DiceGame
