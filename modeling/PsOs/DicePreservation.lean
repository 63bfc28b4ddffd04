import PsOs.DiceInvariant

namespace PsOs.DiceGame

open Threads TransitionSystems

variable {N : ℕ}

theorem leave_place {i : Fin N} {serial : Option (Fin N)} {p : Player} {stop : Stop} {gen : ℕ}
    (hpc : p.pc = .await stop gen) :
    (p.leave i serial stop).place = ⟨p.place.arrivals, false⟩ := by
  cases stop with
  | rolled =>
    simp only [Player.leave, Player.goto, Player.place, hpc]
    split <;> simp [Pc.offset, Pc.waiting]
  | maximum => simp [Player.leave, Player.goto, Player.place, hpc, Pc.offset, Pc.waiting]
  | eliminated => simp [Player.leave, Player.goto, Player.place, hpc, Pc.offset, Pc.waiting]
  | printed =>
    simp [Player.leave, Player.place, hpc, Pc.offset, Pc.waiting]
    ring

theorem arrive_place {p : Player} {stop : Stop} (gen : ℕ) (hpc : p.pc = .arrive stop) :
    (p.goto (.await stop gen)).place = ⟨p.place.arrivals + 1, true⟩ := by
  cases stop <;> simp only [Player.place, Player.goto, Pc.offset, Pc.waiting, hpc, Nat.add_assoc]

theorem move_arrivals {s : State N} (h : Inv s) {i : Fin N} {g' : Game N} {p' : Player}
    (hm : Move i s.shared (s.locals i) g' p') :
    4 * (s.locals i).rounds + (s.locals i).pc.offset = s.shared.barrier.generation := by
  have hgen := h.sync.arrivals_eq i
  change 4 * _ + _ = _ ∨ 4 * _ + _ = _ at hgen
  cases hm with
  | leave stop gen hpc hlt =>
    have hp := h.players i
    cases stop <;> simp only [PlayerOk, hpc, Pc.offset] at hp hgen ⊢ <;> omega
  | _ =>
    apply h.sync.active i
    simp [Player.place, Pc.waiting, *]

theorem sync_move {s : State N} (h : Inv s) {i : Fin N} {g' : Game N} {p' : Player}
    (hm : Move i s.shared (s.locals i) g' p') :
    Synced Player.place g'.barrier (Function.update s.locals i p') := by
  have hgen := move_arrivals h hm
  cases hm with
  | arrive stop serial hpc =>
    have hsync := h.sync.arrive (by simp [Player.place, Pc.waiting, hpc])
      (arrive_place s.shared.barrier.generation hpc)
    simpa [Game.arrive] using hsync
  | leave stop gen hpc hlt =>
    refine h.sync.leave ?_ (leave_place hpc)
    exact hgen.le
  | _ =>
    apply h.sync.stay
    simp [Player.place, Player.goto, Pc.waiting, Pc.offset, *]

theorem count_frame (st : GameState N) (r : ℕ) :
    (st.count r).rolls = st.rolls ∧ (st.count r).n = st.n ∧ (st.count r).maxN = st.maxN := by
  unfold GameState.count
  split
  · exact ⟨rfl, rfl, rfl⟩
  · split
    · exact ⟨rfl, rfl, rfl⟩
    · exact ⟨rfl, rfl, rfl⟩

@[simp] theorem count_rolls (st : GameState N) (r : ℕ) : (st.count r).rolls = st.rolls :=
  (count_frame st r).1

@[simp] theorem count_n (st : GameState N) (r : ℕ) : (st.count r).n = st.n := (count_frame st r).2.1

@[simp] theorem count_maxN (st : GameState N) (r : ℕ) : (st.count r).maxN = st.maxN :=
  (count_frame st r).2.2

theorem playerOk_move {s : State N} (h : Inv s) {i : Fin N} {g' : Game N} {p' : Player}
    (hm : Move i s.shared (s.locals i) g' p') : PlayerOk g' i p' := by
  have hgen := move_arrivals h hm
  have hp := h.players i
  cases hm with
  | leave stop gen hpc hlt =>
    cases stop with
    | rolled =>
      simp only [PlayerOk, hpc] at hp
      by_cases hs : s.shared.serial = some i
      · simp only [Player.leave, hs, if_true]
        exact ⟨hp.1, hs⟩
      · simp only [Player.leave, hs, if_false]
        exact hp.1
    | maximum | eliminated =>
      simp only [PlayerOk, hpc] at hp
      exact hp.1
    | printed =>
      simp only [PlayerOk, hpc] at hp
      exact ⟨hp.1.1, hp.1.2.mpr⟩
  | arrive stop serial hpc =>
    cases stop with
    | rolled =>
      simp only [PlayerOk, hpc, Pc.offset] at hp hgen
      exact ⟨hp.1, hp.2, hgen.symm⟩
    | maximum | eliminated | printed =>
      simp only [PlayerOk, hpc, Pc.offset] at hp hgen
      refine ⟨hp, ?_⟩
      simp only [Player.goto, Pc.offset]
      omega
  | enter hpc hn =>
    simp only [PlayerOk, hpc] at hp
    exact ⟨hp.1, hp.2, hn⟩
  | finish hpc hn =>
    simp only [PlayerOk, hpc] at hp
    exact ⟨by omega, rfl, hp.2⟩
  | pass hpc hl =>
    simp only [PlayerOk, hpc] at hp
    exact ⟨⟨hp.1, fun _ => hl, hp.2.1⟩, hp.2.2⟩
  | roll r hpc hl hr =>
    simp only [PlayerOk, hpc] at hp
    refine ⟨⟨hp.1, ?_⟩, hp.2.2⟩
    simp only [Function.update_self, Player.goto, hl]
    constructor
    · omega
    · simp
  | resetMax hpc =>
    simp only [PlayerOk, hpc] at hp
    exact hp
  | compute k hpc =>
    simp only [PlayerOk, hpc] at hp
    simpa [PlayerOk, Player.goto, RollOk] using hp
  | computed k hpc hk | escape c hpc hc | survive hpc hr =>
    simp only [PlayerOk, hpc] at hp
    exact hp.1
  | skip hpc hl | decrement hpc =>
    simp only [PlayerOk, hpc] at hp
    exact hp
  | check c hpc hc =>
    simp only [PlayerOk, hpc] at hp
    exact ⟨hp.1, hp.2.1⟩
  | readCount hpc hl =>
    simp only [PlayerOk, hpc] at hp
    exact ⟨hp, hl, rfl⟩
  | lose hpc hr =>
    simp only [PlayerOk, hpc] at hp
    exact ⟨hp.1, hp.2, hr⟩
  | clearRoll hpc =>
    simp only [PlayerOk, hpc] at hp
    exact ⟨hp.1.1, hp.2.1, Function.update_self ..⟩
  | setLoser hpc =>
    simp only [PlayerOk, hpc] at hp
    exact ⟨hp.1, by simpa using hp.2.2⟩

theorem PlayerOk.congr {g g' : Game N} {j : Fin N} {p : Player} (h : PlayerOk g j p)
    (hroll : g'.state.rolls j = g.state.rolls j)
    (hn : p.pc.offset = 0 ∨ p.pc.offset = 1 → g'.state.n = g.state.n)
    (hserial : p.pc.offset = 1 → p.pc.waiting = false → g'.serial = g.serial)
    (hmax : p.pc.offset = 2 → p.pc.waiting = false →
      g'.state.currentMax = g.state.currentMax ∧
        g'.state.currentMaxCount = g.state.currentMaxCount) : PlayerOk g' j p := by
  unfold PlayerOk RollOk at h ⊢
  rw [hroll]
  clear hroll
  cases hpc : p.pc with
  | arrive stop | await stop gen => cases stop <;> simp_all [Pc.offset]
  | decrement | clearRoll =>
    simp only [hpc, Pc.offset, Pc.waiting, forall_const] at h hmax ⊢
    exact ⟨h.1, h.2.1, h.2.2.trans hmax.1.symm⟩
  | _ => simp_all [Pc.offset, Pc.waiting]

theorem arrive_serial {s : State N} (h : Inv s) {i j : Fin N} (hji : j ≠ i)
    (hi : (s.locals i).pc.waiting = false) (hj : (s.locals j).pc.waiting = false)
    (serial : Fin N) : (s.shared.arrive serial).serial = s.shared.serial := by
  by_cases hlast : s.shared.barrier.count + 1 = N
  · have := (h.sync.others_arrived (i := i) (j := j) hi (by simpa using hlast) hji).2
    rw [Player.place, hj] at this
    cases this
  · simp [Game.arrive, Barrier.arrive, hlast]

theorem playerOk_other {s : State N} (h : Inv s) {i : Fin N} {g' : Game N} {p' : Player}
    (hm : Move i s.shared (s.locals i) g' p') {j : Fin N} (hji : j ≠ i) :
    PlayerOk g' j (s.locals j) := by
  have hgen := move_arrivals h hm
  have hj := h.players j
  have harr := h.sync.arrivals_eq j
  have hact := h.sync.active j
  simp only [Player.place] at harr hact
  cases hm with
  | roll r hpc hl hr =>
    exact hj.congr (Function.update_of_ne hji _ _) (fun _ => rfl) (fun _ _ => rfl)
      fun _ _ => ⟨rfl, rfl⟩
  | clearRoll hpc =>
    exact hj.congr (Function.update_of_ne hji _ _) (fun _ => rfl) (fun _ _ => rfl)
      fun _ _ => ⟨rfl, rfl⟩
  | arrive stop serial hpc =>
    refine hj.congr rfl (fun _ => rfl) (fun _ hw => ?_) fun _ _ => ⟨rfl, rfl⟩
    exact arrive_serial h hji (by simp [hpc, Pc.waiting]) hw serial
  | resetMax hpc | compute k hpc =>
    simp only [hpc, Pc.offset] at hgen
    refine hj.congr (by simp) (fun _ => by simp) (fun _ _ => rfl) fun hoff hw => ?_
    have := hact hw
    omega
  | decrement hpc =>
    simp only [hpc, Pc.offset] at hgen
    refine hj.congr rfl (fun hoff => ?_) (fun _ _ => rfl) fun _ _ => ⟨rfl, rfl⟩
    omega
  | _ => exact hj

theorem n_move {s : State N} (h : Inv s) {i : Fin N} {g' : Game N} {p' : Player}
    (hm : Move i s.shared (s.locals i) g' p') :
    g'.state.n = tally Player.Alive (Function.update s.locals i p') := by
  have hn := h.n
  have hp := h.players i
  cases hm with
  | decrement hpc =>
    simp only [PlayerOk, hpc] at hp
    have hloss := tally_update_loss (p := Player.Alive) (f := s.locals) (i := i)
      (l := (s.locals i).goto .clearRoll) ⟨hp.2.1, by simp [hpc]⟩
      (by simp [Player.Alive, Player.goto])
    change s.shared.state.n - 1 = _
    omega
  | clearRoll hpc | setLoser hpc =>
    rw [tally_update_of_iff (by simp [Player.Alive, Player.goto, hpc])]
    exact hn
  | leave stop gen hpc hlt =>
    rw [tally_update_of_iff ?_]
    · exact hn
    · cases stop with
      | rolled =>
        simp only [Player.Alive, Player.leave, Player.goto, hpc]
        split <;> simp
      | _ => simp [Player.Alive, Player.leave, Player.goto, hpc]
  | compute k hpc =>
    rw [tally_update_of_iff (by simp [Player.Alive, Player.goto, hpc]), count_n]
    exact hn
  | _ =>
    rw [tally_update_of_iff (by simp [Player.Alive, Player.goto, *])]
    exact hn

end PsOs.DiceGame
