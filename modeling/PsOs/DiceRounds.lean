import PsOs.DicePreservation

namespace PsOs.DiceGame

open Threads TransitionSystems

variable {N : ℕ}

section Maximum

variable {st : GameState N}

theorem MaxOver.zero (hmax : st.currentMax = 0) (hcount : st.currentMaxCount = 0) :
    MaxOver st 0 := by
  refine ⟨fun j hj => absurd hj (Nat.not_lt_zero _), .inl hmax, ?_⟩
  simp [hcount]

theorem card_upto_succ (q : Fin N → Prop) [DecidablePred q] (k : Fin N) :
    (Finset.univ.filter fun j : Fin N => j.val < k.val + 1 ∧ q j).card =
      (Finset.univ.filter fun j : Fin N => j.val < k.val ∧ q j).card + if q k then 1 else 0 := by
  have hsplit : (Finset.univ.filter fun j : Fin N => j.val < k.val + 1 ∧ q j) =
      if q k then insert k (Finset.univ.filter fun j : Fin N => j.val < k.val ∧ q j)
      else Finset.univ.filter fun j : Fin N => j.val < k.val ∧ q j := by
    ext j
    by_cases hjk : j = k
    · subst hjk
      split <;> simp [*]
    · have hne : j.val ≠ k.val := fun he => hjk (Fin.ext he)
      have hlt : j.val < k.val + 1 ↔ j.val < k.val := by omega
      split <;>
        simp only [Finset.mem_insert, Finset.mem_filter, Finset.mem_univ, true_and, hjk, false_or,
          hlt]
  rw [hsplit]
  split
  · rw [Finset.card_insert_of_notMem (by simp)]
  · rfl

theorem MaxOver.succ {k : Fin N} (h : MaxOver st k) : MaxOver (st.count (st.rolls k)) (k + 1) := by
  have hbelow : ∀ j : Fin N, j.val < k.val + 1 → j.val < k.val ∨ j = k := by
    intro j hj
    by_cases hjk : j = k
    · exact .inr hjk
    · have : j.val ≠ k.val := fun he => hjk (Fin.ext he)
      omega
  rcases lt_trichotomy st.currentMax (st.rolls k) with hlt | heq | hgt
  · -- a new maximum: no earlier roll reaches it
    have hst : st.count (st.rolls k) =
        { st with currentMax := st.rolls k, currentMaxCount := 1 } := by
      simp [GameState.count, hlt]
    have hnone :
        (Finset.univ.filter fun j : Fin N => j.val < k.val ∧ st.rolls j = st.rolls k) = ∅ := by
      apply Finset.filter_eq_empty_iff.mpr
      intro j _ hj
      have := h.le j hj.1
      omega
    rw [hst]
    refine ⟨fun j hj => ?_, .inr ⟨k, Nat.lt_succ_self _, rfl⟩, ?_⟩
    · rcases hbelow j hj with hj | rfl
      · exact (h.le j hj).trans hlt.le
      · exact le_rfl
    · change (1 : ℤ) = _
      rw [card_upto_succ (fun j => st.rolls j = st.rolls k), hnone]
      simp
  · have hst : st.count (st.rolls k) = { st with currentMaxCount := st.currentMaxCount + 1 } := by
      simp [GameState.count, heq]
    rw [hst]
    refine ⟨fun j hj => ?_, .inr ⟨k, Nat.lt_succ_self _, heq.symm⟩, ?_⟩
    · rcases hbelow j hj with hj | rfl
      · exact h.le j hj
      · exact heq.ge
    · change st.currentMaxCount + 1 = _
      rw [card_upto_succ (fun j => st.rolls j = st.currentMax), h.count]
      simp [heq]
  · have hst : st.count (st.rolls k) = st := by
      simp [GameState.count, hgt.le.not_gt, hgt.ne]
    rw [hst]
    refine ⟨fun j hj => ?_, ?_, ?_⟩
    · rcases hbelow j hj with hj | rfl
      · exact h.le j hj
      · exact hgt.le
    · rcases h.attained with h0 | ⟨j, hj, he⟩
      · exact .inl h0
      · exact .inr ⟨j, hj.trans (Nat.lt_succ_self _), he⟩
    · rw [card_upto_succ (fun j => st.rolls j = st.currentMax), h.count]
      simp [hgt.ne]

theorem MaxOver.all {k : ℕ} (h : MaxOver st k) (hk : N ≤ k) : MaxOver st N := by
  refine ⟨fun j _ => h.le j (by omega), ?_, ?_⟩
  · rcases h.attained with h0 | ⟨j, -, hj⟩
    · exact .inl h0
    · exact .inr ⟨j, j.isLt, hj⟩
  · rw [h.count]
    congr 2
    ext j
    have : j.val < k := by omega
    simp [this]

end Maximum

theorem await_of_offset {pc : Pc} {stop : Stop} (hw : pc.waiting = true)
    (h : pc.offset % 4 = (Pc.await stop 0).offset % 4) : ∃ gen, pc = .await stop gen := by
  rcases pc with _ | _ | _ | ⟨stop', gen⟩ <;> try cases hw
  cases stop <;> cases stop' <;> simp [Pc.offset] at h ⊢

theorem arrive_completes {s : State N} (h : Inv s) {i : Fin N} {stop : Stop} (serial : Fin N)
    (hpc : (s.locals i).pc = .arrive stop)
    (hgen : (s.shared.arrive serial).barrier.generation ≠ s.shared.barrier.generation) :
    (s.shared.arrive serial).barrier.generation = s.shared.barrier.generation + 1 ∧
      (s.shared.arrive serial).serial = some serial ∧
      ∀ j, ∃ gen, (Function.update s.locals i
        ((s.locals i).goto (.await stop s.shared.barrier.generation)) j).pc = .await stop gen := by
  have hlast : s.shared.barrier.count + 1 = N := by
    by_contra hlast
    simp [Game.arrive, Barrier.arrive, hlast] at hgen
  refine ⟨by simp [Game.arrive, Barrier.arrive, hlast],
    by simp [Game.arrive, Barrier.arrive, hlast], fun j => ?_⟩
  by_cases hji : j = i
  · subst hji
    rw [Function.update_self]
    exact ⟨_, rfl⟩
  · rw [Function.update_of_ne hji]
    have hactive : (s.locals i).place.waiting = false := by simp [Player.place, hpc, Pc.waiting]
    have hi := h.sync.active i hactive
    obtain ⟨harr, hw⟩ := h.sync.others_arrived hactive (by simpa using hlast) hji
    apply await_of_offset hw
    cases stop <;> simp only [Player.place, hpc, Pc.offset] at hi harr ⊢ <;> omega

theorem Stage.congr {g g' : Game N} {p : Player} (h : Stage g p) (hst : g'.state = g.state) :
    Stage g' p := by
  unfold Stage at h ⊢
  rwa [hst]

theorem Stage.of_compute {g : Game N} {p : Player} {k : ℕ} (h : Stage g p)
    (hpc : p.pc = .compute k) : MaxOver g.state k := by
  simpa only [Stage, hpc, reduceCtorEq, exists_false, false_or, false_and, or_false,
    Pc.compute.injEq, exists_eq_left'] using h

theorem Stage.of_arrive {g : Game N} {p : Player} (h : Stage g p)
    (hpc : p.pc = .arrive .maximum) : MaxOver g.state N := by
  simpa only [Stage, hpc, reduceCtorEq, exists_false, false_or, false_and, or_false, true_and]
    using h

theorem Stage.of_await {g : Game N} {p : Player} {gen : ℕ} (h : Stage g p)
    (hpc : p.pc = .await .maximum gen) : MaxOver g.state N := by
  simp only [Stage, hpc, reduceCtorEq, exists_false, false_or, false_and, Pc.await.injEq] at h
  exact h.2

theorem arrive_serial_eq {g : Game N} (serial : Fin N)
    (hgen : (g.arrive serial).barrier.generation = g.barrier.generation) :
    (g.arrive serial).serial = g.serial := by
  change (g.barrier.arrive N).generation = g.barrier.generation at hgen
  simp [Game.arrive, hgen]

theorem serial_move {s : State N} (h : Inv s) {i : Fin N} {g' : Game N} {p' : Player}
    (hm : Move i s.shared (s.locals i) g' p')
    (hphase : s.shared.barrier.generation % 4 = 1)
    (hgen : g'.barrier.generation = s.shared.barrier.generation)
    (hserial : s.shared.serial = some i) (hstage : Stage s.shared (s.locals i)) :
    g'.serial = some i ∧ Stage g' p' := by
  have harr := move_arrivals h hm
  cases hm with
  | leave stop gen hpc hlt =>
    refine ⟨hserial, ?_⟩
    cases stop <;> simp only [hpc, Pc.offset] at harr
    case rolled => exact .inr (.inl (by simp [Player.leave, Player.goto, hserial]))
    all_goals omega
  | resetMax hpc => exact ⟨hserial, .inr (.inr (.inl ⟨0, rfl, .zero rfl rfl⟩))⟩
  | compute k hpc =>
    exact ⟨hserial, .inr (.inr (.inl ⟨k + 1, rfl, (hstage.of_compute hpc).succ⟩))⟩
  | computed k hpc hk =>
    rw [h.maxN] at hk
    exact ⟨hserial, .inr (.inr (.inr ⟨.inl rfl, (hstage.of_compute hpc).all hk⟩))⟩
  | arrive stop serial hpc =>
    refine ⟨(arrive_serial_eq serial hgen).trans hserial, ?_⟩
    cases stop <;> simp only [hpc, Pc.offset] at harr
    case maximum => exact .inr (.inr (.inr ⟨.inr ⟨_, rfl⟩, hstage.of_arrive hpc⟩))
    all_goals omega
  | _ =>
    simp only [*, Pc.offset] at harr
    omega

theorem serial_other {s : State N} (h : Inv s) {i j : Fin N} {g' : Game N} {p' : Player}
    (hm : Move i s.shared (s.locals i) g' p') (hji : j ≠ i)
    (hphase : s.shared.barrier.generation % 4 = 1)
    (hgen : g'.barrier.generation = s.shared.barrier.generation)
    (hserial : s.shared.serial = some j) (hstage : Stage s.shared (s.locals j)) :
    g'.serial = some j ∧ Stage g' (s.locals j) := by
  have harr := move_arrivals h hm
  cases hm with
  | arrive stop serial hpc =>
    exact ⟨(arrive_serial_eq serial hgen).trans hserial, hstage.congr rfl⟩
  | resetMax hpc | compute k hpc =>
    have hi := h.players i
    simp only [PlayerOk, hpc, hserial] at hi
    exact absurd (Option.some.inj hi.2) hji
  | roll r hpc hl hr | decrement hpc | clearRoll hpc =>
    simp only [hpc, Pc.offset] at harr
    omega
  | _ => exact ⟨hserial, hstage⟩

theorem computing_move {s : State N} (h : Inv s) {i : Fin N} {g' : Game N} {p' : Player}
    (hm : Move i s.shared (s.locals i) g' p') (hphase : g'.barrier.generation % 4 = 1) :
    ∃ j, g'.serial = some j ∧ Stage g' (Function.update s.locals i p' j) := by
  by_cases hgen : g'.barrier.generation = s.shared.barrier.generation
  · rw [hgen] at hphase
    obtain ⟨j, hserial, hstage⟩ := h.computing hphase
    refine ⟨j, ?_⟩
    by_cases hji : j = i
    · subst hji
      rw [Function.update_self]
      exact serial_move h hm hphase hgen hserial hstage
    · rw [Function.update_of_ne hji]
      exact serial_other h hm hji hphase hgen hserial hstage
  · have harr := move_arrivals h hm
    cases hm with
    | arrive stop serial hpc =>
      obtain ⟨hnext, hserial, hall⟩ := arrive_completes h serial hpc hgen
      rw [hnext] at hphase
      cases stop <;> simp only [hpc, Pc.offset] at harr
      case rolled => exact ⟨serial, hserial, .inl (hall serial)⟩
      all_goals omega
    | _ => exact absurd rfl hgen

theorem elimination_of_maxOver {t : State N} (hplayers : ∀ i, PlayerOk t.shared i (t.locals i))
    (hn : t.shared.state.n = tally Player.Alive t.locals) (hpos : 1 ≤ t.shared.state.n)
    (hmax : MaxOver t.shared.state N) (hall : ∀ j, ∃ gen, (t.locals j).pc = .await .maximum gen) :
    Elimination t := by
  have hroll : ∀ j, t.shared.state.rolls j = 0 ↔ ¬ (t.locals j).Alive := by
    intro j
    obtain ⟨gen, hpc⟩ := hall j
    have hj := hplayers j
    simp only [PlayerOk, hpc] at hj
    simp [hj.1.2, Player.Alive, hpc]
  obtain ⟨j₀, hj₀⟩ : ∃ j, (t.locals j).Alive := by
    by_contra hnone
    have h0 : tally Player.Alive t.locals = 0 := tally_eq_zero_iff.mpr (not_exists.mp hnone)
    omega
  have hmax_pos : 1 ≤ t.shared.state.currentMax := by
    have hle := hmax.le j₀ j₀.isLt
    have h0 := mt (hroll j₀).mp (not_not.mpr hj₀)
    omega
  obtain ⟨jm, hjm⟩ : ∃ j, t.shared.state.rolls j = t.shared.state.currentMax := by
    rcases hmax.attained with h0 | ⟨j, -, hj⟩
    · omega
    · exact ⟨j, hj⟩
  have hcount : t.shared.state.currentMaxCount =
      (Finset.univ.filter fun j => t.shared.state.rolls j = t.shared.state.currentMax).card := by
    simpa using hmax.count
  refine ⟨fun _ => hmax, hmax_pos, ?_, ?_⟩
  · have hmem : jm ∈ Finset.univ.filter fun j =>
        t.shared.state.rolls j = t.shared.state.currentMax := by simpa using hjm
    have := Finset.card_pos.mpr ⟨jm, hmem⟩
    omega
  · by_cases hsame : ∀ j, (t.locals j).Alive →
        t.shared.state.rolls j = t.shared.state.currentMax
    · refine .inr ⟨?_, fun j hj => ⟨hsame j hj, ?_⟩⟩
      · rw [hcount, hn, tally]
        have hiff : ∀ j, t.shared.state.rolls j = t.shared.state.currentMax ↔
            (t.locals j).Alive := by
          refine fun j => ⟨fun he => ?_, hsame j⟩
          by_contra hdead
          have := (hroll j).mpr hdead
          omega
        simp only [hiff]
      · obtain ⟨gen, hpc⟩ := hall j
        simp [hpc]
    · push Not at hsame
      obtain ⟨j, hj, hne⟩ := hsame
      exact .inl ⟨j, hj, lt_of_le_of_ne (hmax.le j j.isLt) hne⟩

theorem alive_of_ne {s : State N} {i j : Fin N} {p' : Player} (hji : j ≠ i) :
    (Function.update s.locals i p' j).Alive ↔ (s.locals j).Alive := by
  rw [Function.update_of_ne hji]

theorem not_all_await {f : Fin N → Player} {i : Fin N} {p' : Player}
    (hp : ∀ gen, p'.pc ≠ .await .maximum gen) :
    ¬ ∀ j, ∃ gen, (Function.update f i p' j).pc = .await .maximum gen := by
  intro hall
  obtain ⟨gen, hpc⟩ := hall i
  rw [Function.update_self] at hpc
  exact hp gen hpc

theorem Elimination.local_step {s : State N} {i : Fin N} {g' : Game N} {p' : Player}
    (h : Elimination s) (hg : g'.state = s.shared.state)
    (halive : p'.Alive → (s.locals i).Alive) (halive' : (s.locals i).Alive → p'.Alive)
    (hfresh : ∀ gen, p'.pc ≠ .await .maximum gen)
    (hpast : s.shared.state.currentMaxCount = s.shared.state.n → (s.locals i).Alive →
      s.shared.state.rolls i = s.shared.state.currentMax → (s.locals i).pc ≠ .readRoll →
      p'.pc ≠ .readRoll ∧ p'.pc ≠ .decrement) :
    Elimination ⟨g', Function.update s.locals i p'⟩ := by
  refine ⟨fun hall => absurd hall (not_all_await hfresh), by rw [hg]; exact h.max_pos,
    by rw [hg]; exact h.count_pos, ?_⟩
  simp only [hg]
  rcases h.split with ⟨j, hj, hlt⟩ | ⟨hn, hall⟩
  · refine .inl ⟨j, ?_, hlt⟩
    by_cases hji : j = i
    · subst hji
      rw [Function.update_self]
      exact halive' hj
    · exact (alive_of_ne hji).mpr hj
  · refine .inr ⟨hn, fun j hj => ?_⟩
    by_cases hji : j = i
    · subst hji
      rw [Function.update_self] at hj ⊢
      obtain ⟨hr, hread, -⟩ := hall j (halive hj)
      exact ⟨hr, hpast hn (halive hj) hr hread⟩
    · rw [Function.update_of_ne hji] at hj ⊢
      exact hall j hj

theorem Elimination.decrement {s : State N} {i : Fin N} {p' : Player} (h : Elimination s)
    (hi : PlayerOk s.shared i (s.locals i)) (hpc : (s.locals i).pc = .decrement)
    (hfresh : ∀ gen, p'.pc ≠ .await .maximum gen) :
    Elimination ⟨{ s.shared with state := { s.shared.state with n := s.shared.state.n - 1 } },
      Function.update s.locals i p'⟩ := by
  simp only [PlayerOk, hpc] at hi
  refine ⟨fun hall => absurd hall (not_all_await hfresh), h.max_pos, h.count_pos, ?_⟩
  rcases h.split with ⟨j, hj, hlt⟩ | ⟨-, hall⟩
  · have hji : j ≠ i := by
      rintro rfl
      omega
    exact .inl ⟨j, (alive_of_ne hji).mpr hj, hlt⟩
  · exact absurd hpc (hall i ⟨hi.2.1, by simp [hpc]⟩).2.2

theorem Elimination.clearRoll {s : State N} {i : Fin N} {p' : Player} (h : Elimination s)
    (hpc : (s.locals i).pc = .clearRoll) (hdead : ¬ p'.Alive)
    (hfresh : ∀ gen, p'.pc ≠ .await .maximum gen) :
    Elimination ⟨{ s.shared with state := { s.shared.state with
        rolls := Function.update s.shared.state.rolls i 0 } }, Function.update s.locals i p'⟩ := by
  refine ⟨fun hall => absurd hall (not_all_await hfresh), h.max_pos, h.count_pos, ?_⟩
  rcases h.split with ⟨j, hj, hlt⟩ | ⟨hn, hall⟩
  · have hji : j ≠ i := by
      rintro rfl
      simp [Player.Alive, hpc] at hj
    refine .inl ⟨j, (alive_of_ne hji).mpr hj, ?_⟩
    simpa [hji] using hlt
  · refine .inr ⟨hn, fun j hj => ?_⟩
    have hji : j ≠ i := by
      rintro rfl
      simp only [Function.update_self] at hj
      exact hdead hj
    simpa [hji] using hall j ((alive_of_ne hji).mp hj)

theorem eliminating_move {s : State N} (h : Inv s) {i : Fin N} {g' : Game N} {p' : Player}
    (hm : Move i s.shared (s.locals i) g' p') (hphase : g'.barrier.generation % 4 = 2)
    (hgen : g'.barrier.generation = s.shared.barrier.generation) :
    Elimination ⟨g', Function.update s.locals i p'⟩ := by
  have harr := move_arrivals h hm
  rw [hgen] at hphase
  have he := h.eliminating hphase
  have hi := h.players i
  cases hm with
  | leave stop gen hpc hlt =>
    cases stop <;> simp only [hpc, Pc.offset] at harr
    case maximum =>
      exact he.local_step rfl (by simp [Player.Alive, Player.leave, Player.goto, hpc])
        (by simp [Player.Alive, Player.leave, Player.goto, hpc])
        (by simp [Player.leave, Player.goto]) (by simp [Player.leave, Player.goto])
    all_goals omega
  | arrive stop serial hpc =>
    cases stop <;> simp only [hpc, Pc.offset] at harr
    case eliminated =>
      exact he.local_step rfl (by simp [Player.Alive, Player.goto, hpc])
        (by simp [Player.Alive, Player.goto, hpc]) (by simp [Player.goto]) (by simp [Player.goto])
    all_goals omega
  | skip hpc hl | readCount hpc hl | escape c hpc hc | survive hpc hr =>
    exact he.local_step rfl (by simp [Player.Alive, Player.goto, hpc])
      (by simp [Player.Alive, Player.goto, hpc]) (by simp [Player.goto]) (by simp [Player.goto])
  | check c hpc hc =>
    simp only [PlayerOk, hpc] at hi
    apply he.local_step rfl (by simp [Player.Alive, Player.goto, hpc])
      (by simp [Player.Alive, Player.goto, hpc]) (by simp [Player.goto])
    intro hn
    exact absurd (hi.2.2.trans hn) hc
  | lose hpc hr =>
    apply he.local_step rfl (by simp [Player.Alive, Player.goto, hpc])
      (by simp [Player.Alive, Player.goto, hpc]) (by simp [Player.goto])
    intro _ _ _ hread
    exact absurd hpc hread
  | setLoser hpc =>
    exact he.local_step rfl (by simp [Player.Alive]) (by simp [Player.Alive, hpc])
      (by simp) (by simp)
  | decrement hpc => exact he.decrement hi hpc (by simp [Player.goto])
  | clearRoll hpc =>
    exact he.clearRoll hpc (by simp [Player.Alive, Player.goto]) (by simp [Player.goto])
  | _ =>
    simp only [*, Pc.offset] at harr
    omega

theorem inv_init [NeZero N] : Inv (init N) := by
  have hpos : 0 < N := Nat.pos_of_ne_zero (NeZero.ne N)
  refine ⟨.init fun _ => rfl, fun i => ⟨rfl, fun _ => rfl⟩, rfl, ?_, ?_, ?_, ?_⟩
  · simp [init, tally, Player.Alive]
  · simp only [init]
    omega
  · intro h
    cases h
  · intro h
    cases h

theorem pos_move {s : State N} (h : Inv s) {i : Fin N} {g' : Game N} {p' : Player}
    (hm : Move i s.shared (s.locals i) g' p') : 1 ≤ g'.state.n := by
  have hpos := h.pos
  have hn' := n_move h hm
  cases hm with
  | decrement hpc =>
    have harr := move_arrivals h (.decrement hpc)
    simp only [hpc, Pc.offset] at harr
    have hphase : s.shared.barrier.generation % 4 = 2 := by omega
    have he := eliminating_move h (.decrement hpc) hphase rfl
    rcases he.split with ⟨j, hj, -⟩ | ⟨hn, -⟩
    · -- a player below the maximum stays in the game
      have hlive : 0 < tally Player.Alive (Function.update s.locals i _) := tally_pos hj
      rw [hn']
      omega
    · rw [← hn]
      exact he.count_pos
  | compute k hpc => rwa [count_n]
  | _ => exact hpos

theorem players_move {s : State N} (h : Inv s) {i : Fin N} {g' : Game N} {p' : Player}
    (hm : Move i s.shared (s.locals i) g' p') (j : Fin N) :
    PlayerOk g' j (Function.update s.locals i p' j) := by
  by_cases hji : j = i
  · subst hji
    rw [Function.update_self]
    exact playerOk_move h hm
  · rw [Function.update_of_ne hji]
    exact playerOk_other h hm hji

theorem eliminating_start {s : State N} (h : Inv s) {i : Fin N} {g' : Game N} {p' : Player}
    (hm : Move i s.shared (s.locals i) g' p') (hphase : g'.barrier.generation % 4 = 2)
    (hgen : g'.barrier.generation ≠ s.shared.barrier.generation) :
    Elimination ⟨g', Function.update s.locals i p'⟩ := by
  have harr := move_arrivals h hm
  have hplayers := players_move h hm
  have hn' := n_move h hm
  have hpos' := pos_move h hm
  cases hm with
  | arrive stop serial hpc =>
    obtain ⟨hnext, -, hall⟩ := arrive_completes h serial hpc hgen
    rw [hnext] at hphase
    obtain ⟨j, -, hstage⟩ := h.computing (by omega)
    have hstop : stop = .maximum := by
      cases stop <;> simp only [hpc, Pc.offset] at harr
      case maximum => rfl
      all_goals omega
    subst hstop
    refine elimination_of_maxOver hplayers hn' hpos' ?_ hall
    obtain ⟨gen, hj⟩ := hall j
    by_cases hji : j = i
    · subst hji
      exact hstage.of_arrive hpc
    · rw [Function.update_of_ne hji] at hj
      exact hstage.of_await hj
  | _ => exact absurd rfl hgen

theorem inv_step {s t : State N} {a : Action N} (h : Inv s) (ht : step s a = some t) : Inv t := by
  obtain ⟨g', p', hm, rfl⟩ := step_move ht
  have hmaxN : g'.state.maxN = N := by
    cases hm with
    | compute k hpc => simpa using h.maxN
    | _ => exact h.maxN
  refine ⟨sync_move h hm, players_move h hm, hmaxN, n_move h hm, pos_move h hm,
    computing_move h hm, fun hphase => ?_⟩
  by_cases hgen : g'.barrier.generation = s.shared.barrier.generation
  · exact eliminating_move h hm hphase hgen
  · exact eliminating_start h hm hphase hgen

theorem reachable_inv [NeZero N] {s : State N} (h : Reachable step (init N) s) : Inv s :=
  Reachable.invariant Inv h inv_init fun _ _ _ => inv_step

end PsOs.DiceGame
