import Mathlib.Data.Fin.VecNotation
import PsOs.DiceElimination

namespace PsOs.DiceGame

open Threads TransitionSystems

variable {N : ℕ}

section Sequential

variable {i : Fin N} {m : ℤ} {f : Fin N → Player} {g : Game N} {p : Player}

def CanSettle (i : Fin N) (m : ℤ) (f : Fin N → Player) (g : Game N) (p : Player) : Prop :=
  ∃ g' p' gen, Reachable step ⟨g, Function.update f i p⟩ ⟨g', Function.update f i p'⟩ ∧
    p'.pc = .await .eliminated gen ∧ p'.rounds = p.rounds ∧
    g.barrier.generation ≤ g'.barrier.generation ∧
    g'.state.currentMaxCount = m ∧ m ≤ g'.state.n

theorem CanSettle.of_step (g' : Game N) (p' : Player)
    (hstep : stepPlayer ⟨i, 0, i⟩ g p = some (g', p')) (hrounds : p'.rounds = p.rounds)
    (hgen : g'.barrier.generation = g.barrier.generation) (h : CanSettle i m f g' p') :
    CanSettle i m f g p := by
  obtain ⟨g'', p'', gen, hreach, hpc, hr, hgen', hrest⟩ := h
  have hfirst : step ⟨g, Function.update f i p⟩ ⟨i, 0, i⟩ =
      some ⟨g', Function.update f i p'⟩ :=
    Config.move_eq_some.mpr ⟨g', p', by simpa using hstep, by simp⟩
  exact ⟨g'', p'', gen, (Reachable.refl.tail hfirst).trans hreach, hpc, hr.trans hrounds,
    hgen.symm.le.trans hgen', hrest⟩

theorem arrive_generation_le (serial : Fin N) (g : Game N) :
    g.barrier.generation ≤ (g.arrive serial).barrier.generation := by
  unfold Game.arrive Barrier.arrive
  dsimp only
  split <;> simp

theorem canSettle_arrive (hpc : p.pc = .arrive .eliminated)
    (hcount : g.state.currentMaxCount = m) (hn : m ≤ g.state.n) : CanSettle i m f g p := by
  have hstep : step ⟨g, Function.update f i p⟩ ⟨i, 0, i⟩ = some ⟨g.arrive i,
      Function.update f i (p.goto (.await .eliminated g.barrier.generation))⟩ :=
    Config.move_eq_some.mpr ⟨g.arrive i, p.goto (.await .eliminated g.barrier.generation),
      by simp [stepPlayer, hpc], by simp⟩
  exact ⟨_, _, _, Reachable.refl.tail hstep, rfl, rfl, arrive_generation_le i g, hcount, hn⟩

theorem canSettle_decrement (hpc : p.pc = .decrement)
    (hcount : g.state.currentMaxCount = m) (hn : m < g.state.n) : CanSettle i m f g p := by
  let st : GameState N := { g.state with n := g.state.n - 1 }
  refine .of_step { g with state := st } (p.goto .clearRoll) (by simp [stepPlayer, hpc, st])
    rfl rfl ?_
  refine .of_step { g with state := { st with rolls := Function.update st.rolls i 0 } }
    (p.goto .setLoser) rfl rfl rfl ?_
  refine .of_step _ ⟨.arrive .eliminated, true, p.won, p.rounds⟩ rfl rfl rfl ?_
  refine canSettle_arrive rfl hcount ?_
  change m ≤ g.state.n - 1
  omega

theorem canSettle_readN (hpc : p.pc = .readN m)
    (hcount : g.state.currentMaxCount = m) (hn : m ≤ g.state.n) : CanSettle i m f g p := by
  by_cases hm : m = g.state.n
  · refine .of_step g (p.goto (.arrive .eliminated)) (by simp [stepPlayer, hpc, hm]) rfl rfl ?_
    exact canSettle_arrive rfl hcount hn
  · refine .of_step g (p.goto .readRoll) (by simp [stepPlayer, hpc, hm]) rfl rfl ?_
    by_cases hr : g.state.rolls i = g.state.currentMax
    · refine .of_step g (p.goto .decrement) (by simp [stepPlayer, Player.goto, hr]) rfl rfl ?_
      exact canSettle_decrement rfl hcount (lt_of_le_of_ne hn hm)
    · refine .of_step g (p.goto (.arrive .eliminated)) (by simp [stepPlayer, Player.goto, hr])
        rfl rfl ?_
      exact canSettle_arrive rfl hcount hn

theorem canSettle_await {gen : ℕ} (hpc : p.pc = .await .maximum gen)
    (hgen : gen < g.barrier.generation) (hcount : g.state.currentMaxCount = m)
    (hn : m ≤ g.state.n) : CanSettle i m f g p := by
  refine .of_step g (p.goto .readCount) (by simp [stepPlayer, hpc, hgen, Player.leave]) rfl rfl ?_
  cases hl : p.loser with
  | true =>
    refine .of_step g (p.goto (.arrive .eliminated)) (by simp [stepPlayer, Player.goto, hl])
      rfl rfl ?_
    exact canSettle_arrive rfl hcount hn
  | false =>
    refine .of_step g (p.goto (.readN g.state.currentMaxCount))
      (by simp [stepPlayer, Player.goto, hl]) rfl rfl ?_
    exact canSettle_readN (by rw [hcount]; rfl) hcount hn

theorem exists_sequential {s : State N} (l : List (Fin N)) (hl : l.Nodup)
    (hcount : s.shared.state.currentMaxCount = m) (hn : m ≤ s.shared.state.n)
    (hwait : ∀ j ∈ l, ∃ gen, (s.locals j).pc = .await .maximum gen ∧
      gen < s.shared.barrier.generation) :
    ∃ t, Reachable step s t ∧ m ≤ t.shared.state.n ∧
      (∀ j ∈ l, ∃ gen, (t.locals j).pc = .await .eliminated gen ∧
        (t.locals j).rounds = (s.locals j).rounds) ∧ ∀ j ∉ l, t.locals j = s.locals j := by
  induction l generalizing s with
  | nil => exact ⟨s, .refl, hn, by simp, fun _ _ => rfl⟩
  | cons i l ih =>
    obtain ⟨hil, hl⟩ := List.nodup_cons.mp hl
    obtain ⟨gen, hpc, hgen⟩ := hwait i (by simp)
    obtain ⟨g', p', gen', hreach, hpc', hr, hgen', hcount', hn'⟩ :=
      canSettle_await (i := i) (f := s.locals) hpc hgen hcount hn
    rw [Function.update_eq_self] at hreach
    obtain ⟨t, ht, hnt, hdone, hothers⟩ := ih (s := ⟨g', Function.update s.locals i p'⟩) hl
      hcount' hn' fun j hj => by
        have hji : j ≠ i := by
          rintro rfl
          exact hil hj
        obtain ⟨gen, hpc, hgen⟩ := hwait j (List.mem_cons_of_mem _ hj)
        exact ⟨gen, by simpa [hji] using hpc, hgen.trans_le hgen'⟩
    refine ⟨t, hreach.trans ht, hnt, fun j hj => ?_, fun j hj => ?_⟩
    · by_cases hji : j = i
      · subst hji
        rw [hothers j hil]
        exact ⟨gen', by simpa using hpc', by simpa using hr⟩
      · obtain ⟨gen, hpc, hr⟩ := hdone j ((List.mem_cons.mp hj).resolve_left hji)
        exact ⟨gen, hpc, by simpa [hji] using hr⟩
    · simp only [List.mem_cons, not_or] at hj
      rw [hothers j hj.2]
      simp [hj.1]

end Sequential

theorem loser_step {s t : State N} {a : Action N} (h : step s a = some t) (i : Fin N)
    (hi : (s.locals i).loser = true) : (t.locals i).loser = true := by
  obtain ⟨g', p', hm, rfl⟩ := step_move h
  by_cases hia : i = a.player
  · subst hia
    simp only [Function.update_self]
    rcases loser_move hm with hl | hpc
    · rw [hl, hi]
    · cases hm <;> simp_all
  · simpa [hia] using hi

theorem loser_mono {s t : State N} (h : Reachable step s t) (i : Fin N)
    (hi : (s.locals i).loser = true) : (t.locals i).loser = true :=
  Reachable.invariant (fun t => (t.locals i).loser = true) h hi fun _ _ _ hl ht =>
    loser_step ht i hl

theorem remaining_eq_sdiff {s t : State N} (h : Reachable step s t) :
    remaining t = remaining s \ eliminated s t := by
  ext i
  have hmono := loser_mono h i
  simp only [Finset.mem_sdiff, mem_remaining, eliminated, Finset.mem_filter, Finset.mem_univ,
    true_and]
  cases hs : (s.locals i).loser <;> cases ht : (t.locals i).loser <;> simp_all

theorem card_of_exact [NeZero N] {s : State N} (h : Inv s) (hs : EliminationStart s)
    (hexact : ∀ t, Reachable step s t →
      t.shared.barrier.generation = s.shared.barrier.generation + 1 →
        eliminated s t = expected s) :
    top s = remaining s ∨ 2 * (top s).card ≤ (remaining s).card := by
  by_cases hsame : top s = remaining s
  · exact .inl hsame
  have hle := Finset.card_le_card (top_subset s)
  obtain ⟨t, hst, hn, hdone, -⟩ := exists_sequential (List.finRange N) (List.nodup_finRange N)
    (hs.count_eq h) (by rw [hs.n_eq h]; exact_mod_cast hle) fun j _ => hs j
  -- in the state after it `n` is the number of players left, but not below that of the top ones
  have ht : Inv t := Reachable.invariant Inv hst h fun _ _ _ => inv_step
  have hgen : t.shared.barrier.generation = s.shared.barrier.generation + 1 := by
    obtain ⟨i, hi⟩ := ht.sync.exists_unblocked
    obtain ⟨gen, hpc, hr⟩ := hdone i (List.mem_finRange i)
    have := (hs.player h i).1
    simp only [Player.place, hpc, Pc.offset] at hi
    omega
  have hphase := (hs.player h 0).1
  rw [remaining_card ht (by omega), remaining_eq_sdiff hst, hexact t hst hgen, expected,
    if_neg hsame, Finset.card_sdiff_of_subset (top_subset s)] at hn
  right
  omega

theorem exact_iff (hN : 1 ≤ N) {s : State N} (h : Reachable step (init N) s)
    (hs : EliminationStart s) :
    (∀ t, Reachable step s t →
      t.shared.barrier.generation = s.shared.barrier.generation + 1 →
        eliminated s t = expected s) ↔
      top s = remaining s ∨ 2 * (top s).card ≤ (remaining s).card := by
  have : NeZero N := ⟨by omega⟩
  have hinv := reachable_inv h
  refine ⟨card_of_exact hinv hs, fun hcond t hst hgen => ?_⟩
  cases reachable_roundInv hinv hs hcond hst with
  | eliminating he => exact absurd he.generation (by omega)
  | settled _ hset => exact hset.eliminated_eq
  | past hlt => omega

def roundStart (rolls : Fin N → ℕ) (serial : Fin N) : List (Action N) :=
  (List.finRange N).flatMap (fun i => solo i (rolls i - 1) 3 serial) ++
    solo serial 0 (N + 4) serial ++
    ((List.finRange N).filter (· ≠ serial)).flatMap fun i => solo i 0 2 serial

def atStart (s : State N) : Bool :=
  decide (s.shared.barrier.generation = 2 ∧ ∀ i, (s.locals i).pc = .await .maximum 1)

theorem eliminationStart_of_atStart {s : State N} (h : atStart s = true) :
    EliminationStart s := by
  obtain ⟨hgen, hpc⟩ := of_decide_eq_true h
  exact fun i => ⟨1, hpc i, by omega⟩

theorem exact_iff_twoPlayers : ∃ s : State 2, EliminationStart s ∧
    ((∀ t, Reachable step s t →
      t.shared.barrier.generation = s.shared.barrier.generation + 1 →
        eliminated s t = expected s) ↔
      top s = remaining s ∨ 2 * (top s).card ≤ (remaining s).card) := by
  obtain ⟨s, hs, hp⟩ := exists_reachable_of_run step (init 2) (roundStart ![6, 1] 0) atStart
    (by decide +kernel)
  have hstart := eliminationStart_of_atStart hp
  exact ⟨s, hstart, exact_iff (by decide) hs hstart⟩

/-- Three players roll 6, 6 and 1. After the first has gone, as many are left as rolled a 6. -/
theorem second_top_roller_escapes : ∃ s t : State 3, Reachable step (init 3) s ∧
    EliminationStart s ∧ Reachable step s t ∧
    t.shared.barrier.generation = s.shared.barrier.generation + 1 ∧
    eliminated s t = {0} ∧ expected s = {0, 1} := by
  obtain ⟨s, t, hs, ht, hp⟩ := exists_reachable_of_runs step (init 3) (roundStart ![6, 6, 1] 0)
    (solo 0 0 8 0 ++ solo 1 0 4 0 ++ solo 2 0 4 0)
    (fun s t => atStart s && decide (t.shared.barrier.generation = 3 ∧ eliminated s t = {0} ∧
      expected s = {0, 1})) (by decide +kernel)
  obtain ⟨hstart, hp⟩ := Bool.and_eq_true_iff.mp hp
  obtain ⟨hgen, hresult⟩ := of_decide_eq_true hp
  have hs2 := (of_decide_eq_true hstart).1
  exact ⟨s, t, hs, eliminationStart_of_atStart hstart, ht, by omega, hresult⟩

end PsOs.DiceGame
