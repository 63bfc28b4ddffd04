import PsOs.DiceLockstep

namespace PsOs.DiceGame

open Threads TransitionSystems

variable {N : ℕ} {s t : State N} {os : List String}

def announcement (s : State N) (a : Action N) : List String :=
  match (s.locals a.player).pc with
  | .compute k =>
    if s.shared.state.maxN ≤ k ∧ s.shared.state.currentMaxCount = s.shared.state.n then
      ["Repeating round"]
    else []
  | _ => []

def announcements (as : List (Action N)) : List String := trace step announcement (init N) as

def Pc.counted : Pc → Bool
  | .arrive .maximum | .await .maximum _ => true
  | _ => false

def Pc.undecided : Pc → Bool
  | .await .maximum _ | .readCount | .readN _ | .readRoll | .decrement => true
  | _ => false

/-- Each of the first `k` rounds has been announced as repeated or has cost a player. -/
def Accounted (k : ℕ) (os : List String) (s : State N) : Prop :=
  (k : ℤ) + s.shared.state.n ≤ N + os.length

def Owing (s : State N) : Prop :=
  s.shared.state.currentMaxCount ≠ s.shared.state.n ∧ ∃ i, (s.locals i).loser = false ∧
    s.shared.state.rolls i = s.shared.state.currentMax ∧ (s.locals i).pc.undecided = true

structure Charged (os : List String) (s : State N) : Prop where
  begun : Accounted (s.shared.barrier.generation / 4) os s
  counted : s.shared.barrier.generation % 4 = 1 → ∀ i, s.shared.serial = some i →
    (s.locals i).pc.counted = true → Accounted (s.shared.barrier.generation / 4 + 1) os s ∨
      s.shared.state.currentMaxCount ≠ s.shared.state.n
  eliminating : s.shared.barrier.generation % 4 = 2 →
    Accounted (s.shared.barrier.generation / 4 + 1) os s ∨ Owing s
  eliminated : s.shared.barrier.generation % 4 = 3 →
    Accounted (s.shared.barrier.generation / 4 + 1) os s

section Moves

variable {i : Fin N} {g' : Game N} {p' : Player}

theorem n_le (hm : Move i s.shared (s.locals i) g' p') : g'.state.n ≤ s.shared.state.n := by
  cases hm with
  | decrement hpc => exact Int.sub_le_self _ Int.one_nonneg
  | compute k hpc => rw [count_n]
  | _ => exact le_refl _

theorem Accounted.move {k : ℕ} (h : Accounted k os s) (hm : Move i s.shared (s.locals i) g' p')
    (out : List String) : Accounted k (os ++ out) ⟨g', Function.update s.locals i p'⟩ := by
  have hle := n_le hm
  unfold Accounted at h ⊢
  rw [List.length_append]
  push_cast
  omega

theorem Owing.move (h : Owing s) (hinv : Inv s) (hphase : s.shared.barrier.generation % 4 = 2)
    (hm : Move i s.shared (s.locals i) g' p') :
    g'.state.n + 1 = s.shared.state.n ∨ Owing ⟨g', Function.update s.locals i p'⟩ := by
  have harr := move_arrivals hinv hm
  obtain ⟨hcount, j, hl, hr, hj⟩ := h
  have hplayer := hinv.players i
  have hstay : ∀ (g' : Game N) (p' : Player), g'.state.currentMaxCount ≠ g'.state.n →
      g'.state.rolls j = g'.state.currentMax →
      (j = i → p'.loser = false ∧ p'.pc.undecided = true) →
        Owing ⟨g', Function.update s.locals i p'⟩ := by
    intro g' p' hcount hr hself
    refine ⟨hcount, j, ?_⟩
    by_cases hji : j = i
    · subst hji
      simp only [Function.update_self]
      exact ⟨(hself rfl).1, hr, (hself rfl).2⟩
    · simp only [Function.update_of_ne hji]
      exact ⟨hl, hr, hj⟩
  have hother : ∀ pc : Pc, (s.locals i).pc = pc → pc.undecided = false → j ≠ i := by
    rintro pc hpc hdecided rfl
    rw [hpc, hdecided] at hj
    cases hj
  cases hm with
  | decrement hpc => exact .inl (Int.sub_add_cancel _ _)
  | leave stop gen hpc hlt =>
    cases stop <;> simp only [hpc, Pc.offset] at harr
    case maximum =>
      exact .inr (hstay _ _ hcount hr fun hji => ⟨hji ▸ hl, rfl⟩)
    all_goals omega
  | arrive stop serial hpc =>
    exact .inr (hstay _ _ hcount hr fun hji => absurd hji (hother _ hpc rfl))
  | skip hpc hloser =>
    refine .inr (hstay _ _ hcount hr fun hji => ?_)
    rw [← hji, hl] at hloser
    cases hloser
  | readCount hpc hloser => exact .inr (hstay _ _ hcount hr fun _ => ⟨hloser, rfl⟩)
  | check count hpc hc => exact .inr (hstay _ _ hcount hr fun hji => ⟨hji ▸ hl, rfl⟩)
  | lose hpc hroll => exact .inr (hstay _ _ hcount hr fun hji => ⟨hji ▸ hl, rfl⟩)
  | escape count hpc hc =>
    simp only [PlayerOk, hpc] at hplayer
    exact absurd (hplayer.2.2.symm.trans hc) hcount
  | survive hpc hroll =>
    refine .inr (hstay _ _ hcount hr fun hji => ?_)
    rw [← hji] at hroll
    exact absurd hr hroll
  | clearRoll hpc =>
    have hji := hother _ hpc rfl
    have hsame : Function.update s.shared.state.rolls i 0 j = s.shared.state.currentMax := by
      rw [Function.update_of_ne hji, hr]
    exact .inr (hstay _ _ hcount hsame fun heq => absurd heq hji)
  | setLoser hpc => exact .inr (hstay _ _ hcount hr fun hji => absurd hji (hother _ hpc rfl))
  | _ =>
    simp only [*, Pc.offset] at harr
    omega

theorem counted_other (hinv : Inv s) (hphase : s.shared.barrier.generation % 4 = 1)
    (hserial : s.shared.serial ≠ some i) (hm : Move i s.shared (s.locals i) g' p') :
    g'.state.currentMaxCount = s.shared.state.currentMaxCount ∧ g'.state.n = s.shared.state.n := by
  have harr := move_arrivals hinv hm
  have hplayer := hinv.players i
  cases hm with
  | resetMax hpc | compute k hpc =>
    simp only [PlayerOk, hpc] at hplayer
    exact absurd hplayer.2 hserial
  | decrement hpc =>
    simp only [hpc, Pc.offset] at harr
    omega
  | _ => exact ⟨rfl, rfl⟩

theorem serial_eq (hm : Move i s.shared (s.locals i) g' p')
    (hgen : g'.barrier.generation = s.shared.barrier.generation) :
    g'.serial = s.shared.serial := by
  cases hm with
  | arrive stop serial hpc => exact arrive_serial_eq serial hgen
  | _ => rfl

end Moves

namespace Charged

variable {g' : Game N} {p' : Player}

theorem counted_move {a : Action N} (h : Charged os s) (hinv : Inv s)
    (hm : Move a.player s.shared (s.locals a.player) g' p')
    (hphase : s.shared.barrier.generation % 4 = 1) {j : Fin N} (hserial : s.shared.serial = some j)
    (hj : (Function.update s.locals a.player p' j).pc.counted = true) :
    Accounted (s.shared.barrier.generation / 4 + 1) (os ++ announcement s a)
        ⟨g', Function.update s.locals a.player p'⟩ ∨
      g'.state.currentMaxCount ≠ g'.state.n := by
  have hbefore : (s.locals j).pc.counted = true →
      Accounted (s.shared.barrier.generation / 4 + 1) (os ++ announcement s a)
          ⟨g', Function.update s.locals a.player p'⟩ ∨
        s.shared.state.currentMaxCount ≠ s.shared.state.n := fun hpc =>
    (h.counted hphase j hserial hpc).imp_left fun haccounted => haccounted.move hm _
  by_cases hji : j = a.player
  · subst hji
    rw [Function.update_self] at hj
    cases hm with
    | computed k hpc hk =>
      by_cases hsame : s.shared.state.currentMaxCount = s.shared.state.n
      · have hout : announcement s a = ["Repeating round"] := by simp [announcement, hpc, hk, hsame]
        have hbegun := h.begun
        left
        unfold Accounted at hbegun ⊢
        rw [hout, List.length_append, List.length_singleton]
        push_cast
        omega
      · exact .inr hsame
    | arrive stop serial hpc =>
      cases stop with
      | maximum => exact hbefore (by rw [hpc]; rfl)
      | _ => cases hj
    | leave stop gen hpc hlt =>
      cases stop with
      | rolled => simp [Player.leave, Player.goto, hserial, Pc.counted] at hj
      | _ => cases hj
    | _ => cases hj
  · rw [Function.update_of_ne hji] at hj
    have hother : s.shared.serial ≠ some a.player := by
      rw [hserial]
      exact fun heq => hji (Option.some.inj heq)
    obtain ⟨hcount, hn⟩ := counted_other hinv hphase hother hm
    rw [hcount, hn]
    exact hbefore hj

theorem generation {i : Fin N} {stop : Stop} {serial : Fin N} (h : Charged os s) (hinv : Inv s)
    (hpc : (s.locals i).pc = .arrive stop)
    (hgen : (s.shared.arrive serial).barrier.generation ≠ s.shared.barrier.generation)
    (hinv' : Inv ⟨s.shared.arrive serial, Function.update s.locals i
      ((s.locals i).goto (.await stop s.shared.barrier.generation))⟩) :
    Charged os ⟨s.shared.arrive serial, Function.update s.locals i
      ((s.locals i).goto (.await stop s.shared.barrier.generation))⟩ := by
  obtain ⟨hnext, hserial, hall⟩ := arrive_completes hinv serial hpc hgen
  have harr := move_arrivals hinv (.arrive stop serial hpc)
  have hbegun := h.begun
  cases stop <;> simp only [hpc, Pc.offset] at harr
  case rolled =>
    refine ⟨?_, fun _ j _ hj => ?_, fun hphase => ?_, fun hphase => ?_⟩
    · simp only [hnext]
      rwa [show (s.shared.barrier.generation + 1) / 4 = s.shared.barrier.generation / 4 by omega]
    · obtain ⟨gen, hawait⟩ := hall j
      simp only [hawait, Pc.counted] at hj
      cases hj
    · simp only [hnext] at hphase
      omega
    · simp only [hnext] at hphase
      omega
  case maximum =>
    have hround : (s.shared.barrier.generation + 1) / 4 = s.shared.barrier.generation / 4 := by omega
    refine ⟨?_, fun hphase => ?_, fun hphase => ?_, fun hphase => ?_⟩
    · simp only [hnext]
      rwa [hround]
    · simp only [hnext] at hphase
      omega
    · have he := hinv'.eliminating hphase
      obtain ⟨j, hj, -⟩ := hinv.computing (by omega)
      have hcounted : (s.locals j).pc.counted = true := by
        obtain ⟨gen, hawait⟩ := hall j
        by_cases hji : j = i
        · rw [hji, hpc]
          rfl
        · rw [Function.update_of_ne hji] at hawait
          rw [hawait]
          rfl
      simp only [hnext, hround]
      obtain haccounted | hcount := h.counted (by omega) j hj hcounted
      · exact .inl haccounted
      · obtain hzero | ⟨k, -, hk⟩ := (he.fresh hall).attained
        · have hpos := he.max_pos
          omega
        · obtain ⟨gen, hawait⟩ := hall k
          refine .inr ⟨hcount, k, ?_, hk, ?_⟩
          · have hplayer := hinv'.players k
            have hpos := he.max_pos
            simp only [PlayerOk, hawait] at hplayer
            rw [← Bool.not_eq_true]
            intro hloser
            have hzero := hk.symm.trans (hplayer.1.2.mpr hloser)
            omega
          · simp only [hawait, Pc.undecided]
    · simp only [hnext] at hphase
      omega
  case eliminated =>
    refine ⟨?_, fun hphase => ?_, fun hphase => ?_, fun hphase => ?_⟩
    · simp only [hnext]
      rwa [show (s.shared.barrier.generation + 1) / 4 = s.shared.barrier.generation / 4 by omega]
    · simp only [hnext] at hphase
      omega
    · simp only [hnext] at hphase
      omega
    · simp only [hnext]
      rw [show (s.shared.barrier.generation + 1) / 4 = s.shared.barrier.generation / 4 by omega]
      obtain haccounted | ⟨-, j, -, -, hj⟩ := h.eliminating (by omega)
      · exact haccounted
      · obtain ⟨gen, hawait⟩ := hall j
        by_cases hji : j = i
        · rw [hji, hpc] at hj
          cases hj
        · rw [Function.update_of_ne hji] at hawait
          rw [hawait] at hj
          cases hj
  case printed =>
    refine ⟨?_, fun hphase => ?_, fun hphase => ?_, fun hphase => ?_⟩
    · simp only [hnext]
      rw [show (s.shared.barrier.generation + 1) / 4 = s.shared.barrier.generation / 4 + 1 by omega]
      exact h.eliminated (by omega)
    all_goals
      simp only [hnext] at hphase
      omega

theorem step {a : Action N} (h : Charged os s) (hinv : Inv s) (ht : step s a = some t) :
    Charged (os ++ announcement s a) t := by
  have hinv' := inv_step hinv ht
  obtain ⟨g', p', hm, rfl⟩ := step_move ht
  by_cases hgen : g'.barrier.generation = s.shared.barrier.generation
  · have hserial := serial_eq hm hgen
    constructor <;> simp only [hgen]
    · exact h.begun.move hm _
    · intro hphase j hj hpc
      exact h.counted_move hinv hm hphase (hserial ▸ hj) hpc
    · intro hphase
      obtain haccounted | howing := h.eliminating hphase
      · exact .inl (haccounted.move hm _)
      · obtain hn | howing := howing.move hinv hphase hm
        · have hbegun := h.begun
          left
          unfold Accounted at hbegun ⊢
          rw [List.length_append]
          push_cast
          omega
        · exact .inr howing
    · exact fun hphase => (h.eliminated hphase).move hm _
  · cases hm with
    | arrive stop serial hpc =>
      have hnone : announcement s a = [] := by simp [announcement, hpc]
      rw [hnone, List.append_nil]
      exact h.generation hinv hpc hgen hinv'
    | _ => exact absurd rfl hgen

end Charged

def Pc.index (N : ℕ) : Pc → ℕ
  | .guard => 0
  | .roll | .exited => 1
  | .arrive .rolled => 2
  | .await .rolled _ => 3
  | .resetMax => 4
  | .compute k => 5 + min k N
  | .arrive .maximum => N + 6
  | .await .maximum _ => N + 7
  | .readCount => N + 8
  | .readN _ => N + 9
  | .readRoll => N + 10
  | .decrement => N + 11
  | .clearRoll => N + 12
  | .setLoser => N + 13
  | .arrive .eliminated => N + 14
  | .await .eliminated _ => N + 15
  | .arrive .printed => N + 16
  | .await .printed _ => N + 17

def Player.progress (N : ℕ) (p : Player) : ℕ := p.rounds * (N + 18) + p.pc.index N

theorem progress_move {i : Fin N} {g' : Game N} {p' : Player}
    (hm : Move i s.shared (s.locals i) g' p') (hmaxN : s.shared.state.maxN = N) :
    (s.locals i).progress N < p'.progress N := by
  cases hm with
  | leave stop gen hpc hlt =>
    cases stop with
    | rolled =>
      simp only [Player.progress, Player.leave, Player.goto, hpc]
      split <;> simp only [Pc.index] <;> omega
    | printed =>
      simp only [Player.progress, Player.leave, hpc, Pc.index, Nat.succ_mul]
      omega
    | _ =>
      simp only [Player.progress, Player.leave, Player.goto, hpc, Pc.index]
      omega
  | arrive stop serial hpc =>
    cases stop <;> simp only [Player.progress, Player.goto, hpc, Pc.index] <;> omega
  | compute k hpc =>
    have hlt := k.isLt
    simp only [Player.progress, Player.goto, hpc, Pc.index]
    omega
  | _ =>
    simp only [Player.progress, Player.goto, Pc.index, *]
    omega

theorem progress_step {a : Action N} (h : Inv s) (ht : step s a = some t) :
    ∑ i, (s.locals i).progress N < ∑ i, (t.locals i).progress N := by
  obtain ⟨g', p', hm, rfl⟩ := step_move ht
  have hlt := progress_move hm h.maxN
  have hsum := sum_update (Player.progress N) s.locals a.player p'
  simp only
  omega

theorem rounds_le (h : Inv s) (i : Fin N) :
    (s.locals i).rounds ≤ s.shared.barrier.generation / 4 := by
  obtain hphase | ⟨hw, hphase⟩ := phase h i
  · omega
  · have hpos : 1 ≤ (s.locals i).pc.offset := by
      cases hpc : (s.locals i).pc with
      | await stop gen => cases stop <;> simp [Pc.offset]
      | _ =>
        rw [hpc] at hw
        cases hw
    omega

theorem progress_lt (p : Player) : p.progress N < (p.rounds + 1) * (N + 18) := by
  have hindex : p.pc.index N < N + 18 := by
    cases p.pc with
    | arrive stop | await stop gen => cases stop <;> simp only [Pc.index] <;> omega
    | _ =>
      simp only [Pc.index]
      omega
  rw [Player.progress, Nat.succ_mul]
  omega

/-- At most `N - 1` rounds are not announced as repeated, and then the game is over. -/
theorem ends_of_run (hN : 1 ≤ N) {as : List (Action N)} (hrun : run step (init N) as = some s) :
    (∀ i, (s.locals i).rounds + 1 ≤ N + (announcements as).length) ∧
      as.length ≤ N * ((N + (announcements as).length) * (N + 18)) ∧
      ((∀ a, step s a = none) → (∀ i, (s.locals i).pc = .exited) ∧ ∃! i, (s.locals i).won = true) := by
  have : NeZero N := ⟨by omega⟩
  let R : List String → State N → Prop := fun os u => Inv u ∧ Charged os u
  have hstart : R [] (init N) := by
    refine ⟨inv_init, ?_, fun h => ?_, fun h => ?_, fun h => ?_⟩
    · simp [Accounted, init, Barrier.init]
    all_goals cases h
  have hstep : ∀ os u a v, R os u → step u a = some v → R (os ++ announcement u a) v :=
    fun _ _ _ _ hu huv => ⟨inv_step hu.1 huv, hu.2.step hu.1 huv⟩
  obtain ⟨hinv, hcharged⟩ := trace_invariant R hstep hstart hrun
  have hrounds : ∀ i, (s.locals i).rounds + 1 ≤ N + (announcements as).length := by
    intro i
    have hbegun : Accounted _ (announcements as) s := hcharged.begun
    have hle := rounds_le hinv i
    have hpos := hinv.pos
    unfold Accounted at hbegun
    omega
  refine ⟨hrounds, ?_, fun hstuck => ?_⟩
  · have hlength := length_add_le_of_run (fun _ _ _ hu huv => inv_step hu huv)
      (fun _ _ _ hu huv => progress_step hu huv) inv_init hrun
    have hone : ∀ i, (s.locals i).progress N ≤ 0 + (N + (announcements as).length) * (N + 18) := by
      intro i
      have hlt := progress_lt (N := N) (s.locals i)
      have hle := Nat.mul_le_mul_right (N + 18) (hrounds i)
      omega
    have hsum := sum_le_sum_add (fun k : ℕ => k) hone
    simp only [Finset.sum_const_zero, Fintype.card_fin] at hsum
    rw [Nat.mul_comm N]
    omega
  · have hlockstep := hinv.lockstep
    have hexited : ∀ i, (s.locals i).pc = .exited := by
      by_contra hnot
      obtain ⟨i, hi⟩ := not_forall.mp hnot
      obtain ⟨a, ha⟩ := hlockstep.progress ⟨i, hi⟩
      rw [hstuck a] at ha
      cases ha
    exact ⟨hexited, hlockstep.winner hexited⟩

theorem ends_twoPlayers : ∃ s : State 2, run step (init 2) twoPlayers = some s ∧
    (∀ i, (s.locals i).rounds + 1 ≤ 2 + (announcements twoPlayers).length) ∧
      (∀ i, (s.locals i).pc = .exited) ∧ ∃! i, (s.locals i).won = true := by
  have hrun : (run step (init 2) twoPlayers).any (fun s => decide (∀ i, (s.locals i).pc = .exited)) =
      true := by decide +kernel
  obtain ⟨s, hs, hp⟩ := (Option.any_eq_true _ _).mp hrun
  obtain ⟨hrounds, -, hend⟩ := ends_of_run (by decide) hs
  have hstuck : ∀ a, step s a = none := by
    intro a
    simp [step, Config.move, stepPlayer, of_decide_eq_true hp a.player]
  exact ⟨s, hs, hrounds, hend hstuck⟩

end PsOs.DiceGame
