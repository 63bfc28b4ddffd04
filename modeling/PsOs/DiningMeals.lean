import PsOs.DiningPhilosophers

namespace PsOs.DiningPhilosophers

open OrderedLocks Threads TransitionSystems

def meals {N : ℕ} (iterations : ℕ) (as : List (Fin N)) : List (Fin N) :=
  trace (step iterations) (fun s n => if (s.locals n).pc = .eat then [n] else []) (init N) as

def Placed (iterations : ℕ) (p : Philosopher) : Prop :=
  match p.pc with
  | .guard => p.i ≤ iterations
  | .print | .finished => p.i = iterations
  | _ => p.i < iterations

def Philosopher.done (iterations : ℕ) (p : Philosopher) : ℕ :=
  match p.pc with
  | .guard => 6 * p.i
  | .lockFirst => 6 * p.i + 1
  | .lockSecond => 6 * p.i + 2
  | .eat => 6 * p.i + 3
  | .unlockLeft => 6 * p.i + 4
  | .unlockRight => 6 * p.i + 5
  | .print => 6 * iterations + 1
  | .finished => 6 * iterations + 2

def Philosopher.eaten (p : Philosopher) : ℕ :=
  if p.pc = .unlockLeft ∨ p.pc = .unlockRight then p.i + 1 else p.i

variable {N iterations : ℕ} {s t : State N} {n : Fin N}

section Dine

variable {p p' : Philosopher} {chopstick chopstick' : Fin N → Option (Fin N)}

structure Advances (iterations : ℕ) (p p' : Philosopher) : Prop where
  placed : Placed iterations p'
  done : p'.done iterations = p.done iterations + 1
  eaten : p'.eaten = p.eaten + if p.pc = .eat then 1 else 0

theorem dine_advances (h : dine iterations n chopstick p = some (chopstick', p'))
    (hp : Placed iterations p) : Advances iterations p p' := by
  obtain ⟨i, pc⟩ := p
  cases pc <;> simp only [dine, Option.map_eq_some_iff, Option.some.injEq, Prod.mk.injEq] at h
  case guard =>
    obtain ⟨-, rfl⟩ := h
    by_cases hi : i < iterations
    · rw [if_pos hi]
      exact ⟨hi, rfl, rfl⟩
    · have heq : i = iterations := le_antisymm hp (not_lt.mp hi)
      rw [if_neg hi, heq]
      exact ⟨rfl, rfl, rfl⟩
  case lockFirst | lockSecond =>
    obtain ⟨_, -, -, rfl⟩ := h
    exact ⟨hp, rfl, rfl⟩
  case eat | unlockLeft =>
    obtain ⟨-, rfl⟩ := h
    exact ⟨hp, rfl, rfl⟩
  case unlockRight =>
    obtain ⟨-, rfl⟩ := h
    exact ⟨hp, by simp only [Philosopher.done]; omega, rfl⟩
  case print =>
    obtain ⟨-, rfl⟩ := h
    exact ⟨hp, rfl, rfl⟩
  case finished => cases h

theorem done_le (hp : Placed iterations p) : p.done iterations ≤ 6 * iterations + 2 := by
  obtain ⟨i, pc⟩ := p
  cases pc <;> simp only [Placed, Philosopher.done] at hp ⊢ <;> omega

theorem eaten_le (hp : Placed iterations p) : p.eaten ≤ iterations := by
  obtain ⟨i, pc⟩ := p
  cases pc <;> simp [Placed, Philosopher.eaten] at hp ⊢ <;> omega

theorem placed_update {locals : Fin N → Philosopher} (h : ∀ m, Placed iterations (locals m))
    (hp : Placed iterations p') (m : Fin N) : Placed iterations (Function.update locals n p' m) := by
  by_cases hm : m = n
  · subst hm
    rwa [Function.update_self]
  · rw [Function.update_of_ne hm]
    exact h m

end Dine

/-- The steps taken so far, together and by each philosopher. -/
structure Served (iterations steps : ℕ) (s : State N) : Prop where
  placed : ∀ n, Placed iterations (s.locals n)
  steps : ∑ n, (s.locals n).done iterations = steps

theorem Served.step {k : ℕ} (h : Served iterations k s) (ht : step iterations s n = some t) :
    Served iterations (k + 1) t := by
  obtain ⟨chopstick, p', hdine, rfl⟩ := Config.move_eq_some.mp ht
  obtain ⟨hplaced, hdone, -⟩ := dine_advances hdine (h.placed n)
  refine ⟨placed_update h.placed hplaced, ?_⟩
  have hsum := sum_update (Philosopher.done iterations) s.locals n p'
  have hsteps := h.steps
  dsimp only at hsum ⊢
  omega

theorem Served.run {k : ℕ} (h : Served iterations k s) {as : List (Fin N)}
    (ht : run (DiningPhilosophers.step iterations) s as = some t) :
    Served iterations (k + as.length) t := by
  induction as generalizing s k with
  | nil =>
    cases ht
    exact h
  | cons n as ih =>
    obtain ⟨u, hu, ht⟩ := Option.bind_eq_some_iff.mp ht
    have hrest := ih (h.step hu) ht
    rwa [Nat.add_right_comm] at hrest

theorem Served.init : Served iterations 0 (init N) := by
  refine ⟨fun n => Nat.zero_le _, ?_⟩
  simp [DiningPhilosophers.init, Philosopher.done]

def Counted (iterations : ℕ) (os : List (Fin N)) (s : State N) : Prop :=
  (∀ n, Placed iterations (s.locals n)) ∧ ∀ n, os.count n = (s.locals n).eaten

theorem Counted.step {os : List (Fin N)} (h : Counted iterations os s)
    (ht : step iterations s n = some t) :
    Counted iterations (os ++ if (s.locals n).pc = .eat then [n] else []) t := by
  obtain ⟨chopstick, p', hdine, rfl⟩ := Config.move_eq_some.mp ht
  obtain ⟨hplaced, -, heaten⟩ := dine_advances hdine (h.1 n)
  refine ⟨placed_update h.1 hplaced, fun m => ?_⟩
  change _ = (Function.update s.locals n p' m).eaten
  rw [List.count_append, h.2 m]
  by_cases hm : m = n
  · subst hm
    rw [Function.update_self, heaten]
    split <;> simp
  · rw [Function.update_of_ne hm]
    split <;> simp [Ne.symm hm]

theorem count_meals {as : List (Fin N)} (hrun : run (step iterations) (init N) as = some t) (n : Fin N) :
    (meals iterations as).count n = (t.locals n).eaten := by
  have hinit : Counted iterations [] (init N) := ⟨Served.init.placed, fun _ => rfl⟩
  have hcount := trace_invariant (Counted iterations) (fun _ _ _ _ hs ht => hs.step ht) hinit hrun
  exact hcount.2 n

theorem Owned.eating_le (h : Owned s) (hN : 2 ≤ N) :
    2 * (Finset.univ.filter fun n => (s.locals n).pc = .eat).card ≤ N := by
  let eating := Finset.univ.filter fun n => (s.locals n).pc = .eat
  let chopstick : Fin N × Bool → Fin N := fun p =>
    if p.2 then LEFT_CHOPSTICK p.1 else RIGHT_CHOPSTICK p.1
  have howner : ∀ p ∈ eating ×ˢ (Finset.univ : Finset Bool), s.shared (chopstick p) = some p.1 := by
    intro p hp
    have heat : (s.locals p.1).pc = .eat := (Finset.mem_filter.mp (Finset.mem_product.mp hp).1).2
    rw [h, heat]
    dsimp only [chopstick]
    split
    · exact .inl rfl
    · exact .inr rfl
  have hinj : Set.InjOn chopstick (eating ×ˢ (Finset.univ : Finset Bool) : Finset (Fin N × Bool)) := by
    rintro ⟨m, b⟩ hm ⟨n, c⟩ hn heq
    have hsame : m = n := by
      have hboth := (howner _ hm).symm.trans (heq ▸ howner _ hn)
      exact Option.some.inj hboth
    subst hsame
    have hne := left_ne_right hN m
    cases b <;> cases c <;> simp [chopstick, hne, hne.symm] at heq ⊢
  have hcard := Finset.card_le_card_of_injOn chopstick (fun _ _ => Finset.mem_univ _) hinj
  rw [Finset.card_product, Finset.card_univ, Finset.card_univ, Fintype.card_bool, Fintype.card_fin]
    at hcard
  change 2 * eating.card ≤ N
  omega

theorem Owned.finished (h : Owned s) (hN : 2 ≤ N) (hstuck : ∀ n, DiningPhilosophers.step iterations s n = none)
    (n : Fin N) : (s.locals n).pc = .finished := by
  by_contra hn
  obtain ⟨m, hfree, hm⟩ := (h.ascending hN).exists_unblocked n
  have hopen : (s.locals m).pc ≠ .finished := by
    obtain rfl | ⟨c, hc⟩ := hm
    · exact hn
    · intro hfinished
      rw [h, hfinished] at hc
      exact hc
  have hstep : (DiningPhilosophers.step iterations s m).isSome = true := step_isSome hopen hfree
  rw [hstuck m] at hstep
  cases hstep

theorem meals_of_run (hN : 2 ≤ N) {as : List (Fin N)}
    (hrun : run (step iterations) (init N) as = some t) :
    as.length ≤ N * (6 * iterations + 2) ∧ (∀ n, (meals iterations as).count n ≤ iterations) ∧
      2 * (Finset.univ.filter fun n => (t.locals n).pc = .eat).card ≤ N ∧
      ((∀ n, step iterations t n = none) → as.length = N * (6 * iterations + 2) ∧
        (∀ n, (t.locals n).pc = .finished) ∧ ∀ n, (meals iterations as).count n = iterations) := by
  have hserved := Served.init.run hrun
  rw [Nat.zero_add] at hserved
  have howned := Owned.of_reachable hN (reachable_of_run hrun)
  refine ⟨?_, fun n => ?_, howned.eating_le hN, fun hstuck => ?_⟩
  · rw [← hserved.steps]
    calc ∑ n, (t.locals n).done iterations
      _ ≤ ∑ _n : Fin N, (6 * iterations + 2) := Finset.sum_le_sum fun n _ => done_le (hserved.placed n)
      _ = N * (6 * iterations + 2) := by simp
  · rw [count_meals hrun]
    exact eaten_le (hserved.placed n)
  · have hfinished := howned.finished hN hstuck
    refine ⟨?_, hfinished, fun n => ?_⟩
    · rw [← hserved.steps]
      simp [Philosopher.done, hfinished]
    · have hplaced := hserved.placed n
      rw [Placed, hfinished n] at hplaced
      rw [count_meals hrun, Philosopher.eaten, hfinished n]
      simpa using hplaced

theorem meals_two : ∃ as, ∃ t : State 2, run (step 3) (init 2) as = some t ∧ as.length = 40 ∧
    ∀ n, (meals 3 as).count n = 3 := by
  let as : List (Fin 2) :=
    List.replicate 20 ⟨0, Nat.two_pos⟩ ++ List.replicate 20 ⟨1, Nat.one_lt_two⟩
  have hrun : (run (step 3) (init 2) as).any
      (fun t => decide (∀ n, (step 3 t n).isNone = true)) = true := by decide +kernel
  obtain ⟨t, ht, hstuck⟩ := (Option.any_eq_true _ _).mp hrun
  have hnone : ∀ n, step 3 t n = none :=
    fun n => Option.isNone_iff_eq_none.mp (of_decide_eq_true hstuck n)
  obtain ⟨-, -, -, hdone⟩ := meals_of_run (le_refl 2) ht
  obtain ⟨hlen, -, hcount⟩ := hdone hnone
  exact ⟨as, t, ht, hlen, hcount⟩

end PsOs.DiningPhilosophers
