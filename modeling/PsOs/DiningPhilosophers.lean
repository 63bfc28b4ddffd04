import PsOs.OrderedLocks
import PsOs.Threads
import PsOs.TransitionSystems

/-!
`exercise07/task2/task2.c`: `N` (`NUM_PHILOSOPHER`) threads run `dine` after `main` has
initialised the mutexes. A thread that has not been created yet is one that takes no step.
-/

namespace PsOs.DiningPhilosophers

open OrderedLocks Threads TransitionSystems

inductive Pc where
  | guard
  | lockFirst
  | lockSecond
  | eat
  | unlockLeft
  | unlockRight
  | print
  | finished
  deriving DecidableEq

structure Philosopher where
  i : ℕ
  pc : Pc

abbrev State (N : ℕ) := Config (Fin N) (Fin N → Option (Fin N)) Philosopher

variable {N : ℕ}

def init (N : ℕ) : State N := ⟨fun _ => none, fun _ => ⟨0, .guard⟩⟩

def RIGHT_CHOPSTICK (n : Fin N) : Fin N := n

def LEFT_CHOPSTICK (n : Fin N) : Fin N := ⟨(n.val + 1) % N, Nat.mod_lt _ n.pos⟩

def first (n : Fin N) : Fin N := if n.val ≠ N - 1 then RIGHT_CHOPSTICK n else LEFT_CHOPSTICK n

def second (n : Fin N) : Fin N := if n.val ≠ N - 1 then LEFT_CHOPSTICK n else RIGHT_CHOPSTICK n

def Philosopher.goto (p : Philosopher) (pc : Pc) : Philosopher := { p with pc }

def lockChopstick (n c : Fin N) (chopstick : Fin N → Option (Fin N)) :
    Option (Fin N → Option (Fin N)) :=
  (acquire (chopstick c) n).map fun owner => Function.update chopstick c owner

def dine (iterations : ℕ) (n : Fin N) (chopstick : Fin N → Option (Fin N)) (p : Philosopher) :
    Option ((Fin N → Option (Fin N)) × Philosopher) :=
  match p.pc with
  | .guard => some (chopstick, p.goto (if p.i < iterations then .lockFirst else .print))
  | .lockFirst => (lockChopstick n (first n) chopstick).map fun c => (c, p.goto .lockSecond)
  | .lockSecond => (lockChopstick n (second n) chopstick).map fun c => (c, p.goto .eat)
  | .eat => some (chopstick, p.goto .unlockLeft)
  | .unlockLeft =>
    some (Function.update chopstick (LEFT_CHOPSTICK n) none, p.goto .unlockRight)
  | .unlockRight => some (Function.update chopstick (RIGHT_CHOPSTICK n) none, ⟨p.i + 1, .guard⟩)
  | .print => some (chopstick, p.goto .finished)
  | .finished => none

def step (iterations : ℕ) (s : State N) (n : Fin N) : Option (State N) :=
  s.move n (dine iterations n s.shared (s.locals n))

section Chopsticks

variable {n : Fin N}

theorem first_lt_second (hN : 2 ≤ N) (n : Fin N) : first n < second n := by
  have hn := n.isLt
  rw [Fin.lt_def]
  by_cases hlast : n.val = N - 1
  · simp only [first, second, hlast, ne_eq, not_true_eq_false, if_false, LEFT_CHOPSTICK,
      RIGHT_CHOPSTICK]
    rw [Nat.sub_add_cancel (by omega), Nat.mod_self]
    omega
  · simp only [first, second, hlast, ne_eq, not_false_eq_true, if_true, LEFT_CHOPSTICK,
      RIGHT_CHOPSTICK]
    rw [Nat.mod_eq_of_lt (by omega)]
    omega

theorem left_or_right (n c : Fin N) :
    c = LEFT_CHOPSTICK n ∨ c = RIGHT_CHOPSTICK n ↔ c = first n ∨ c = second n := by
  unfold first second
  split
  · exact or_comm
  · rfl

theorem left_ne_right (hN : 2 ≤ N) (n : Fin N) : LEFT_CHOPSTICK n ≠ RIGHT_CHOPSTICK n := by
  have hlt := first_lt_second hN n
  unfold first second at hlt
  split at hlt
  · exact hlt.ne'
  · exact hlt.ne

end Chopsticks

def holds (n c : Fin N) : Pc → Prop
  | .lockSecond => c = first n
  | .eat | .unlockLeft => c = LEFT_CHOPSTICK n ∨ c = RIGHT_CHOPSTICK n
  | .unlockRight => c = RIGHT_CHOPSTICK n
  | _ => False

def wants (n : Fin N) : Pc → Option (Fin N)
  | .lockFirst => some (first n)
  | .lockSecond => some (second n)
  | _ => none

def Owned (s : State N) : Prop := ∀ c n, s.shared c = some n ↔ holds n c (s.locals n).pc

section Owned

variable {s t : State N} {n : Fin N} {iterations : ℕ}

theorem Owned.keep (h : Owned s) {p' : Philosopher}
    (hsame : ∀ c, holds n c p'.pc ↔ holds n c (s.locals n).pc) :
    Owned ⟨s.shared, Function.update s.locals n p'⟩ := by
  intro c m
  by_cases hmn : m = n
  · subst hmn
    simp only [Function.update_self, hsame]
    exact h c m
  · simp only [Function.update_of_ne hmn]
    exact h c m

theorem Owned.change (h : Owned s) {p' : Philosopher} {c : Fin N} {owner : Option (Fin N)}
    (hold : s.shared c = none ∨ s.shared c = some n) (hnew : owner = none ∨ owner = some n)
    (hthis : owner = some n ↔ holds n c p'.pc)
    (hrest : ∀ d, d ≠ c → (holds n d p'.pc ↔ holds n d (s.locals n).pc)) :
    Owned ⟨Function.update s.shared c owner, Function.update s.locals n p'⟩ := by
  intro d m
  by_cases hmn : m = n
  · subst hmn
    by_cases hdc : d = c
    · subst hdc
      simpa only [Function.update_self] using hthis
    · simp only [Function.update_of_ne hdc, Function.update_self, hrest d hdc]
      exact h d m
  · simp only [Function.update_of_ne hmn]
    rw [← h d m]
    by_cases hdc : d = c
    · subst hdc
      rw [Function.update_self]
      have hout : ∀ o : Option (Fin N), o = none ∨ o = some n → o ≠ some m := by
        rintro o (rfl | rfl) ho
        · cases ho
        · exact hmn (Option.some.inj ho).symm
      exact iff_of_false (hout _ hnew) (hout _ hold)
    · rw [Function.update_of_ne hdc]

theorem lockChopstick_eq_some {c : Fin N} {chopstick chopstick' : Fin N → Option (Fin N)} :
    lockChopstick n c chopstick = some chopstick' ↔
      chopstick c = none ∧ chopstick' = Function.update chopstick c (some n) := by
  simp only [lockChopstick, Option.map_eq_some_iff, acquire_eq_some]
  constructor
  · rintro ⟨owner, ⟨hfree, rfl⟩, rfl⟩
    exact ⟨hfree, rfl⟩
  · rintro ⟨hfree, rfl⟩
    exact ⟨some n, ⟨hfree, rfl⟩, rfl⟩

theorem Owned.step (h : Owned s) (hN : 2 ≤ N) (ht : step iterations s n = some t) : Owned t := by
  obtain ⟨chopstick, p', hdine, rfl⟩ := Config.move_eq_some.mp ht
  unfold dine at hdine
  cases hpc : (s.locals n).pc <;> simp only [hpc] at hdine
  case guard =>
    cases hdine
    apply h.keep
    intro c
    rw [hpc]
    unfold Philosopher.goto
    split <;> rfl
  case lockFirst =>
    simp only [Option.map_eq_some_iff, lockChopstick_eq_some] at hdine
    obtain ⟨_, ⟨hfree, rfl⟩, hdine⟩ := hdine
    cases hdine
    apply h.change (.inl hfree) (.inr rfl)
    · exact iff_of_true rfl rfl
    · intro d hd
      rw [hpc]
      exact iff_of_false hd id
  case lockSecond =>
    simp only [Option.map_eq_some_iff, lockChopstick_eq_some] at hdine
    obtain ⟨_, ⟨hfree, rfl⟩, hdine⟩ := hdine
    cases hdine
    apply h.change (.inl hfree) (.inr rfl)
    · exact iff_of_true rfl ((left_or_right n _).mpr (.inr rfl))
    · intro d hd
      rw [hpc]
      exact (left_or_right n d).trans (or_iff_left hd)
  case eat =>
    cases hdine
    apply h.keep
    intro c
    rw [hpc]
    rfl
  case unlockLeft =>
    cases hdine
    have hheld : s.shared (LEFT_CHOPSTICK n) = some n := by
      rw [h, hpc]
      exact .inl rfl
    apply h.change (.inr hheld) (.inl rfl)
    · exact iff_of_false (Option.some_ne_none n).symm (left_ne_right hN n)
    · intro d hd
      rw [hpc]
      exact (or_iff_right hd).symm
  case unlockRight =>
    cases hdine
    have hheld : s.shared (RIGHT_CHOPSTICK n) = some n := by
      rw [h, hpc]
      rfl
    apply h.change (.inr hheld) (.inl rfl)
    · exact iff_of_false (Option.some_ne_none n).symm id
    · intro d hd
      rw [hpc]
      exact iff_of_false id hd
  case print =>
    cases hdine
    apply h.keep
    intro c
    rw [hpc]
    rfl
  case finished => cases hdine

theorem Owned.init : Owned (init N) := fun _ _ => iff_of_false (by rintro ⟨⟩) id

theorem Owned.of_reachable (hN : 2 ≤ N) (h : Reachable (DiningPhilosophers.step iterations)
    (DiningPhilosophers.init N) s) : Owned s :=
  h.invariant Owned Owned.init fun _ _ _ hs ht => hs.step hN ht

theorem Owned.ascending (h : Owned s) (hN : 2 ≤ N) :
    Ascending s.shared fun n => wants n (s.locals n).pc := by
  intro n c c' hc hwant
  rw [h] at hc
  cases hpc : (s.locals n).pc <;> simp only [hpc, wants] at hc hwant
  case lockFirst => exact absurd hc id
  case lockSecond =>
    cases hwant
    rw [show c = first n from hc]
    exact first_lt_second hN n
  all_goals cases hwant

end Owned

theorem neighbours_exclusive {iterations : ℕ} (hN : 2 ≤ N) {s : State N}
    (h : Reachable (step iterations) (init N) s) {m n : Fin N} (hmn : m = LEFT_CHOPSTICK n)
    (hm : (s.locals m).pc = .eat) : (s.locals n).pc ≠ .eat := by
  intro hn
  have hown := Owned.of_reachable hN h
  have hleft : s.shared m = some n := by
    rw [hown, hn]
    exact .inl hmn
  have hright : s.shared m = some m := by
    rw [hown, hm]
    exact .inr rfl
  have hsame : n = m := Option.some.inj (hleft.symm.trans hright)
  rw [hsame] at hmn
  exact left_ne_right hN m hmn.symm

theorem step_isSome {iterations : ℕ} {s : State N} {n : Fin N} (hpc : (s.locals n).pc ≠ .finished)
    (hfree : ¬ Blocked s.shared (fun m => wants m (s.locals m).pc) n) :
    (step iterations s n).isSome = true := by
  have hlock : ∀ c, wants n (s.locals n).pc = some c → lockChopstick n c s.shared =
      some (Function.update s.shared c (some n)) := by
    intro c hc
    apply lockChopstick_eq_some.mpr ⟨?_, rfl⟩
    by_contra hheld
    exact hfree ⟨c, hc, hheld⟩
  simp only [step, Config.move, Option.isSome_map, dine]
  cases hp : (s.locals n).pc <;> simp only [hp] at hpc hlock ⊢
  case lockFirst => rw [hlock _ rfl]; rfl
  case lockSecond => rw [hlock _ rfl]; rfl
  case finished => exact absurd rfl hpc
  all_goals rfl

theorem deadlock_free {iterations : ℕ} (hN : 2 ≤ N) {s : State N}
    (h : Reachable (step iterations) (init N) s) :
    ((∃ n, (s.locals n).pc ≠ .finished) → ∃ n, (step iterations s n).isSome = true) ∧
      ((∀ n, (s.locals n).pc = .finished) → ∀ c, s.shared c = none) := by
  have hown := Owned.of_reachable hN h
  constructor
  · rintro ⟨n, hn⟩
    obtain ⟨m, hfree, hm⟩ := (hown.ascending hN).exists_unblocked n
    refine ⟨m, step_isSome ?_ hfree⟩
    rcases hm with rfl | ⟨c, hc⟩
    · exact hn
    · intro hfinished
      rw [hown, hfinished] at hc
      exact hc
  · intro hall c
    cases hc : s.shared c with
    | none => rfl
    | some n =>
      rw [hown, hall n] at hc
      exact absurd hc id

theorem deadlock_free_two : ∃ s t : State 2,
    (Reachable (step 1) (init 2) s ∧ (step 1 s ⟨1, Nat.one_lt_two⟩).isSome = false ∧
      ∃ n, (step 1 s n).isSome = true) ∧
    Reachable (step 1) (init 2) t ∧ (∀ n, (t.locals n).pc = .finished) ∧ ∀ c, t.shared c = none := by
  obtain ⟨s, hs, hp⟩ := exists_reachable_of_run (step 1) (init 2)
    [⟨0, Nat.two_pos⟩, ⟨0, Nat.two_pos⟩, ⟨0, Nat.two_pos⟩, ⟨1, Nat.one_lt_two⟩]
    (fun s => decide ((s.locals ⟨0, Nat.two_pos⟩).pc ≠ .finished) &&
      !(step 1 s ⟨1, Nat.one_lt_two⟩).isSome) (by decide +kernel)
  obtain ⟨t, ht, hq⟩ := exists_reachable_of_run (step 1) (init 2)
    (List.replicate 8 ⟨0, Nat.two_pos⟩ ++ List.replicate 8 ⟨1, Nat.one_lt_two⟩)
    (fun t => decide (∀ n, (t.locals n).pc = .finished)) (by decide +kernel)
  simp only [Bool.and_eq_true, decide_eq_true_eq, Bool.not_eq_true'] at hp
  have hall := of_decide_eq_true hq
  exact ⟨s, t, ⟨hs, hp.2, (deadlock_free (le_refl 2) hs).1 ⟨_, hp.1⟩⟩, ht, hall,
    (deadlock_free (le_refl 2) ht).2 hall⟩

end PsOs.DiningPhilosophers
