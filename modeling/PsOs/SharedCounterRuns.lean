import Mathlib.Tactic.Linarith
import PsOs.SharedCounter

/-! What every schedule makes of the counter. -/

namespace PsOs.SharedCounter

open Threads TransitionSystems

variable {T : ℕ} {v : Variant} {iterations : ℕ} {s t : State T}

def ThreadPc.Inside : ThreadPc → Prop
  | .read _ | .write _ _ | .unlock _ => True
  | _ => False

def ThreadPc.done (iterations : ℕ) : ThreadPc → ℕ
  | .unborn => 0
  | .test i | .lock i | .read i | .write i _ | .fetchAdd i => i
  | .unlock i => i + 1
  | .returned => iterations

def ThreadPc.Ok (v : Variant) (iterations : ℕ) (counter : UInt32) : ThreadPc → Prop
  | .unborn | .returned => True
  | .test i => i ≤ iterations
  | .lock i | .read i | .unlock i => v = .mutex ∧ i < iterations
  | .write i value => v = .mutex ∧ i < iterations ∧ value = counter
  | .fetchAdd i => v = .atomic ∧ i < iterations

def MainPc.Ok (counter : UInt32) (f : Fin T → ThreadPc) : MainPc → Prop
  | .create i => ∀ j : Fin T, f j = .unborn ↔ i ≤ j
  | .join i => ∀ j, f j ≠ .unborn ∧ (j < i → f j = .returned)
  | .print => ∀ j, f j = .returned
  | .returned printed => printed = counter.toInt32 ∧ ∀ j, f j = .returned
  | .failed => True

structure Inv (v : Variant) (iterations : ℕ) (s : State T) : Prop where
  guards : Guards s.shared.mutex ThreadPc.Inside s.locals
  held : Held s.shared.mutex ThreadPc.Inside s.locals
  threads : ∀ i, (s.locals i).Ok v iterations s.shared.counter
  total : (s.shared.counter.toNat : ℤ) ≡ ∑ i, amount ((s.locals i).done iterations) [ZMOD 2 ^ 32]
  main : s.shared.main.Ok s.shared.counter s.locals

theorem Inv.init : Inv v iterations (init T) := by
  refine ⟨fun i h => h.elim, Held.none, fun i => trivial, ?_, ?_⟩
  · simp [SharedCounter.init, ThreadPc.done, amount]
  · exact fun j => iff_of_true rfl (Nat.zero_le _)

section Moves

variable {i : Fin T} {p' : Process T} {pc' : ThreadPc}

theorem guards_move (h : Inv v iterations s)
    (hm : Move v iterations i s.shared (s.locals i) p' pc') :
    Guards p'.mutex ThreadPc.Inside (Function.update s.locals i pc') := by
  generalize hpc : s.locals i = pc at hm
  cases hm with
  | enter k hk =>
    apply h.guards.stay
    cases v <;> exact False.elim
  | leave k hk => exact h.guards.stay False.elim
  | lock k hfree =>
    have hguards := h.guards
    rw [hfree] at hguards
    exact hguards.acquire
  | read k | write k value =>
    apply h.guards.stay
    rw [hpc]
    exact fun _ => trivial
  | unlock k => exact h.guards.release (by rw [hpc]; trivial) id
  | fetchAdd k => exact h.guards.stay False.elim

theorem held_move (h : Inv v iterations s)
    (hm : Move v iterations i s.shared (s.locals i) p' pc') :
    Held p'.mutex ThreadPc.Inside (Function.update s.locals i pc') := by
  generalize hpc : s.locals i = pc at hm
  cases hm with
  | lock k hfree => exact Held.acquire trivial
  | unlock k => exact Held.none
  | read k | write k value => exact h.held.stay fun _ => trivial
  | enter k hk | leave k hk | fetchAdd k =>
    apply h.held.stay
    rw [hpc]
    exact False.elim

theorem Move.ok {p : Process T} {pc : ThreadPc} (hm : Move v iterations i p pc p' pc')
    (h : pc.Ok v iterations p.counter) : pc'.Ok v iterations p'.counter := by
  cases hm with
  | enter k hk =>
    cases v with
    | mutex => exact ⟨rfl, hk⟩
    | atomic => exact ⟨rfl, hk⟩
  | leave k hk => trivial
  | lock k hfree => exact h
  | read k => exact ⟨h.1, h.2, rfl⟩
  | write k value => exact ⟨h.1, h.2.1⟩
  | unlock k => exact h.2
  | fetchAdd k => exact h.2

theorem write_alone (h : Inv v iterations s)
    (hm : Move v iterations i s.shared (s.locals i) p' pc')
    (hne : p'.counter ≠ s.shared.counter) {j : Fin T} (hji : j ≠ i) (k : ℕ) (value : UInt32) :
    s.locals j ≠ .write k value := by
  intro hwrite
  have hi := h.threads i
  have hj := h.threads j
  have hguards := h.guards
  generalize hpc : s.locals i = pc at hm
  rw [hpc] at hi
  cases hm with
  | write k' value' =>
    apply hji
    exact hguards.exclusive (by rw [hwrite]; trivial) (by rw [hpc]; trivial)
  | fetchAdd k' =>
    rw [hwrite] at hj
    cases hi.1.symm.trans hj.1
  | _ => exact hne rfl

theorem ok_other (h : Inv v iterations s) (hm : Move v iterations i s.shared (s.locals i) p' pc')
    {j : Fin T} (hji : j ≠ i) : (s.locals j).Ok v iterations p'.counter := by
  have hj := h.threads j
  by_cases hsame : p'.counter = s.shared.counter
  · rw [hsame]
    exact hj
  · have hwrite := write_alone h hm hsame hji
    cases hpc : s.locals j with
    | write k value => exact absurd hpc (hwrite k value)
    | _ =>
      rw [hpc] at hj
      exact hj

theorem threads_move (h : Inv v iterations s)
    (hm : Move v iterations i s.shared (s.locals i) p' pc') :
    ∀ j, (Function.update s.locals i pc' j).Ok v iterations p'.counter := by
  apply (Function.forall_update_iff s.locals fun _ pc => pc.Ok v iterations p'.counter).mpr
  exact ⟨hm.ok (h.threads i), fun j hji => ok_other h hm hji⟩

theorem total_update (h : Inv v iterations s) {pc : ThreadPc} (hpc : s.locals i = pc) (d : ℤ)
    (hamount : amount (pc'.done iterations) = amount (pc.done iterations) + d)
    (hcounter : (p'.counter.toNat : ℤ) ≡ s.shared.counter.toNat + d [ZMOD 2 ^ 32]) :
    (p'.counter.toNat : ℤ) ≡
      ∑ j, amount ((Function.update s.locals i pc' j).done iterations) [ZMOD 2 ^ 32] := by
  have hsum := sum_update (fun pc : ThreadPc => amount (pc.done iterations)) s.locals i pc'
  have hnew : ∑ j, amount ((Function.update s.locals i pc' j).done iterations) =
      ∑ j, amount ((s.locals j).done iterations) + d := by
    rw [hamount, hpc] at hsum
    linarith
  rw [hnew]
  exact hcounter.trans (h.total.add_right d)

theorem total_move (h : Inv v iterations s)
    (hm : Move v iterations i s.shared (s.locals i) p' pc') :
    (p'.counter.toNat : ℤ) ≡
      ∑ j, amount ((Function.update s.locals i pc' j).done iterations) [ZMOD 2 ^ 32] := by
  have hi := h.threads i
  generalize hpc : s.locals i = pc at hm
  rw [hpc] at hi
  cases hm with
  | enter k hk =>
    apply total_update h hpc 0
    · cases v <;> exact (add_zero _).symm
    · rw [add_zero]
  | leave k hk =>
    apply total_update h hpc 0
    · have hend : k = iterations := Nat.le_antisymm hi hk
      rw [ThreadPc.done, ThreadPc.done, hend, add_zero]
    · rw [add_zero]
  | lock k hfree | read k | unlock k =>
    apply total_update h hpc 0
    · exact (add_zero _).symm
    · rw [add_zero]
  | write k value =>
    apply total_update h hpc (temp k).toInt rfl
    rw [← hi.2.2]
    exact add_toUInt32_modEq _ _
  | fetchAdd k =>
    apply total_update h hpc (temp k).toInt rfl
    exact add_toUInt32_modEq _ _

theorem main_move (h : Inv v iterations s)
    (hm : Move v iterations i s.shared (s.locals i) p' pc') :
    p'.main.Ok p'.counter (Function.update s.locals i pc') := by
  obtain ⟨hborn, hrunning, hborn'⟩ := hm.running
  have hmain := h.main
  rw [hm.main]
  generalize s.shared.main = main at hmain
  cases main with
  | create k =>
    apply (Function.forall_update_iff s.locals fun j pc => pc = .unborn ↔ k ≤ (j : ℕ)).mpr
    exact ⟨iff_of_false hborn' (mt (hmain i).mpr hborn), fun j _ => hmain j⟩
  | join k =>
    apply (Function.forall_update_iff s.locals fun j pc =>
      pc ≠ .unborn ∧ ((j : ℕ) < k → pc = .returned)).mpr
    exact ⟨⟨hborn', fun hi => absurd ((hmain i).2 hi) hrunning⟩, fun j _ => hmain j⟩
  | print => exact absurd (hmain i) hrunning
  | returned printed => exact absurd (hmain.2 i) hrunning
  | failed => trivial

theorem Inv.move (h : Inv v iterations s)
    (hm : Move v iterations i s.shared (s.locals i) p' pc') :
    Inv v iterations ⟨p', Function.update s.locals i pc'⟩ :=
  ⟨guards_move h hm, held_move h hm, threads_move h hm, total_move h hm, main_move h hm⟩

end Moves

theorem Inv.goto {main : MainPc} (h : Inv v iterations s)
    (hmain : main.Ok s.shared.counter s.locals) :
    Inv v iterations { s with shared := s.shared.goto main } :=
  ⟨h.guards, h.held, h.threads, h.total, hmain⟩

theorem Inv.create {i : ℕ} (h : Inv v iterations s) (hmain : s.shared.main = .create i)
    (hi : i < T) :
    Inv v iterations ⟨s.shared.goto (.create (i + 1)), Function.update s.locals ⟨i, hi⟩ (.test 0)⟩ := by
  have hok := h.main
  rw [hmain] at hok
  have hborn : s.locals ⟨i, hi⟩ = .unborn := (hok ⟨i, hi⟩).mpr le_rfl
  constructor
  · exact h.guards.stay False.elim
  · apply h.held.stay
    rw [hborn]
    exact False.elim
  · apply (Function.forall_update_iff s.locals fun _ pc =>
      pc.Ok v iterations s.shared.counter).mpr
    exact ⟨Nat.zero_le _, fun j _ => h.threads j⟩
  · have hdone (j : Fin T) :
        (Function.update s.locals ⟨i, hi⟩ (.test 0) j).done iterations =
          (s.locals j).done iterations :=
      field_update (ThreadPc.done iterations) (by rw [hborn]; rfl) j
    simp only [hdone]
    exact h.total
  · apply (Function.forall_update_iff s.locals fun j pc => pc = .unborn ↔ i + 1 ≤ (j : ℕ)).mpr
    refine ⟨iff_of_false ThreadPc.noConfusion (Nat.not_succ_le_self i), fun j hj => ?_⟩
    have hne : (j : ℕ) ≠ i := fun heq => hj (Fin.ext heq)
    rw [hok j]
    omega

theorem Inv.step (h : Inv v iterations s) {a : Action T}
    (ht : SharedCounter.step v iterations s a = some t) : Inv v iterations t := by
  cases a with
  | thread i =>
    obtain ⟨-, p', pc', hm, rfl⟩ := step_thread ht
    exact h.move hm
  | createFails =>
    obtain ⟨i, -, -, rfl⟩ := step_createFails ht
    exact h.goto trivial
  | main =>
    have hok := h.main
    cases stepMain_move ht with
    | create i hmain hi => exact h.create hmain hi
    | created i hmain hi =>
      rw [hmain] at hok
      apply h.goto
      intro j
      exact ⟨mt (hok j).mp (by omega), fun hj => absurd hj (Nat.not_lt_zero _)⟩
    | join i hmain hi hreturned =>
      rw [hmain] at hok
      apply h.goto
      intro j
      refine ⟨(hok j).1, fun hj => ?_⟩
      rcases Nat.lt_succ_iff_lt_or_eq.mp hj with hlt | heq
      · exact (hok j).2 hlt
      · have hij : j = ⟨i, hi⟩ := Fin.ext heq
        rw [hij]
        exact hreturned
    | joined i hmain hi =>
      rw [hmain] at hok
      apply h.goto
      exact fun j => (hok j).2 (j.isLt.trans_le hi)
    | print hmain =>
      rw [hmain] at hok
      apply h.goto
      exact ⟨rfl, hok⟩

theorem Inv.of_reachable (h : Reachable (SharedCounter.step v iterations) (SharedCounter.init T) s) :
    Inv v iterations s := by
  apply h.invariant _ Inv.init
  intro s a t hs ht
  exact hs.step ht

section Ends

def ThreadPc.remaining (iterations : ℕ) : ThreadPc → ℕ
  | .unborn => 5 * iterations + 2
  | .test i => 5 * (iterations - i) + 1
  | .lock i | .fetchAdd i => 5 * (iterations - i)
  | .read i => 5 * (iterations - i) - 1
  | .write i _ => 5 * (iterations - i) - 2
  | .unlock i => 5 * (iterations - i) - 3
  | .returned => 0

def MainPc.remaining (T : ℕ) : MainPc → ℕ
  | .create i => (T - i) + T + 3
  | .join i => (T - i) + 2
  | .print => 1
  | .returned _ | .failed => 0

def remaining (iterations : ℕ) (s : State T) : ℕ :=
  s.shared.main.remaining T + ∑ i, (s.locals i).remaining iterations

theorem Move.remaining_lt {i : Fin T} {p p' : Process T} {pc pc' : ThreadPc} {counter : UInt32}
    (hm : Move v iterations i p pc p' pc') (h : pc.Ok v iterations counter) :
    pc'.remaining iterations < pc.remaining iterations := by
  cases hm with
  | enter k hk =>
    cases v with
    | mutex => exact Nat.lt_succ_self _
    | atomic => exact Nat.lt_succ_self _
  | leave k hk => exact Nat.succ_pos _
  | write k value =>
    have hk := h.2.1
    simp only [ThreadPc.remaining]
    omega
  | lock k hfree | read k | unlock k | fetchAdd k =>
    have hk := h.2
    simp only [ThreadPc.remaining]
    omega

theorem remaining_update_lt {i : Fin T} {p' : Process T} {pc' : ThreadPc}
    (hmain : p'.main.remaining T ≤ s.shared.main.remaining T)
    (hpc : pc'.remaining iterations < (s.locals i).remaining iterations) :
    remaining iterations ⟨p', Function.update s.locals i pc'⟩ < remaining iterations s := by
  have hsum := sum_update (ThreadPc.remaining iterations) s.locals i pc'
  simp only [remaining]
  omega

theorem remaining_lt (h : Inv v iterations s) {a : Action T}
    (ht : step v iterations s a = some t) : remaining iterations t < remaining iterations s := by
  cases a with
  | thread i =>
    obtain ⟨-, p', pc', hm, rfl⟩ := step_thread ht
    exact remaining_update_lt (by rw [hm.main]) (hm.remaining_lt (h.threads i))
  | createFails =>
    obtain ⟨i, hmain, -, rfl⟩ := step_createFails ht
    apply Nat.add_lt_add_right
    rw [hmain]
    exact Nat.succ_pos _
  | main =>
    have hok := h.main
    cases stepMain_move ht with
    | create i hmain hi =>
      rw [hmain] at hok
      apply remaining_update_lt
      · rw [hmain]
        simp only [Process.goto, MainPc.remaining]
        omega
      · rw [(hok ⟨i, hi⟩).mpr le_rfl]
        exact Nat.lt_succ_self _
    | created i hmain hi | join i hmain hi hreturned | joined i hmain hi | print hmain =>
      apply Nat.add_lt_add_right
      rw [hmain]
      simp only [Process.goto, MainPc.remaining]
      omega

theorem threadFunc_ne_none {i : Fin T} {p : Process T} {pc : ThreadPc} (hborn : pc ≠ .unborn)
    (hrunning : pc ≠ .returned) (hlock : ∀ k, pc = .lock k → p.mutex = none) :
    threadFunc v iterations i p pc ≠ none := by
  cases pc with
  | unborn => exact absurd rfl hborn
  | returned => exact absurd rfl hrunning
  | lock k =>
    rw [threadFunc, hlock k rfl]
    exact Option.some_ne_none _
  | _ => exact Option.some_ne_none _

theorem thread_enabled {i : Fin T} (hmain : s.shared.main ≠ .failed) (hborn : s.locals i ≠ .unborn)
    (hrunning : s.locals i ≠ .returned) (hlock : ∀ k, s.locals i = .lock k → s.shared.mutex = none) :
    step v iterations s (.thread i) ≠ none := by
  rw [step, if_neg hmain, Config.move, Ne, Option.map_eq_none_iff]
  exact threadFunc_ne_none hborn hrunning hlock

theorem Inv.join_enabled (h : Inv v iterations s) {i : ℕ} (hmain : s.shared.main = .join i) :
    ∃ a : Action T, a.succeeds = true ∧ SharedCounter.step v iterations s a ≠ none := by
  have hok := h.main
  rw [hmain] at hok
  have hlive : s.shared.main ≠ .failed := by
    rw [hmain]
    exact MainPc.noConfusion
  by_cases hi : i < T
  · by_cases hreturned : s.locals ⟨i, hi⟩ = .returned
    · refine ⟨.main, rfl, ?_⟩
      simp [SharedCounter.step, stepMain, hmain, hi, hreturned]
    · cases hmutex : s.shared.mutex with
      | none =>
        exact ⟨.thread ⟨i, hi⟩, rfl, thread_enabled hlive (hok _).1 hreturned fun _ _ => hmutex⟩
      | some j =>
        have hinside := h.held j hmutex
        refine ⟨.thread j, rfl, thread_enabled hlive (hok j).1 ?_ ?_⟩
        · intro hj
          rw [hj] at hinside
          exact hinside
        · intro k hj
          rw [hj] at hinside
          exact hinside.elim
  · refine ⟨.main, rfl, ?_⟩
    simp [SharedCounter.step, stepMain, hmain, hi]

theorem Inv.ends (h : Inv v iterations s)
    (hend : ∀ a : Action T, a.succeeds = true → SharedCounter.step v iterations s a = none) :
    s.shared.main = .failed ∨ ∃ printed, s.shared.main = .returned printed := by
  cases hmain : s.shared.main with
  | failed => exact .inl rfl
  | returned printed => exact .inr ⟨printed, rfl⟩
  | join i =>
    obtain ⟨a, ha, hstep⟩ := h.join_enabled hmain
    exact absurd (hend a ha) hstep
  | create i =>
    have hstep := hend .main rfl
    simp only [SharedCounter.step, stepMain, hmain] at hstep
    split at hstep <;> cases hstep
  | print =>
    have hstep := hend .main rfl
    simp only [SharedCounter.step, stepMain, hmain] at hstep
    cases hstep

theorem step_not_failed {a : Action T} (ha : a.succeeds = true)
    (ht : step v iterations s a = some t) (hmain : s.shared.main ≠ .failed) :
    t.shared.main ≠ .failed := by
  cases a with
  | createFails => cases ha
  | thread i =>
    obtain ⟨-, p', pc', hm, rfl⟩ := step_thread ht
    rw [hm.main]
    exact hmain
  | main => cases stepMain_move ht <;> exact MainPc.noConfusion

/-- The steps of the runs in which every creation succeeds. -/
def stepSucceeding (v : Variant) (iterations : ℕ) (s : State T) (a : Action T) : Option (State T) :=
  if a.succeeds then step v iterations s a else none

theorem stepSucceeding_eq_some {a : Action T} (ht : stepSucceeding v iterations s a = some t) :
    a.succeeds = true ∧ step v iterations s a = some t :=
  Option.ite_none_right_eq_some.mp ht

theorem exists_returned (v : Variant) (T iterations : ℕ) :
    ∃ s printed, Reachable (step v iterations) (init T) s ∧ s.shared.main = .returned printed := by
  have hkeep : ∀ (s : State T) a t, Inv v iterations s ∧ s.shared.main ≠ .failed →
      stepSucceeding v iterations s a = some t → Inv v iterations t ∧ t.shared.main ≠ .failed := by
    rintro s a t ⟨hs, hmain⟩ ht
    obtain ⟨ha, ht⟩ := stepSucceeding_eq_some ht
    exact ⟨hs.step ht, step_not_failed ha ht hmain⟩
  have hdec : ∀ (s : State T) a t, Inv v iterations s ∧ s.shared.main ≠ .failed →
      stepSucceeding v iterations s a = some t → remaining iterations t < remaining iterations s :=
    fun s a t hs ht => remaining_lt hs.1 (stepSucceeding_eq_some ht).2
  obtain ⟨s, hs, ⟨hinv, hmain⟩, hend⟩ :=
    exists_terminal hkeep hdec ⟨Inv.init, MainPc.noConfusion⟩
  have hstuck : ∀ a : Action T, a.succeeds = true → step v iterations s a = none := by
    intro a ha
    have hnone := hend a
    rwa [stepSucceeding, if_pos ha] at hnone
  obtain hfailed | ⟨printed, hprinted⟩ := hinv.ends hstuck
  · exact absurd hfailed hmain
  · have hguarded : ReachableBy (step v iterations) (fun _ a => a.succeeds = true) (init T) s :=
      reachableBy_of_guarded hs
    exact ⟨s, printed, hguarded.mono fun _ _ _ => trivial, hprinted⟩

end Ends

structure Outcome (v : Variant) (T iterations : ℕ) : Prop where
  final : ∀ s printed, Reachable (step v iterations) (init T) s →
    s.shared.main = .returned printed →
    (s.shared.counter.toNat : ℤ) =
        T * (42 * ((iterations + 1) / 2 : ℕ) - 41 * (iterations / 2 : ℕ)) % 2 ^ 32 ∧
      printed = s.shared.counter.toInt32
  returns : ∃ s printed, Reachable (step v iterations) (init T) s ∧
    s.shared.main = .returned printed
  ends : ∀ s, Reachable (step v iterations) (init T) s →
    (∀ a : Action T, a.succeeds = true → step v iterations s a = none) →
    s.shared.main = .failed ∨ ∃ printed, s.shared.main = .returned printed
  bounded : ∃ n, ∀ as s, run (step v iterations) (init T) as = some s → as.length ≤ n

theorem outcome (v : Variant) (T iterations : ℕ) : Outcome v T iterations where
  final := by
    intro s printed hs hmain
    have h := Inv.of_reachable hs
    have hok := h.main
    rw [hmain] at hok
    obtain ⟨hprinted, hreturned⟩ := hok
    have htotal := h.total
    simp only [hreturned, ThreadPc.done, Finset.sum_const, Finset.card_univ, Fintype.card_fin,
      nsmul_eq_mul, amount_eq] at htotal
    have hlt : (s.shared.counter.toNat : ℤ) < 2 ^ 32 := by
      exact_mod_cast s.shared.counter.toNat_lt
    refine ⟨?_, hprinted⟩
    rw [← htotal, Int.emod_eq_of_lt (Int.natCast_nonneg _) hlt]
  returns := exists_returned v T iterations
  ends := fun s hs => (Inv.of_reachable hs).ends
  bounded := by
    refine ⟨remaining iterations (init T), fun as s hrun => ?_⟩
    have hkeep (s : State T) (a : Action T) (t : State T) (hs : Inv v iterations s)
        (ht : step v iterations s a = some t) : Inv v iterations t := hs.step ht
    exact length_le_of_run hkeep (fun s a t hs ht => remaining_lt hs ht) Inv.init hrun

end PsOs.SharedCounter
