import PsOs.HttpServer

namespace PsOs.HttpServer

open Threads TransitionSystems

variable {n : ℕ}

def ShutsDown (s : State n) : Action n → Prop
  | .worker i _ => ∃ fd, s.locals i = .dispatch fd .shutdown
  | _ => False

def OneShutdown (s : State n) (a : Action n) : Prop := ShutsDown s a → s.shared.running ≠ 0

/-- After a shutdown the guard of the accept loop is false, and at most the connection that
`main` was waiting for has been accepted. -/
structure ShutdownPermanent (s : State n) : Prop where
  guard : 0 < s.shared.history.shutdowns → s.shared.running = 0
  accepts : s.shared.history.lateAccepts ≤ 1

structure SameGuard (srv srv' : Server n) : Prop where
  running : srv'.running = srv.running
  shutdowns : srv'.history.shutdowns = srv.history.shutdowns
  lateAccepts : srv'.history.lateAccepts = srv.history.lateAccepts

theorem stepWorker_cases {i : Fin n} {request : Request} {srv srv' : Server n} {w w' : Worker}
    (h : stepWorker i request srv w = some (srv', w')) :
    (SameGuard srv srv' ∧ srv'.main = srv.main ∧ ∀ fd, w ≠ .dispatch fd .shutdown) ∨
      ((∃ fd, w = .dispatch fd .shutdown) ∧ srv' = srv.shutdown) := by
  cases w with
  | dispatch fd request =>
    rcases request with _ | _ | (_ | amount) | _ | _
    case shutdown =>
      simp only [stepWorker, Option.some.injEq, Prod.mk.injEq] at h
      exact .inr ⟨⟨fd, rfl⟩, h.1.symm⟩
    all_goals
      simp only [stepWorker, Option.some.injEq, Prod.mk.injEq] at h
      obtain ⟨rfl, -⟩ := h
      exact .inl ⟨⟨rfl, rfl, rfl⟩, rfl, by simp⟩
  | pop =>
    simp only [stepWorker] at h
    split at h
    · cases h
    · simp only [Option.some.injEq, Prod.mk.injEq] at h
      obtain ⟨rfl, -⟩ := h
      exact .inl ⟨⟨rfl, rfl, rfl⟩, rfl, by simp⟩
  | check fd =>
    simp only [stepWorker] at h
    split at h <;>
      · simp only [Option.some.injEq, Prod.mk.injEq] at h
        obtain ⟨rfl, -⟩ := h
        exact .inl ⟨⟨rfl, rfl, rfl⟩, rfl, by simp⟩
  | lock | relock | lockDonation =>
    simp only [stepWorker, Option.map_eq_some_iff, acquire_eq_some, Prod.mk.injEq] at h
    obtain ⟨m, -, rfl, -⟩ := h
    exact .inl ⟨⟨rfl, rfl, rfl⟩, rfl, by simp⟩
  | sleep | exited => cases h
  | _ =>
    simp only [stepWorker, Option.some.injEq, Prod.mk.injEq] at h
    obtain ⟨rfl, -⟩ := h
    exact .inl ⟨⟨rfl, rfl, rfl⟩, rfl, by simp⟩

theorem stepMain_cases {s t : State n} (h : stepMain s = some t) :
    SameGuard s.shared t.shared ∧ (t.shared.main = .accept → s.shared.running ≠ 0) := by
  cases hpc : s.shared.main with
  | guard =>
    simp only [stepMain, hpc, Option.some.injEq] at h
    subst h
    refine ⟨⟨rfl, rfl, rfl⟩, fun hacc hrun => ?_⟩
    simp [Server.goto, hrun] at hacc
  | accept | signal | returned => simp [stepMain, hpc] at h
  | lock | lockPills =>
    simp only [stepMain, hpc, Option.map_eq_some_iff, acquire_eq_some] at h
    obtain ⟨m, -, rfl⟩ := h
    exact ⟨⟨rfl, rfl, rfl⟩, fun hacc => by cases hacc⟩
  | pushPill i =>
    simp only [stepMain, hpc] at h
    split at h <;>
      · simp only [Option.some.injEq] at h
        subst h
        exact ⟨⟨rfl, rfl, rfl⟩, fun hacc => by cases hacc⟩
  | join i =>
    simp only [stepMain, hpc] at h
    split at h
    · split at h
      · simp only [Option.some.injEq] at h
        subst h
        exact ⟨⟨rfl, rfl, rfl⟩, fun hacc => by cases hacc⟩
      · cases h
    · simp only [Option.some.injEq] at h
      subst h
      exact ⟨⟨rfl, rfl, rfl⟩, fun hacc => by cases hacc⟩
  | push | unlock | broadcast | unlockPills =>
    simp only [stepMain, hpc, Option.some.injEq] at h
    subst h
    exact ⟨⟨rfl, rfl, rfl⟩, fun hacc => by cases hacc⟩

structure GuardInv (srv : Server n) : Prop where
  before : srv.history.shutdowns = 0 → srv.running = 1 ∧ srv.history.lateAccepts = 0
  after : srv.history.shutdowns ≠ 0 → srv.history.shutdowns = 1 ∧ srv.running = 0 ∧
    srv.history.lateAccepts + (if srv.main = .accept then 1 else 0) ≤ 1

theorem GuardInv.permanent {s : State n} (h : GuardInv s.shared) : ShutdownPermanent s := by
  by_cases h0 : s.shared.history.shutdowns = 0
  · have := (h.before h0).2
    exact ⟨fun hpos => by omega, by omega⟩
  · obtain ⟨-, hrun, hlate⟩ := h.after h0
    exact ⟨fun _ => hrun, by omega⟩

theorem GuardInv.congr {srv srv' : Server n} (h : GuardInv srv) (he : SameGuard srv srv')
    (hmain : srv'.main = .accept → srv.main = .accept ∨ srv.running ≠ 0) : GuardInv srv' := by
  obtain ⟨hr, hs, hl⟩ := he
  refine ⟨fun h0 => ?_, fun h0 => ?_⟩
  · rw [hs] at h0
    rw [hr, hl]
    exact h.before h0
  · rw [hs] at h0 ⊢
    obtain ⟨h1, hrun, hlate⟩ := h.after h0
    rw [hr, hl]
    refine ⟨h1, hrun, ?_⟩
    by_cases hacc : srv'.main = .accept
    · have hold := (hmain hacc).resolve_right (not_not.mpr hrun)
      rw [if_pos hacc]
      rwa [if_pos hold] at hlate
    · rw [if_neg hacc]
      omega

theorem GuardInv.accepted {srv : Server n} (h : GuardInv srv) (hpc : srv.main = .accept)
    (result : Accept) : GuardInv (accepted srv result) := by
  cases result with
  | interrupted | error => exact h.congr ⟨rfl, rfl, rfl⟩ fun hacc => by cases hacc
  | socket fd =>
    refine ⟨fun h0 => ?_, fun h0 => ?_⟩
    · change srv.history.shutdowns = 0 at h0
      obtain ⟨hrun, hlate⟩ := h.before h0
      exact ⟨hrun, by simp [HttpServer.accepted, hlate, h0]⟩
    · obtain ⟨h1, hrun, hlate⟩ := h.after h0
      refine ⟨h1, hrun, ?_⟩
      rw [if_pos hpc] at hlate
      simpa [HttpServer.accepted, h1] using hlate

theorem GuardInv.shutdown {srv : Server n} (h : GuardInv srv) (hrun : srv.running ≠ 0) :
    GuardInv srv.shutdown := by
  have h0 : srv.history.shutdowns = 0 := by
    by_contra h0
    exact hrun (h.after h0).2.1
  obtain ⟨h1, hlate⟩ := h.before h0
  refine ⟨fun hnone => absurd hnone (Nat.succ_ne_zero _), fun _ => ⟨?_, ?_, ?_⟩⟩
  · simp [Server.shutdown, h0]
  · simp [Server.shutdown, h1]
  · simp only [Server.shutdown, hlate]
    split <;> omega

theorem guardInv_step {s t : State n} {a : Action n} (h : GuardInv s.shared)
    (hok : OneShutdown s a) (ht : step s a = some t) : GuardInv t.shared := by
  cases a with
  | main =>
    obtain ⟨hsame, hacc⟩ := stepMain_cases ht
    exact h.congr hsame fun ha => .inr (hacc ha)
  | accept result =>
    simp only [step] at ht
    split at ht
    case isFalse => cases ht
    case isTrue hpc =>
      simp only [Option.some.injEq] at ht
      subst ht
      exact h.accepted hpc result
  | signal woken =>
    simp only [step, stepSignal] at ht
    split at ht
    · simp only [Option.some.injEq] at ht
      subst ht
      exact h.congr ⟨rfl, rfl, rfl⟩ fun ha => by cases ha
    · cases ht
  | worker i request =>
    simp only [step] at ht
    split at ht
    · cases ht
    · obtain ⟨srv', w', hw, rfl⟩ := Config.move_eq_some.mp ht
      rcases stepWorker_cases hw with ⟨hsame, hmain, -⟩ | ⟨hshut, rfl⟩
      · exact h.congr hsame fun ha => .inl (hmain ▸ ha)
      · exact h.shutdown (hok hshut)
  | spurious i =>
    simp only [step] at ht
    split at ht
    · simp only [Option.some.injEq] at ht
      subst ht
      exact h
    · cases ht

theorem not_permanent_of_second {s t : State n} {a : Action n} (hok : ¬ OneShutdown s a)
    (ht : step s a = some t) : ¬ ShutdownPermanent t := by
  obtain ⟨hshut, hrun⟩ := Classical.not_imp.mp hok
  rw [not_not] at hrun
  cases a with
  | worker i request =>
    simp only [step] at ht
    split at ht
    · cases ht
    · obtain ⟨srv', w', hw, rfl⟩ := Config.move_eq_some.mp ht
      rcases stepWorker_cases hw with ⟨-, -, hne⟩ | ⟨-, rfl⟩
      · obtain ⟨fd, hfd⟩ := hshut
        exact absurd hfd (hne fd)
      · intro h
        have h0 := h.guard (Nat.succ_pos _)
        simp only [Server.shutdown, hrun] at h0
        revert h0
        decide
  | main | accept | signal | spurious => exact hshut.elim

theorem shutdownPermanent_iff (n : ℕ) (as : List (Action n)) :
    AllStates step ShutdownPermanent (init n) as ↔ AllSteps step OneShutdown (init n) as := by
  refine allStates_iff_allSteps (fun s h => GuardInv.permanent h)
    (fun s a t h hok ht => guardInv_step h hok ht)
    (fun s a t _ hok ht => not_permanent_of_second hok ht) as ?_
  exact ⟨fun _ => ⟨rfl, rfl⟩, fun h => absurd rfl h⟩

/-- Two queued /shutdown requests and one worker: `main` waits in `accept` throughout, then
finds `running` at -1 and accepts again. -/
def twoShutdowns : List (Action 1) :=
  let connect (fd : ℕ) : List (Action 1) :=
    [.main, .accept (.socket fd), .main, .main, .signal ∅, .main]
  let serve : List (Action 1) := List.replicate 8 (.worker 0 .shutdown)
  connect 4 ++ connect 5 ++ [.main] ++ serve ++ serve ++
    [.accept (.socket 6), .main, .main, .signal ∅, .main, .main, .accept (.socket 7)]

theorem shutdown_not_permanent :
    ∃ s, Reachable step (init 1) s ∧ s.shared.history.shutdowns = 2 ∧
      s.shared.running = -1 ∧ s.shared.history.lateAccepts = 2 ∧ ¬ ShutdownPermanent s := by
  obtain ⟨s, hs, hp⟩ := exists_reachable_of_run step (init 1) twoShutdowns
    (fun s => decide (s.shared.history.shutdowns = 2 ∧ s.shared.running = -1 ∧
      s.shared.history.lateAccepts = 2)) (by decide +kernel)
  obtain ⟨hshut, hrun, hlate⟩ := of_decide_eq_true hp
  refine ⟨s, hs, hshut, hrun, hlate, fun h => ?_⟩
  have := h.accepts
  omega

end PsOs.HttpServer
