import PsOs.HttpServer

namespace PsOs.HttpServer

open Threads TransitionSystems

variable {n : ℕ}

def Worker.Handling : Worker → Prop
  | .read _ | .dispatch _ _ | .lockDonation _ _ | .add _ _ | .unlockDonation _ _ | .report _ _
  | .close _ => True
  | _ => False

structure SameDelivery (srv srv' : Server n) : Prop where
  queue : srv'.queue = srv.queue
  mutexQueue : srv'.mutexQueue = srv.mutexQueue
  main : srv'.main = srv.main
  accepted : srv'.history.accepted = srv.history.accepted
  handled : srv'.history.handled = srv.history.handled

inductive WorkerMove (i : Fin n) (srv : Server n) : Worker → Server n → Worker → Prop
  | lock (hfree : srv.mutexQueue = none) :
      WorkerMove i srv .lock { srv with mutexQueue := some (.worker i) } .test
  | relock (hfree : srv.mutexQueue = none) :
      WorkerMove i srv .relock { srv with mutexQueue := some (.worker i) } .test
  | empty (hq : srv.queue = []) : WorkerMove i srv .test srv .wait
  | nonempty (hq : srv.queue ≠ []) : WorkerMove i srv .test srv .pop
  | wait : WorkerMove i srv .wait { srv with mutexQueue := none } .sleep
  | pop (fd : ℤ) (queue : List ℤ) (hq : srv.queue = fd :: queue) :
      WorkerMove i srv .pop { srv with queue } (.unlock fd)
  | unlock (fd : ℤ) : WorkerMove i srv (.unlock fd) { srv with mutexQueue := none } (.check fd)
  | pill : WorkerMove i srv (.check POISON_PILL) srv .exited
  | handle (fd : ℤ) (hfd : fd ≠ POISON_PILL) :
      WorkerMove i srv (.check fd) { srv with history := { srv.history with
        handled := srv.history.handled ++ [fd] } } (.read fd)
  | serve {w w' : Worker} {srv' : Server n} (hw : w.Handling) (hw' : w'.Handling ∨ w' = .lock)
      (hsame : SameDelivery srv srv') : WorkerMove i srv w srv' w'

theorem stepWorker_move {i : Fin n} {request : Request} {srv srv' : Server n} {w w' : Worker}
    (h : stepWorker i request srv w = some (srv', w')) : WorkerMove i srv w srv' w' := by
  cases w with
  | lock | relock =>
    simp only [stepWorker, Option.map_eq_some_iff, acquire_eq_some] at h
    obtain ⟨m, ⟨hfree, rfl⟩, h⟩ := h
    cases h
    first | exact .lock hfree | exact .relock hfree
  | test =>
    simp only [stepWorker, Option.some.injEq, Prod.mk.injEq] at h
    obtain ⟨rfl, rfl⟩ := h
    split
    · exact .empty ‹_›
    · exact .nonempty ‹_›
  | wait =>
    cases h
    exact .wait
  | pop =>
    simp only [stepWorker] at h
    split at h
    · cases h
    · cases h
      exact .pop _ _ ‹_›
  | unlock fd =>
    cases h
    exact .unlock fd
  | check fd =>
    simp only [stepWorker] at h
    split at h
    case isTrue hfd =>
      cases h
      subst hfd
      exact .pill
    case isFalse hfd =>
      cases h
      exact .handle fd hfd
  | sleep | exited => cases h
  | read fd =>
    cases h
    refine .serve trivial (.inl ?_) ⟨rfl, rfl, rfl, rfl, rfl⟩
    split <;> trivial
  | lockDonation fd amount =>
    simp only [stepWorker, Option.map_eq_some_iff, acquire_eq_some] at h
    obtain ⟨m, -, h⟩ := h
    cases h
    exact .serve trivial (.inl trivial) ⟨rfl, rfl, rfl, rfl, rfl⟩
  | dispatch fd request =>
    rcases request with _ | _ | (_ | amount) | _ | _ <;> cases h <;>
      exact .serve trivial (.inl trivial) ⟨rfl, rfl, rfl, rfl, rfl⟩
  | close fd =>
    cases h
    exact .serve trivial (.inr rfl) ⟨rfl, rfl, rfl, rfl, rfl⟩
  | add | unlockDonation | report =>
    cases h
    exact .serve trivial (.inl trivial) ⟨rfl, rfl, rfl, rfl, rfl⟩

inductive MainMove (s : State n) : State n → Prop
  | guard (pc : MainPc) (hpc : s.shared.main = .guard) (hnext : pc = .accept ∨ pc = .lockPills) :
      MainMove s { s with shared := s.shared.goto pc }
  | accepted (result : Accept) (hpc : s.shared.main = .accept) :
      MainMove s { s with shared := accepted s.shared result }
  | lock (fd : ℤ) (hpc : s.shared.main = .lock fd) (hfree : s.shared.mutexQueue = none) :
      MainMove s { s with shared := { s.shared with mutexQueue := some .main, main := .push fd } }
  | push (fd : ℤ) (hpc : s.shared.main = .push fd) :
      MainMove s { s with shared := (s.shared.push fd).goto .signal }
  | signal (woken : Finset (Fin n)) (hpc : s.shared.main = .signal)
      (hwoken : (∃ i, s.locals i = .sleep) → ∃ i ∈ woken, s.locals i = .sleep) :
      MainMove s ⟨s.shared.goto .unlock, wake woken s.locals⟩
  | unlock (hpc : s.shared.main = .unlock) :
      MainMove s { s with shared := { s.shared with mutexQueue := none, main := .guard } }
  | lockPills (hpc : s.shared.main = .lockPills) (hfree : s.shared.mutexQueue = none) :
      MainMove s { s with shared := { s.shared with mutexQueue := some .main, main := .pushPill 0 } }
  | pushPill (k : ℕ) (hpc : s.shared.main = .pushPill k) (hk : k < n) :
      MainMove s { s with shared := (s.shared.push POISON_PILL).goto (.pushPill (k + 1)) }
  | allPills (k : ℕ) (hpc : s.shared.main = .pushPill k) (hk : n ≤ k) :
      MainMove s { s with shared := s.shared.goto .broadcast }
  | broadcast (hpc : s.shared.main = .broadcast) :
      MainMove s ⟨s.shared.goto .unlockPills, wake Finset.univ s.locals⟩
  | unlockPills (hpc : s.shared.main = .unlockPills) :
      MainMove s { s with shared := { s.shared with mutexQueue := none, main := .join 0 } }
  | join (k : Fin n) (hpc : s.shared.main = .join k) (hk : s.locals k = .exited) :
      MainMove s { s with shared := s.shared.goto (.join (k + 1)) }
  | joined (k : ℕ) (hpc : s.shared.main = .join k) (hk : n ≤ k) :
      MainMove s { s with shared := s.shared.goto (.returned true) }

theorem stepMain_move {s t : State n} (h : stepMain s = some t) : MainMove s t := by
  cases hpc : s.shared.main <;> simp only [stepMain, hpc] at h
  case guard =>
    cases h
    apply MainMove.guard _ hpc
    split
    · exact .inl rfl
    · exact .inr rfl
  case lock fd =>
    simp only [Option.map_eq_some_iff, acquire_eq_some] at h
    obtain ⟨m, ⟨hfree, rfl⟩, rfl⟩ := h
    exact .lock fd hpc hfree
  case push fd =>
    cases h
    exact .push fd hpc
  case unlock =>
    cases h
    exact .unlock hpc
  case lockPills =>
    simp only [Option.map_eq_some_iff, acquire_eq_some] at h
    obtain ⟨m, ⟨hfree, rfl⟩, rfl⟩ := h
    exact .lockPills hpc hfree
  case pushPill k =>
    split at h <;> cases h
    · exact .pushPill k hpc ‹_›
    · exact .allPills k hpc (by omega)
  case broadcast =>
    cases h
    exact .broadcast hpc
  case unlockPills =>
    cases h
    exact .unlockPills hpc
  case join k =>
    split at h
    · split at h <;> cases h
      exact .join ⟨k, _⟩ hpc ‹_›
    · cases h
      exact .joined k hpc (by omega)
  all_goals cases h

theorem step_cases {s t : State n} {a : Action n} (h : step s a = some t) :
    (∀ i request, a ≠ .worker i request) ∧ MainMove s t ∨
      (∃ i srv' w', WorkerMove i s.shared (s.locals i) srv' w' ∧ (∃ request, a = .worker i request) ∧
        t = ⟨srv', Function.update s.locals i w'⟩) ∨
      ∃ i, a = .spurious i ∧ s.locals i = .sleep ∧
        t = ⟨s.shared, Function.update s.locals i .relock⟩ := by
  cases a with
  | main => exact .inl ⟨fun i request ha => (by cases ha), stepMain_move h⟩
  | accept result =>
    simp only [step] at h
    split at h <;> cases h
    exact .inl ⟨fun i request ha => (by cases ha), .accepted result ‹_›⟩
  | signal woken =>
    simp only [step, stepSignal] at h
    split at h
    case isTrue hs =>
      cases h
      exact .inl ⟨fun i request ha => (by cases ha), .signal woken hs.1 hs.2⟩
    case isFalse => cases h
  | worker i request =>
    simp only [step] at h
    split at h
    · cases h
    · obtain ⟨srv', w', hw, rfl⟩ := Config.move_eq_some.mp h
      exact .inr (.inl ⟨i, srv', w', stepWorker_move hw, ⟨request, rfl⟩, rfl⟩)
  | spurious i =>
    simp only [step] at h
    split at h <;> cases h
    exact .inr (.inr ⟨i, rfl, ‹_›, rfl⟩)

end PsOs.HttpServer
