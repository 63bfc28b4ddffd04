import Mathlib.Data.Finset.Basic
import Mathlib.Data.Fintype.Basic
import Mathlib.Data.Rat.Init
import PsOs.Threads
import PsOs.TransitionSystems

/-!
`exercise08/task3/server.c`: `main` accepts connections and queues them for `n` workers.
The model starts after `listen` has succeeded; donations are exact numbers.
-/

namespace PsOs.HttpServer

open Threads TransitionSystems

def POISON_PILL : ℤ := -1

inductive Request where
  | readError
  | index
  | donate (amount : Option ℚ)
  | shutdown
  | other
  deriving DecidableEq

inductive Worker where
  | lock
  | test
  | wait
  | sleep
  | relock
  | pop
  | unlock (fd : ℤ)
  | check (fd : ℤ)
  | read (fd : ℤ)
  | dispatch (fd : ℤ) (request : Request)
  | lockDonation (fd : ℤ) (amount : ℚ)
  | add (fd : ℤ) (amount : ℚ)
  | unlockDonation (fd : ℤ) (amount : ℚ)
  | report (fd : ℤ) (amount : ℚ)
  | close (fd : ℤ)
  | exited
  deriving DecidableEq

inductive MainPc where
  | guard
  | accept
  | lock (fd : ℤ)
  | push (fd : ℤ)
  | signal
  | unlock
  | lockPills
  | pushPill (i : ℕ)
  | broadcast
  | unlockPills
  | join (i : ℕ)
  | returned (success : Bool)
  deriving DecidableEq

inductive Owner (n : ℕ) where
  | main
  | worker (i : Fin n)
  deriving DecidableEq

/-- What has happened so far; no step reads it. -/
structure History where
  accepted : List ℤ
  handled : List ℤ
  replies : List (ℚ × ℚ)
  shutdowns : ℕ
  lateAccepts : ℕ

structure Server (n : ℕ) where
  queue : List ℤ
  mutexQueue : Option (Owner n)
  mutexDonation : Option (Owner n)
  donations : ℚ
  running : Int32
  main : MainPc
  history : History

abbrev State (n : ℕ) := Config (Fin n) (Server n) Worker

def init (n : ℕ) : State n where
  shared := ⟨[], none, none, 0, 1, .guard, ⟨[], [], [], 0, 0⟩⟩
  locals := fun _ => .lock

inductive Accept where
  | socket (fd : ℕ)
  | interrupted
  | error

inductive Action (n : ℕ) where
  | main
  | accept (result : Accept)
  | signal (woken : Finset (Fin n))
  | worker (i : Fin n) (request : Request)
  | spurious (i : Fin n)

variable {n : ℕ}

def Server.goto (srv : Server n) (pc : MainPc) : Server n := { srv with main := pc }

def Server.push (srv : Server n) (v : ℤ) : Server n := { srv with queue := srv.queue ++ [v] }

def accepted (srv : Server n) : Accept → Server n
  | .socket fd => { srv with
      main := .lock fd
      history := { srv.history with
        accepted := srv.history.accepted ++ [(fd : ℤ)]
        lateAccepts := srv.history.lateAccepts + if 0 < srv.history.shutdowns then 1 else 0 } }
  | .interrupted => srv.goto .lockPills
  | .error => srv.goto (.returned false)

def wake (woken : Finset (Fin n)) (locals : Fin n → Worker) : Fin n → Worker :=
  fun i => if locals i = .sleep ∧ i ∈ woken then .relock else locals i

def stepMain (s : State n) : Option (State n) :=
  let srv := s.shared
  match srv.main with
  | .guard => some { s with shared := srv.goto (if srv.running ≠ 0 then .accept else .lockPills) }
  | .lock fd => (acquire srv.mutexQueue .main).map fun m =>
      { s with shared := { srv with mutexQueue := m, main := .push fd } }
  | .push fd => some { s with shared := (srv.push fd).goto .signal }
  | .unlock => some { s with shared := { srv with mutexQueue := none, main := .guard } }
  | .lockPills => (acquire srv.mutexQueue .main).map fun m =>
      { s with shared := { srv with mutexQueue := m, main := .pushPill 0 } }
  | .pushPill i =>
      if i < n then some { s with shared := (srv.push POISON_PILL).goto (.pushPill (i + 1)) }
      else some { s with shared := srv.goto .broadcast }
  | .broadcast => some ⟨srv.goto .unlockPills, wake Finset.univ s.locals⟩
  | .unlockPills => some { s with shared := { srv with mutexQueue := none, main := .join 0 } }
  | .join i =>
      if h : i < n then
        if s.locals ⟨i, h⟩ = .exited then some { s with shared := srv.goto (.join (i + 1)) }
        else none
      else some { s with shared := srv.goto (.returned true) }
  | .accept | .signal | .returned _ => none

/-- `pthread_cond_signal` wakes at least one sleeper if there is any. -/
def stepSignal (s : State n) (woken : Finset (Fin n)) : Option (State n) :=
  if s.shared.main = .signal ∧
      ((∃ i, s.locals i = .sleep) → ∃ i ∈ woken, s.locals i = .sleep) then
    some ⟨s.shared.goto .unlock, wake woken s.locals⟩
  else none

def Server.shutdown (srv : Server n) : Server n :=
  { srv with
    running := srv.running - 1
    history := { srv.history with shutdowns := srv.history.shutdowns + 1 } }

def stepWorker (i : Fin n) (request : Request) (srv : Server n) : Worker → Option (Server n × Worker)
  | .lock => (acquire srv.mutexQueue (.worker i)).map fun m => ({ srv with mutexQueue := m }, .test)
  | .test => some (srv, if srv.queue = [] then .wait else .pop)
  | .wait => some ({ srv with mutexQueue := none }, .sleep)
  | .sleep => none
  | .relock => (acquire srv.mutexQueue (.worker i)).map fun m =>
      ({ srv with mutexQueue := m }, .test)
  | .pop =>
    match srv.queue with
    | [] => none
    | fd :: queue => some ({ srv with queue }, .unlock fd)
  | .unlock fd => some ({ srv with mutexQueue := none }, .check fd)
  | .check fd =>
    if fd = POISON_PILL then some (srv, .exited)
    else some ({ srv with history := { srv.history with
      handled := srv.history.handled ++ [fd] } }, .read fd)
  | .read fd => some (srv, if request = .readError then .close fd else .dispatch fd request)
  | .dispatch fd (.donate (some amount)) => some (srv, .lockDonation fd amount)
  -- `atomic_fetch_sub(running, 1)`, not a store of 0
  | .dispatch fd .shutdown => some (srv.shutdown, .close fd)
  | .dispatch fd _ => some (srv, .close fd)
  | .lockDonation fd amount => (acquire srv.mutexDonation (.worker i)).map fun m =>
      ({ srv with mutexDonation := m }, .add fd amount)
  | .add fd amount => some ({ srv with donations := srv.donations + amount },
      .unlockDonation fd amount)
  | .unlockDonation fd amount => some ({ srv with mutexDonation := none }, .report fd amount)
  -- the reply reads `*donations` after the mutex has been released
  | .report fd amount => some ({ srv with history := { srv.history with
      replies := srv.history.replies ++ [(amount, srv.donations)] } }, .close fd)
  | .close _ => some (srv, .lock)
  | .exited => none

def step (s : State n) : Action n → Option (State n)
  | .main => stepMain s
  | .accept result =>
    if s.shared.main = .accept then some { s with shared := accepted s.shared result } else none
  | .signal woken => stepSignal s woken
  | .worker i request =>
    if s.shared.main = .returned false then none
    else s.move i (stepWorker i request s.shared (s.locals i))
  | .spurious i =>
    if s.locals i = .sleep then
      some { s with locals := Function.update s.locals i .relock }
    else none

end PsOs.HttpServer
