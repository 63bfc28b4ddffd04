import Mathlib.Algebra.BigOperators.Fin
import PsOs.Threads
import PsOs.TransitionSystems

/-!
`exercise06/task2/task2.c` and `exercise06/task3/task3.c` from the creation of the `c` consumers
on: `main` produces `n` values and `c` pills. Allocations succeed. The array `tid` of the handles has
`n` entries: an access behind them ends the run in `overrun`, from where nothing is said.
-/

namespace PsOs.ProducerConsumer

open Threads TransitionSystems

def INT_MAX : ℤ := 2147483647

inductive Task where
  | task2
  | task3
  deriving DecidableEq

inductive Element where
  | value (i : ℕ)
  | pill (i : ℕ)
  deriving DecidableEq

def Element.num : Element → ℤ
  | .value i => if i % 2 = 0 then 1 else -1
  | .pill _ => INT_MAX

inductive ConsumerPc where
  | unborn
  | poll
  | lock
  | check
  | wait
  | sleep
  | relock
  | pop
  | unlock (temp : ℤ)
  | test (temp : ℤ)
  | print
  | exited
  | aborted
  deriving DecidableEq

structure Consumer where
  pc : ConsumerPc
  sum : ℤ
  deriving DecidableEq

inductive MainPc where
  | create (i : ℕ)
  | values (i : ℕ)
  | pills (i : ℕ)
  | lock (element : Element)
  | push (element : Element)
  | signal (element : Element)
  | unlock (element : Element)
  | broadcast
  | join (i : ℕ) (sum : ℤ)
  | finished (sum : ℤ)
  | failed
  | overrun
  deriving DecidableEq

inductive Owner (c : ℕ) where
  | main
  | consumer (i : Fin c)
  deriving DecidableEq

structure Server (c : ℕ) where
  queue : List ℤ
  mutex : Option (Owner c)
  main : MainPc
  -- what has gone into and out of the queue; no step reads it
  pushed : List ℤ
  taken : List (Fin c × ℤ)

abbrev State (c : ℕ) := Config (Fin c) (Server c) Consumer

def init (c : ℕ) : State c where
  shared := ⟨[], none, .create 0, [], []⟩
  locals := fun _ => ⟨.unborn, 0⟩

variable {c : ℕ}

def Server.goto (srv : Server c) (pc : MainPc) : Server c := { srv with main := pc }

def Server.myqueue_push (srv : Server c) (value : ℤ) : Server c :=
  { srv with queue := srv.queue ++ [value], pushed := srv.pushed ++ [value] }

def Consumer.goto (consumer : Consumer) (pc : ConsumerPc) : Consumer := { consumer with pc }

def Task.entry : Task → ConsumerPc
  | .task2 => .poll
  | .task3 => .lock

def Task.closing : Task → MainPc
  | .task2 => .join 0 0
  | .task3 => .broadcast

def Task.pushed : Task → Element → MainPc
  | .task2, element => .unlock element
  | .task3, element => .signal element

def Element.next : Element → MainPc
  | .value i => .values (i + 1)
  | .pill i => .pills (i + 1)

def addInt (sum d : ℤ) : ℤ := (sum + d).bmod (2 ^ 32)

def wake (woken : Finset (Fin c)) (locals : Fin c → Consumer) : Fin c → Consumer :=
  fun i => if (locals i).pc = .sleep ∧ i ∈ woken then (locals i).goto .relock else locals i

def stepMain (task : Task) (n : ℕ) (s : State c) : Option (State c) :=
  let srv := s.shared
  match srv.main with
  | .create i =>
    if h : i < c then
      -- `tid + i` for the handle
      if i < n then
        some ⟨srv.goto (.create (i + 1)),
          Function.update s.locals ⟨i, h⟩ ((s.locals ⟨i, h⟩).goto task.entry)⟩
      else some { s with shared := srv.goto .overrun }
    else some { s with shared := srv.goto (.values 0) }
  | .values i =>
    some { s with shared := srv.goto (if i < n then .lock (.value i) else .pills 0) }
  | .pills i =>
    some { s with shared := srv.goto (if i < c then .lock (.pill i) else task.closing) }
  | .lock element => (acquire srv.mutex .main).map fun mutex =>
      { s with shared := { srv with mutex, main := .push element } }
  | .push element =>
    some { s with shared := (srv.myqueue_push element.num).goto (task.pushed element) }
  | .unlock element => some { s with shared := { srv with mutex := none, main := element.next } }
  | .broadcast => some ⟨srv.goto (.join 0 0), wake Finset.univ s.locals⟩
  | .join i sum =>
    if h : i < c then
      -- `tid[i]`
      if n ≤ i then some { s with shared := srv.goto .overrun }
      else if (s.locals ⟨i, h⟩).pc = .exited then
        some { s with shared := srv.goto (.join (i + 1) (addInt sum (s.locals ⟨i, h⟩).sum)) }
      else none
    else some { s with shared := srv.goto (.finished sum) }
  | .signal _ | .finished _ | .failed | .overrun => none

def stepSignal (s : State c) (woken : Finset (Fin c)) : Option (State c) :=
  match s.shared.main with
  | .signal element =>
    -- it wakes at least one sleeper if there is any
    if (∃ i, (s.locals i).pc = .sleep) → ∃ i ∈ woken, (s.locals i).pc = .sleep then
      some ⟨s.shared.goto (.unlock element), wake woken s.locals⟩
    else none
  | _ => none

/-- A step of `thread_func`. The unlocked poll of `task2` may get either answer while another
thread is in its critical section. -/
def stepConsumer (task : Task) (i : Fin c) (empty : Bool) (srv : Server c) (consumer : Consumer) :
    Option (Server c × Consumer) :=
  match consumer.pc with
  | .unborn | .sleep | .exited | .aborted => none
  | .poll =>
    if srv.mutex = none ∧ empty ≠ srv.queue.isEmpty then none
    else some (srv, consumer.goto (if empty then .poll else .lock))
  | .lock | .relock => (acquire srv.mutex (.consumer i)).map fun mutex =>
      ({ srv with mutex }, consumer.goto .check)
  | .check =>
    if srv.queue = [] then
      match task with
      | .task2 => some (srv, consumer.goto (.unlock 0))
      | .task3 => some (srv, consumer.goto .wait)
    else some (srv, consumer.goto .pop)
  | .wait => some ({ srv with mutex := none }, consumer.goto .sleep)
  | .pop =>
    match srv.queue with
    | [] => some (srv, consumer.goto .aborted)
    | value :: queue =>
      some ({ srv with queue, taken := srv.taken ++ [(i, value)] }, consumer.goto (.unlock value))
  | .unlock temp => some ({ srv with mutex := none }, consumer.goto (.test temp))
  | .test temp =>
    if temp = INT_MAX then some (srv, consumer.goto .print)
    else some (srv, ⟨.lock, consumer.sum + temp⟩)
  | .print => some (srv, consumer.goto .exited)

inductive Action (c : ℕ) where
  | main
  | createFails
  | signal (woken : Finset (Fin c))
  | consumer (i : Fin c) (empty : Bool)
  | spurious (i : Fin c)

def step (task : Task) (n : ℕ) (s : State c) : Action c → Option (State c)
  | .main => stepMain task n s
  | .createFails =>
    match s.shared.main with
    | .create i => if i < c then some { s with shared := s.shared.goto .failed } else none
    | _ => none
  | .signal woken => stepSignal s woken
  | .consumer i empty =>
    if s.shared.main = .failed ∨ s.shared.main = .overrun then none
    else s.move i (stepConsumer task i empty s.shared (s.locals i))
  | .spurious i =>
    if (s.locals i).pc = .sleep then
      some { s with locals := Function.update s.locals i ((s.locals i).goto .relock) }
    else none

end PsOs.ProducerConsumer
