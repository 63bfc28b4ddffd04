import Mathlib.Data.Fin.VecNotation
import PsOs.Barriers
import PsOs.TransitionSystems

/-!
`exercise11/task3/beehive.c` with its queue `myqueue.h`: `N` bees and the main thread. Every bee
is there from the start; one that `main` has not created yet is one that has not moved yet.
A queue operation is a step into it and a step out of it, which has the effect.
-/

namespace PsOs.Beehive

open Threads TransitionSystems

def asSize (z : ℤ) : ℕ := (z % 2 ^ 64).toNat

def asInt (z : ℤ) : ℤ := z.bmod (2 ^ 32)

structure FieldGeometry where
  width : ℕ
  height : ℕ
  numberFlowers : ℕ

def globalField (width height : ℤ) : FieldGeometry :=
  ⟨asSize width, asSize height, asSize (asInt (width * height))⟩

def errorValue : ℕ := 2 ^ 64 - 1

def calculatePositions (pos : ℕ) (dimensions : FieldGeometry) : Fin 4 → ℕ :=
  let width := dimensions.width
  let size := width * dimensions.height % 2 ^ 64
  let top := if width ≤ pos then pos - width else errorValue
  let bottom := if (pos + width) % 2 ^ 64 < size then (pos + width) % 2 ^ 64 else errorValue
  let left := if 0 < pos % width then pos - 1 else errorValue
  let right :=
    if pos % width < (width + (2 ^ 64 - 1)) % 2 ^ 64 then (pos + 1) % 2 ^ 64 else errorValue
  ![top, bottom, left, right]

def bearAttack (attack success : ℕ) : Bool :=
  attack % 100 < 10 && !decide (success % 100 < 50)

inductive Stop where
  | first
  | second
  deriving DecidableEq

inductive Pc where
  | guard
  | lockQueue
  | isEmpty
  | inIsEmpty
  | unlockIdle
  | pop
  | inPop
  | unlockPop (pos : ℕ)
  | lockField (pos : ℕ)
  | readNectar (pos : ℕ)
  | clearNectar (pos : ℕ)
  | collect (pos : ℕ)
  -- in `check_nearby_flowers`, at entry `k`
  | examine (pos : ℕ) (k : ℕ)
  | push (pos : ℕ) (k : Fin 4)
  | inPush (pos : ℕ) (k : Fin 4)
  | unlockField
  | arrive (stop : Stop)
  | await (stop : Stop) (generation : ℕ)
  | bear
  | storeTerminate
  | storeDestroyed
  | left
  deriving DecidableEq

structure Bee where
  pc : Pc
  -- the completed loop iterations; no step reads them
  rounds : ℕ

inductive MainPc where
  | readCount
  | readDestroyed
  | storeTerminate
  | join (i : ℕ)
  | report
  | printCount (destroyed : Bool)
  | finished (destroyed : Bool) (count : ℕ)
  deriving DecidableEq

structure Hive (N : ℕ) where
  hasNectar : ℕ → Bool
  queue : List ℤ
  queueMutex : Option (Fin N)
  fieldMutex : Option (Fin N)
  barrier : Barrier
  serial : Option (Fin N)
  mustTerminate : Bool
  beehiveDestroyed : Bool
  collected : ℕ
  main : MainPc
  -- the harvested positions, and the pushed ones behind those that they were reported from; no
  -- step reads them
  harvests : List ℕ
  reports : List (ℕ × ℕ)

abbrev State (N : ℕ) := Config (Fin N) (Hive N) Bee

variable {N : ℕ}

def seed (dim : FieldGeometry) : ℕ := dim.height * dim.width % 2 ^ 64 / 2

def init (dim : FieldGeometry) (N : ℕ) : State N where
  shared :=
    { hasNectar := fun p => decide (p < dim.height * dim.width % 2 ^ 64)
      queue := [asInt (seed dim)]
      queueMutex := none
      fieldMutex := none
      barrier := .init
      serial := none
      mustTerminate := false
      beehiveDestroyed := false
      collected := 0
      main := .readCount
      harvests := []
      reports := [] }
  locals := fun _ => ⟨.guard, 0⟩

def Bee.goto (b : Bee) (pc : Pc) : Bee := { b with pc }

def Hive.arrive (h : Hive N) (serial : Fin N) : Hive N :=
  let barrier := h.barrier.arrive N
  { h with
    barrier
    serial := if barrier.generation = h.barrier.generation then h.serial else some serial }

def Bee.leave (i : Fin N) (serial : Option (Fin N)) (b : Bee) : Stop → Bee
  | .first => b.goto (if serial = some i then .bear else .arrive .second)
  | .second => ⟨.guard, b.rounds + 1⟩

def Bee.examine (b : Bee) (hasNectar : ℕ → Bool) (dim : FieldGeometry) (pos k : ℕ) : Bee :=
  if hk : k < 4 then
    let position := calculatePositions pos dim ⟨k, hk⟩
    if position = errorValue then b.goto (.examine pos (k + 1))
    else if hasNectar position then b.goto (.push pos ⟨k, hk⟩)
    else b.goto (.examine pos (k + 1))
  else b.goto .unlockField

/-- A step of bee `bee`: `attack` and `success` are the results of `rand` if it looks for the
bear, `serial` the bee that is told so if it completes the barrier. -/
structure Turn (N : ℕ) where
  bee : Fin N
  attack : ℕ
  success : ℕ
  serial : Fin N

def stepBee (dim : FieldGeometry) (a : Turn N) (h : Hive N) (b : Bee) : Option (Hive N × Bee) :=
  let i := a.bee
  match b.pc with
  | .guard => some (h, b.goto (if h.mustTerminate then .left else .lockQueue))
  | .lockQueue =>
    (acquire h.queueMutex i).map fun queueMutex => ({ h with queueMutex }, b.goto .isEmpty)
  | .isEmpty => some (h, b.goto .inIsEmpty)
  | .inIsEmpty => some (h, b.goto (if h.queue.isEmpty then .unlockIdle else .pop))
  | .unlockIdle => some ({ h with queueMutex := none }, b.goto (.arrive .first))
  | .pop => some (h, b.goto .inPop)
  | .inPop =>
    match h.queue with
    -- `assert(!myqueue_is_empty(q))`
    | [] => none
    | value :: queue => some ({ h with queue }, b.goto (.unlockPop (asSize value)))
  | .unlockPop pos => some ({ h with queueMutex := none }, b.goto (.lockField pos))
  | .lockField pos =>
    (acquire h.fieldMutex i).map fun fieldMutex => ({ h with fieldMutex }, b.goto (.readNectar pos))
  | .readNectar pos =>
    some (h, b.goto (if h.hasNectar pos then .clearNectar pos else .unlockField))
  | .clearNectar pos =>
    some ({ h with
      hasNectar := Function.update h.hasNectar pos false
      harvests := h.harvests ++ [pos] }, b.goto (.collect pos))
  | .collect pos => some ({ h with collected := h.collected + 1 }, b.goto (.examine pos 0))
  | .examine pos k => some (h, b.examine h.hasNectar dim pos k)
  | .push pos k => some (h, b.goto (.inPush pos k))
  | .inPush pos k =>
    let position := calculatePositions pos dim k
    some ({ h with
      queue := h.queue ++ [asInt position]
      reports := h.reports ++ [(pos, position)] }, b.goto (.examine pos (k + 1)))
  | .unlockField => some ({ h with fieldMutex := none }, b.goto (.arrive .first))
  | .arrive stop => some (h.arrive a.serial, b.goto (.await stop h.barrier.generation))
  | .await stop generation =>
    if generation < h.barrier.generation then some (h, b.leave i h.serial stop) else none
  | .bear =>
    some (h, b.goto (if bearAttack a.attack a.success then .storeTerminate else .arrive .second))
  | .storeTerminate => some ({ h with mustTerminate := true }, b.goto .storeDestroyed)
  | .storeDestroyed => some ({ h with beehiveDestroyed := true }, b.goto (.arrive .second))
  | .left => none

def stepMain (dim : FieldGeometry) (s : State N) : Option (Hive N) :=
  let h := s.shared
  match h.main with
  | .readCount =>
    some { h with main := if h.collected < dim.numberFlowers then .readDestroyed else .storeTerminate }
  | .readDestroyed =>
    some { h with main := if h.beehiveDestroyed then .storeTerminate else .readCount }
  | .storeTerminate => some { h with mustTerminate := true, main := .join 0 }
  | .join i =>
    if hi : i < N then
      if (s.locals ⟨i, hi⟩).pc = .left then some { h with main := .join (i + 1) } else none
    else some { h with main := .report }
  | .report => some { h with main := .printCount h.beehiveDestroyed }
  | .printCount destroyed => some { h with main := .finished destroyed h.collected }
  | .finished _ _ => none

inductive Action (N : ℕ) where
  | bee (turn : Turn N)
  | main

def step (dim : FieldGeometry) (s : State N) : Action N → Option (State N)
  | .bee turn => s.move turn.bee (stepBee dim turn s.shared (s.locals turn.bee))
  | .main => (stepMain dim s).map fun h => { s with shared := h }

def turns (bee : Fin N) (moves : ℕ) (serial : Fin N) : List (Action N) :=
  List.replicate moves (.bee ⟨bee, 50, 0, serial⟩)

def mainSteps (moves : ℕ) : List (Action N) := List.replicate moves .main

end PsOs.Beehive
