import PsOs.Barriers
import PsOs.TransitionSystems

/-!
`exercise10/task1/task1.c`: `N` player threads over one barrier of size `N`. Every thread is
there from the start; one that `main` has not created yet is one that has not moved yet.
-/

namespace PsOs.DiceGame

open Threads TransitionSystems

structure GameState (N : ℕ) where
  maxN : ℕ
  n : ℤ
  currentMax : ℕ
  currentMaxCount : ℤ
  rolls : Fin N → ℕ

inductive Stop where
  | rolled
  | maximum
  | eliminated
  | printed
  deriving DecidableEq

inductive Pc where
  | guard
  | roll
  | arrive (stop : Stop)
  | await (stop : Stop) (generation : ℕ)
  | resetMax
  | compute (i : ℕ)
  | readCount
  | readN (count : ℤ)
  | readRoll
  | decrement
  | clearRoll
  | setLoser
  | exited
  deriving DecidableEq

structure Player where
  pc : Pc
  loser : Bool
  won : Bool
  -- the completed loop iterations; no step reads them
  rounds : ℕ

structure Game (N : ℕ) where
  state : GameState N
  barrier : Barrier
  serial : Option (Fin N)

abbrev State (N : ℕ) := Config (Fin N) (Game N) Player

def init (N : ℕ) : State N where
  shared := ⟨⟨N, N, 0, 0, fun _ => 0⟩, .init, none⟩
  locals := fun _ => ⟨.guard, false, false, 0⟩

/-- Player `player` takes a step: `rand` is the result of `rand()` if it rolls, `serial` the
thread that is told so if it completes the barrier. -/
structure Action (N : ℕ) where
  player : Fin N
  rand : ℕ
  serial : Fin N

variable {N : ℕ}

def Player.goto (p : Player) (pc : Pc) : Player := { p with pc }

def Game.arrive (g : Game N) (serial : Fin N) : Game N :=
  let barrier := g.barrier.arrive N
  { g with
    barrier
    serial := if barrier.generation = g.barrier.generation then g.serial else some serial }

def Player.leave (i : Fin N) (serial : Option (Fin N)) (p : Player) : Stop → Player
  | .rolled => p.goto (if serial = some i then .resetMax else .arrive .maximum)
  | .maximum => p.goto .readCount
  | .eliminated => p.goto (.arrive .printed)
  | .printed => { p with pc := .guard, rounds := p.rounds + 1 }

def GameState.count (st : GameState N) (roll : ℕ) : GameState N :=
  if st.currentMax < roll then { st with currentMax := roll, currentMaxCount := 1 }
  else if roll = st.currentMax then { st with currentMaxCount := st.currentMaxCount + 1 }
  else st

def stepPlayer (a : Action N) (g : Game N) (p : Player) : Option (Game N × Player) :=
  let i := a.player
  let st := g.state
  match p.pc with
  | .guard =>
    if 1 < st.n then some (g, p.goto .roll)
    else some (g, { p with pc := .exited, won := !p.loser })
  | .roll =>
    if p.loser then some (g, p.goto (.arrive .rolled))
    else some ({ g with state := { st with rolls := Function.update st.rolls i (a.rand % 6 + 1) } },
      p.goto (.arrive .rolled))
  | .arrive stop => some (g.arrive a.serial, p.goto (.await stop g.barrier.generation))
  | .await stop generation =>
    if generation < g.barrier.generation then some (g, p.leave i g.serial stop) else none
  | .resetMax => some ({ g with state := { st with currentMax := 0, currentMaxCount := 0 } },
      p.goto (.compute 0))
  | .compute k =>
    if k < st.maxN then
      -- `rolls` has `N` entries
      if h : k < N then some ({ g with state := st.count (st.rolls ⟨k, h⟩) }, p.goto (.compute (k + 1)))
      else none
    else some (g, p.goto (.arrive .maximum))
  | .readCount =>
    some (g, p.goto (if p.loser then .arrive .eliminated else .readN st.currentMaxCount))
  | .readN count => some (g, p.goto (if count ≠ st.n then .readRoll else .arrive .eliminated))
  | .readRoll =>
    some (g, p.goto (if st.rolls i = st.currentMax then .decrement else .arrive .eliminated))
  | .decrement => some ({ g with state := { st with n := st.n - 1 } }, p.goto .clearRoll)
  | .clearRoll => some ({ g with state := { st with rolls := Function.update st.rolls i 0 } },
      p.goto .setLoser)
  | .setLoser => some (g, { p with pc := .arrive .eliminated, loser := true })
  | .exited => none

def step (s : State N) (a : Action N) : Option (State N) :=
  s.move a.player (stepPlayer a s.shared (s.locals a.player))

def Player.entered (p : Player) : ℕ :=
  match p.pc with
  | .guard | .exited => p.rounds
  | _ => p.rounds + 1

def remaining (s : State N) : Finset (Fin N) :=
  Finset.univ.filter fun i => (s.locals i).loser = false

end PsOs.DiceGame
