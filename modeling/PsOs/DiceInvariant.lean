import PsOs.DiceGame

namespace PsOs.DiceGame

open Threads TransitionSystems

variable {N : ℕ}

inductive Move (i : Fin N) (g : Game N) (p : Player) : Game N → Player → Prop
  | enter (hpc : p.pc = .guard) (hn : 1 < g.state.n) : Move i g p g (p.goto .roll)
  | finish (hpc : p.pc = .guard) (hn : ¬ 1 < g.state.n) :
      Move i g p g { p with pc := .exited, won := !p.loser }
  | pass (hpc : p.pc = .roll) (hl : p.loser = true) : Move i g p g (p.goto (.arrive .rolled))
  | roll (r : ℕ) (hpc : p.pc = .roll) (hl : p.loser = false) (hr : 1 ≤ r) :
      Move i g p { g with state := { g.state with rolls := Function.update g.state.rolls i r } }
        (p.goto (.arrive .rolled))
  | arrive (stop : Stop) (serial : Fin N) (hpc : p.pc = .arrive stop) :
      Move i g p (g.arrive serial) (p.goto (.await stop g.barrier.generation))
  | leave (stop : Stop) (gen : ℕ) (hpc : p.pc = .await stop gen) (hgen : gen < g.barrier.generation) :
      Move i g p g (p.leave i g.serial stop)
  | resetMax (hpc : p.pc = .resetMax) :
      Move i g p { g with state := { g.state with currentMax := 0, currentMaxCount := 0 } }
        (p.goto (.compute 0))
  | compute (k : Fin N) (hpc : p.pc = .compute k) :
      Move i g p { g with state := g.state.count (g.state.rolls k) } (p.goto (.compute (k + 1)))
  | computed (k : ℕ) (hpc : p.pc = .compute k) (hk : g.state.maxN ≤ k) :
      Move i g p g (p.goto (.arrive .maximum))
  | skip (hpc : p.pc = .readCount) (hl : p.loser = true) :
      Move i g p g (p.goto (.arrive .eliminated))
  | readCount (hpc : p.pc = .readCount) (hl : p.loser = false) :
      Move i g p g (p.goto (.readN g.state.currentMaxCount))
  | check (count : ℤ) (hpc : p.pc = .readN count) (hc : count ≠ g.state.n) :
      Move i g p g (p.goto .readRoll)
  | escape (count : ℤ) (hpc : p.pc = .readN count) (hc : count = g.state.n) :
      Move i g p g (p.goto (.arrive .eliminated))
  | lose (hpc : p.pc = .readRoll) (hr : g.state.rolls i = g.state.currentMax) :
      Move i g p g (p.goto .decrement)
  | survive (hpc : p.pc = .readRoll) (hr : g.state.rolls i ≠ g.state.currentMax) :
      Move i g p g (p.goto (.arrive .eliminated))
  | decrement (hpc : p.pc = .decrement) :
      Move i g p { g with state := { g.state with n := g.state.n - 1 } } (p.goto .clearRoll)
  | clearRoll (hpc : p.pc = .clearRoll) :
      Move i g p { g with state := { g.state with rolls := Function.update g.state.rolls i 0 } }
        (p.goto .setLoser)
  | setLoser (hpc : p.pc = .setLoser) :
      Move i g p g { p with pc := .arrive .eliminated, loser := true }

theorem stepPlayer_move {a : Action N} {g g' : Game N} {p p' : Player}
    (h : stepPlayer a g p = some (g', p')) : Move a.player g p g' p' := by
  unfold stepPlayer at h
  cases hpc : p.pc <;> simp only [hpc] at h
  case guard =>
    split at h <;> cases h
    · exact .enter hpc ‹_›
    · exact .finish hpc ‹_›
  case roll =>
    split at h <;> cases h
    · exact .pass hpc ‹_›
    · exact .roll _ hpc (by simpa using ‹¬ p.loser = true›) (Nat.succ_pos _)
  case arrive stop =>
    cases h
    exact .arrive stop a.serial hpc
  case await stop gen =>
    split at h <;> cases h
    exact .leave stop gen hpc ‹_›
  case resetMax =>
    cases h
    exact .resetMax hpc
  case compute k =>
    split at h
    · split at h <;> cases h
      rename_i hk
      exact .compute ⟨k, hk⟩ hpc
    · cases h
      exact .computed k hpc (by omega)
  case readCount =>
    cases h
    cases hl : p.loser with
    | true => simpa using Move.skip hpc hl
    | false => simpa using Move.readCount hpc hl
  case readN count =>
    cases h
    by_cases hc : count = g.state.n
    · simpa [hc] using Move.escape (i := a.player) count hpc hc
    · simpa [hc] using Move.check (i := a.player) count hpc hc
  case readRoll =>
    cases h
    by_cases hr : g.state.rolls a.player = g.state.currentMax
    · simpa [hr] using Move.lose hpc hr
    · simpa [hr] using Move.survive hpc hr
  case decrement =>
    cases h
    exact .decrement hpc
  case clearRoll =>
    cases h
    exact .clearRoll hpc
  case setLoser =>
    cases h
    exact .setLoser hpc
  case exited => cases h

theorem step_move {s t : State N} {a : Action N} (h : step s a = some t) :
    ∃ g' p', Move a.player s.shared (s.locals a.player) g' p' ∧
      t = ⟨g', Function.update s.locals a.player p'⟩ := by
  obtain ⟨g', p', hm, rfl⟩ := Config.move_eq_some.mp h
  exact ⟨g', p', stepPlayer_move hm, rfl⟩

def Pc.offset : Pc → ℕ
  | .guard | .roll | .arrive .rolled | .exited => 0
  | .await .rolled _ | .resetMax | .compute _ | .arrive .maximum => 1
  | .await .maximum _ | .readCount | .readN _ | .readRoll | .decrement | .clearRoll | .setLoser
  | .arrive .eliminated => 2
  | .await .eliminated _ | .arrive .printed => 3
  | .await .printed _ => 4

def Pc.waiting : Pc → Bool
  | .await _ _ => true
  | _ => false

def Player.place (p : Player) : Place := ⟨4 * p.rounds + p.pc.offset, p.pc.waiting⟩

def Player.Alive (p : Player) : Prop := p.loser = false ∧ p.pc ≠ .clearRoll ∧ p.pc ≠ .setLoser

instance : DecidablePred Player.Alive := fun p =>
  inferInstanceAs (Decidable (p.loser = false ∧ p.pc ≠ .clearRoll ∧ p.pc ≠ .setLoser))

def RollOk (g : Game N) (i : Fin N) (p : Player) : Prop :=
  p.won = false ∧ (g.state.rolls i = 0 ↔ p.loser = true)

def PlayerOk (g : Game N) (i : Fin N) (p : Player) : Prop :=
  match p.pc with
  | .guard => p.won = false ∧ (p.loser = true → g.state.rolls i = 0)
  | .roll => p.won = false ∧ (p.loser = true → g.state.rolls i = 0) ∧ 1 < g.state.n
  | .arrive .rolled => RollOk g i p ∧ 1 < g.state.n
  | .await .rolled gen => RollOk g i p ∧ 1 < g.state.n ∧ gen = 4 * p.rounds
  | .resetMax | .compute _ => RollOk g i p ∧ g.serial = some i
  | .arrive _ | .readCount => RollOk g i p
  | .await stop gen => RollOk g i p ∧ gen + 1 = 4 * p.rounds + (Pc.await stop gen).offset
  | .readN c => RollOk g i p ∧ p.loser = false ∧ c = g.state.currentMaxCount
  | .readRoll => RollOk g i p ∧ p.loser = false
  | .decrement | .clearRoll =>
    RollOk g i p ∧ p.loser = false ∧ g.state.rolls i = g.state.currentMax
  | .setLoser => p.won = false ∧ p.loser = false ∧ g.state.rolls i = 0
  | .exited => g.state.n ≤ 1 ∧ p.won = !p.loser ∧ (p.loser = true → g.state.rolls i = 0)

structure MaxOver (st : GameState N) (k : ℕ) : Prop where
  le : ∀ j : Fin N, j < k → st.rolls j ≤ st.currentMax
  attained : st.currentMax = 0 ∨ ∃ j : Fin N, j < k ∧ st.rolls j = st.currentMax
  count : st.currentMaxCount =
    (Finset.univ.filter fun j : Fin N => j < k ∧ st.rolls j = st.currentMax).card

def Stage (g : Game N) (p : Player) : Prop :=
  (∃ gen, p.pc = .await .rolled gen) ∨ p.pc = .resetMax ∨
    (∃ k, p.pc = .compute k ∧ MaxOver g.state k) ∨
    (p.pc = .arrive .maximum ∨ ∃ gen, p.pc = .await .maximum gen) ∧ MaxOver g.state N

/-- While the players eliminate themselves: some player is safe below the maximum, or all
that are left rolled it and nobody passes the test. -/
structure Elimination (s : State N) : Prop where
  fresh : (∀ j, ∃ gen, (s.locals j).pc = .await .maximum gen) → MaxOver s.shared.state N
  max_pos : 1 ≤ s.shared.state.currentMax
  count_pos : 1 ≤ s.shared.state.currentMaxCount
  split : (∃ j, (s.locals j).Alive ∧ s.shared.state.rolls j < s.shared.state.currentMax) ∨
    s.shared.state.currentMaxCount = s.shared.state.n ∧ ∀ j, (s.locals j).Alive →
      s.shared.state.rolls j = s.shared.state.currentMax ∧
      (s.locals j).pc ≠ .readRoll ∧ (s.locals j).pc ≠ .decrement

structure Inv (s : State N) : Prop where
  sync : Synced Player.place s.shared.barrier s.locals
  players : ∀ i, PlayerOk s.shared i (s.locals i)
  maxN : s.shared.state.maxN = N
  n : s.shared.state.n = tally Player.Alive s.locals
  pos : 1 ≤ s.shared.state.n
  computing : s.shared.barrier.generation % 4 = 1 →
    ∃ i, s.shared.serial = some i ∧ Stage s.shared (s.locals i)
  eliminating : s.shared.barrier.generation % 4 = 2 → Elimination s

end PsOs.DiceGame
