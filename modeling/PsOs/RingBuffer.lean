import Mathlib.Data.UInt
import Mathlib.Logic.Function.Basic
import PsOs.TransitionSystems

/-!
`exercise05/task3/task3.c`: child A fills a ring buffer in shared memory and child B sums
its slots, synchronised by two counting semaphores.
-/

namespace PsOs.RingBuffer

open TransitionSystems

def SEM_VALUE_MAX : ℕ := 2 ^ 31 - 1

structure Args where
  N : UInt64
  K : UInt64
  L : UInt64

/-- The arguments for which both `sem_init` calls succeed after the checks of `main`. -/
def Args.Valid (a : Args) : Prop := 1 ≤ a.K.toNat ∧ 1 ≤ a.L.toNat ∧ a.L.toNat ≤ SEM_VALUE_MAX

inductive Pc where
  | test
  | wait
  | access
  | post
  | exited
  deriving DecidableEq

structure Child where
  i : UInt64
  pc : Pc

structure State where
  result : UInt64
  sem1 : ℕ
  sem2 : ℕ
  buffer : UInt64 → UInt64
  producer : Child
  consumer : Child

inductive Action where
  | producer
  | consumer

def init (a : Args) : State where
  result := 0
  sem1 := 0
  sem2 := a.L.toNat
  buffer := fun _ => 0
  producer := ⟨1, .test⟩
  consumer := ⟨1, .test⟩

def semWait (value : ℕ) : Option ℕ := if 0 < value then some (value - 1) else none

/-- `sem_post` fails with `EOVERFLOW` at the maximum, which the program does not check. -/
def semPost (value : ℕ) : ℕ := if value < SEM_VALUE_MAX then value + 1 else value

def Child.goto (c : Child) (pc : Pc) : Child := { c with pc }

def Child.testLoop (K : UInt64) (c : Child) : Child := c.goto (if c.i ≤ K then .wait else .exited)

def Child.next (c : Child) : Child := ⟨c.i + 1, .test⟩

def stepProducer (a : Args) (s : State) : Option State :=
  match s.producer.pc with
  | .test => some { s with producer := s.producer.testLoop a.K }
  | .wait => (semWait s.sem2).map fun v => { s with sem2 := v, producer := s.producer.goto .access }
  | .access => some { s with
      buffer := Function.update s.buffer (s.producer.i % a.L) (s.producer.i * a.N)
      producer := s.producer.goto .post }
  | .post => some { s with sem1 := semPost s.sem1, producer := s.producer.next }
  | .exited => none

def stepConsumer (a : Args) (s : State) : Option State :=
  match s.consumer.pc with
  | .test => some { s with consumer := s.consumer.testLoop a.K }
  | .wait => (semWait s.sem1).map fun v => { s with sem1 := v, consumer := s.consumer.goto .access }
  | .access => some { s with
      result := s.result + s.buffer (s.consumer.i % a.L)
      consumer := s.consumer.goto .post }
  | .post => some { s with sem2 := semPost s.sem2, consumer := s.consumer.next }
  | .exited => none

def step (a : Args) (s : State) : Action → Option State
  | .producer => stepProducer a s
  | .consumer => stepConsumer a s

def validateFrom (K N : UInt64) : ℕ → UInt64 → UInt64 → Option UInt64
  | 0, _, _ => none
  | fuel + 1, i, result =>
    if i ≤ K then validateFrom K N fuel (i + 1) (result - N * i) else some result

def validateResult (fuel : ℕ) (result K N : UInt64) : Option UInt64 :=
  validateFrom K N fuel 1 result

def Child.Inside (c : Child) : Prop := c.pc = .access ∨ c.pc = .post

structure Correct (a : Args) (s : State) : Prop where
  reads : s.consumer.pc = .access → s.buffer (s.consumer.i % a.L) = s.consumer.i * a.N
  exclusive : ¬ (s.producer.Inside ∧ s.consumer.Inside ∧
    s.producer.i % a.L = s.consumer.i % a.L)
  checksum : s.producer.pc = .exited → s.consumer.pc = .exited →
    ∀ fuel > a.K.toNat, validateResult fuel s.result a.K a.N = some 0

def total (N : UInt64) : ℕ → UInt64
  | 0 => 0
  | n + 1 => total N n + UInt64.ofNat (n + 1) * N

theorem ofNat_succ (n : ℕ) : UInt64.ofNat n + 1 = UInt64.ofNat (n + 1) := by
  apply UInt64.toNat_inj.mp
  simp [UInt64.toNat_add, Nat.add_mod]

theorem toNat_ofNat_of_lt {n : ℕ} (h : n < 2 ^ 64) : (UInt64.ofNat n).toNat = n := by
  simpa using Nat.mod_eq_of_lt h

theorem validateFrom_total {K N : UInt64} (hK : K.toNat + 1 < 2 ^ 64) {fuel j : ℕ}
    (hj : j ≤ K.toNat) (hfuel : K.toNat - j < fuel) :
    validateFrom K N fuel (UInt64.ofNat (j + 1)) (total N K.toNat - total N j) = some 0 := by
  induction fuel generalizing j with
  | zero => omega
  | succ fuel ih =>
    have hi : UInt64.ofNat (j + 1) ≤ K ↔ j + 1 ≤ K.toNat := by
      rw [UInt64.le_iff_toNat_le, toNat_ofNat_of_lt (by omega)]
    by_cases hlast : j = K.toNat
    · have hout : ¬ UInt64.ofNat (j + 1) ≤ K := by rw [hi]; omega
      rw [validateFrom, if_neg hout, hlast, UInt64.sub_self]
    · have hin : UInt64.ofNat (j + 1) ≤ K := by rw [hi]; omega
      have hres : total N K.toNat - total N j - N * UInt64.ofNat (j + 1) =
          total N K.toNat - total N (j + 1) := by
        simp only [total]
        grind
      simp only [validateFrom, hin, if_true, ofNat_succ, hres]
      exact ih (by omega) (by omega)

theorem validateResult_total {K N : UInt64} (hK : K.toNat + 1 < 2 ^ 64) {fuel : ℕ}
    (hfuel : K.toNat < fuel) : validateResult fuel (total N K.toNat) K N = some 0 := by
  have h := validateFrom_total (N := N) hK (Nat.zero_le _) hfuel
  simpa [total, validateResult] using h

end PsOs.RingBuffer
