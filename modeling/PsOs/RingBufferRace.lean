import Mathlib.Order.Hom.Basic
import Mathlib.Tactic.Ring
import PsOs.RingBuffer

/-!
`exercise05/task2/task2.c`: the two children of `exercise05/task3/task3.c` without the semaphores.
-/

namespace PsOs.RingBufferRace

open RingBuffer TransitionSystems

/-- The arguments that pass the checks of `main` and for which the size of the shared memory does
not wrap. -/
structure Accepted extends Args where
  operations : 1 ≤ K.toNat
  length : 1 ≤ L.toNat
  size : 8 + L.toNat * 8 < 2 ^ 64

inductive Pc where
  | test
  | access
  | exited
  deriving DecidableEq

structure Child where
  i : UInt64
  pc : Pc

structure State where
  result : UInt64
  buffer : UInt64 → UInt64
  producer : Child
  consumer : Child

inductive Action where
  | producer
  | consumer

def init : State where
  result := 0
  buffer := fun _ => 0
  producer := ⟨1, .test⟩
  consumer := ⟨1, .test⟩

def Child.testLoop (K : UInt64) (c : Child) : Child :=
  { c with pc := if c.i ≤ K then .access else .exited }

def Child.next (c : Child) : Child := ⟨c.i + 1, .test⟩

def stepProducer (a : Accepted) (s : State) : Option State :=
  match s.producer.pc with
  | .test => some { s with producer := s.producer.testLoop a.K }
  | .access => some { s with
      buffer := Function.update s.buffer (s.producer.i % a.L) (s.producer.i * a.N)
      producer := s.producer.next }
  | .exited => none

def stepConsumer (a : Accepted) (s : State) : Option State :=
  match s.consumer.pc with
  | .test => some { s with consumer := s.consumer.testLoop a.K }
  | .access => some { s with
      result := s.result + s.buffer (s.consumer.i % a.L)
      consumer := s.consumer.next }
  | .exited => none

def step (a : Accepted) (s : State) : Action → Option State
  | .producer => stepProducer a s
  | .consumer => stepConsumer a s

def latest (L slot : ℕ) : ℕ → ℕ
  | 0 => 0
  | c + 1 => if (c + 1) % L = slot then c + 1 else latest L slot c

/-- `writes i` is the number of writes that come before the read of round `i`. -/
structure Schedule (K : ℕ) where
  writes : ℕ →o ℕ
  le : ∀ i, writes i ≤ K

def readAt (a : Accepted) (i c : ℕ) : UInt64 :=
  UInt64.ofNat (latest a.L.toNat (i % a.L.toNat) c) * a.N

def readings (a : Accepted) (writes : ℕ → ℕ) : ℕ → UInt64
  | 0 => 0
  | n + 1 => readings a writes n + readAt a (n + 1) (writes (n + 1))

def Outcome (a : Accepted) (result : UInt64) : Prop :=
  ∃ t, Reachable (step a) init t ∧ t.producer.pc = .exited ∧ t.consumer.pc = .exited ∧
    t.result = result

section Schedules

variable {a : Accepted} {c c' : ℕ → ℕ} {n m K P : ℕ}

theorem latest_self (L i : ℕ) : latest L (i % L) i = i := by
  cases i with
  | zero => rfl
  | succ i => exact if_pos rfl

theorem readings_congr (h : ∀ i ≤ n, c i = c' i) : readings a c n = readings a c' n := by
  induction n with
  | zero => rfl
  | succ n ih =>
    rw [readings, readings, ih fun i hi => h i (by omega), h (n + 1) (le_refl _)]

def thenAt (c : ℕ → ℕ) (n P : ℕ) (i : ℕ) : ℕ := if i ≤ n then c i else P

theorem thenAt_of_le {i : ℕ} (h : i ≤ n) : thenAt c n P i = c i := if_pos h

theorem thenAt_succ : thenAt c n P (n + 1) = P := if_neg (by omega)

theorem thenAt_le {i : ℕ} (h : ∀ i, c i ≤ P) : thenAt c n P i ≤ P := by
  unfold thenAt
  split
  · exact h i
  · exact le_refl P

theorem monotone_thenAt (hmono : Monotone c) (h : ∀ i, c i ≤ P) : Monotone (thenAt c n P) := by
  intro i j hij
  by_cases hj : j ≤ n
  · rw [thenAt_of_le hj, thenAt_of_le (hij.trans hj)]
    exact hmono hij
  · rw [show thenAt c n P j = P from if_neg hj]
    exact thenAt_le h

theorem readings_thenAt : readings a (thenAt c n P) (n + 1) = readings a c n + readAt a (n + 1) P := by
  rw [readings, thenAt_succ, readings_congr fun i hi => thenAt_of_le hi]

end Schedules

section Invariant

variable {a : Accepted} {s t : State} {P C : ℕ} {c : ℕ → ℕ}

structure Child.Completed (K : UInt64) (child : Child) (n : ℕ) : Prop where
  counter : child.i = UInt64.ofNat (n + 1)
  bound : n ≤ K.toNat
  access : child.pc = .access → n < K.toNat
  exited : child.pc = .exited → n = K.toNat

theorem Child.Completed.testLoop {K : UInt64} (hK : K.toNat < 2 ^ 64 - 1) {child : Child} {n : ℕ}
    (h : child.Completed K n) : (child.testLoop K).Completed K n := by
  have hbound := h.bound
  have hi : child.i ≤ K ↔ n < K.toNat := by
    rw [h.counter, UInt64.le_iff_toNat_le, toNat_ofNat_of_lt (by omega)]
    omega
  refine ⟨h.counter, hbound, ?_, ?_⟩
  · intro hpc
    by_contra hn
    simp [Child.testLoop, mt hi.mp hn] at hpc
  · intro hpc
    by_contra hn
    simp [Child.testLoop, hi.mpr (show n < K.toNat by omega)] at hpc

theorem Child.Completed.next {K : UInt64} {child : Child} {n : ℕ} (h : child.Completed K n)
    (hpc : child.pc = .access) : child.next.Completed K (n + 1) := by
  refine ⟨?_, h.access hpc, fun hpc => (nomatch hpc), fun hpc => (nomatch hpc)⟩
  rw [Child.next, h.counter, ofNat_succ]

def bufferAfter (a : Accepted) (P : ℕ) (slot : UInt64) : UInt64 :=
  UInt64.ofNat (latest a.L.toNat slot.toNat P) * a.N

theorem bufferAfter_succ (hP : P + 1 < 2 ^ 64) :
    Function.update (bufferAfter a P) (UInt64.ofNat (P + 1) % a.L) (UInt64.ofNat (P + 1) * a.N) =
      bufferAfter a (P + 1) := by
  have hslot : (UInt64.ofNat (P + 1) % a.L).toNat = (P + 1) % a.L.toNat := by
    rw [UInt64.toNat_mod, toNat_ofNat_of_lt hP]
  funext slot
  by_cases h : slot = UInt64.ofNat (P + 1) % a.L
  · rw [h, Function.update_self, bufferAfter, hslot, latest_self]
  · have hne : ¬ (P + 1) % a.L.toNat = slot.toNat := by
      rw [← hslot]
      exact fun heq => h (UInt64.toNat_inj.mp heq.symm)
    rw [Function.update_of_ne h, bufferAfter, bufferAfter, latest, if_neg hne]

theorem bufferAfter_read {C : ℕ} (hC : C + 1 < 2 ^ 64) :
    bufferAfter a P (UInt64.ofNat (C + 1) % a.L) = readAt a (C + 1) P := by
  rw [bufferAfter, UInt64.toNat_mod, toNat_ofNat_of_lt hC, readAt]

structure Inv (a : Accepted) (s : State) (P C : ℕ) (c : ℕ → ℕ) : Prop where
  producer : s.producer.Completed a.K P
  consumer : s.consumer.Completed a.K C
  buffer : s.buffer = bufferAfter a P
  result : s.result = readings a c C
  mono : Monotone c
  le : ∀ i, c i ≤ P

theorem inv_init (a : Accepted) : Inv a init 0 0 (fun _ => 0) := by
  have hchild : (⟨1, .test⟩ : Child).Completed a.K 0 :=
    ⟨rfl, Nat.zero_le _, fun h => (nomatch h), fun h => (nomatch h)⟩
  refine ⟨hchild, hchild, ?_, rfl, monotone_const, fun _ => le_refl 0⟩
  funext slot
  exact (UInt64.zero_mul).symm

theorem inv_stepProducer (hK : a.K.toNat < 2 ^ 64 - 1) (h : Inv a s P C c)
    (hs : stepProducer a s = some t) : ∃ P', Inv a t P' C c := by
  cases hpc : s.producer.pc with
  | test =>
    simp only [stepProducer, hpc, Option.some.injEq] at hs
    subst hs
    exact ⟨P, h.producer.testLoop hK, h.consumer, h.buffer, h.result, h.mono, h.le⟩
  | access =>
    simp only [stepProducer, hpc, Option.some.injEq] at hs
    subst hs
    have hP := h.producer.access hpc
    refine ⟨P + 1, h.producer.next hpc, h.consumer, ?_, h.result, h.mono,
      fun i => (h.le i).trans (Nat.le_succ P)⟩
    rw [h.buffer, h.producer.counter]
    exact bufferAfter_succ (by omega)
  | exited => simp [stepProducer, hpc] at hs

theorem inv_stepConsumer (hK : a.K.toNat < 2 ^ 64 - 1) (h : Inv a s P C c)
    (hs : stepConsumer a s = some t) : ∃ C' c', Inv a t P C' c' := by
  cases hpc : s.consumer.pc with
  | test =>
    simp only [stepConsumer, hpc, Option.some.injEq] at hs
    subst hs
    exact ⟨C, c, h.producer, h.consumer.testLoop hK, h.buffer, h.result, h.mono, h.le⟩
  | access =>
    simp only [stepConsumer, hpc, Option.some.injEq] at hs
    subst hs
    have hC := h.consumer.access hpc
    refine ⟨C + 1, thenAt c C P, h.producer, h.consumer.next hpc, h.buffer, ?_,
      monotone_thenAt h.mono h.le, fun i => thenAt_le h.le⟩
    rw [readings_thenAt, h.result, h.buffer, h.consumer.counter, bufferAfter_read (by omega)]
  | exited => simp [stepConsumer, hpc] at hs

theorem inv_of_reachable (hK : a.K.toNat < 2 ^ 64 - 1) (h : Reachable (step a) init s) :
    ∃ P C c, Inv a s P C c := by
  apply Reachable.invariant (fun s => ∃ P C c, Inv a s P C c) h ⟨0, 0, _, inv_init a⟩
  rintro s act t ⟨P, C, c, hinv⟩ ht
  cases act with
  | producer =>
    obtain ⟨P', h'⟩ := inv_stepProducer hK hinv ht
    exact ⟨P', C, c, h'⟩
  | consumer =>
    obtain ⟨C', c', h'⟩ := inv_stepConsumer hK hinv ht
    exact ⟨P, C', c', h'⟩

end Invariant

section Runs

variable {a : Accepted} {c : ℕ → ℕ} {P C : ℕ}

def stateAt (a : Accepted) (c : ℕ → ℕ) (P C : ℕ) : State where
  result := readings a c C
  buffer := bufferAfter a P
  producer := ⟨UInt64.ofNat (P + 1), .test⟩
  consumer := ⟨UInt64.ofNat (C + 1), .test⟩

theorem stateAt_zero (a : Accepted) (c : ℕ → ℕ) : stateAt a c 0 0 = init := by
  have hbuffer : bufferAfter a 0 = fun _ => 0 := by
    funext slot
    exact UInt64.zero_mul
  rw [stateAt, hbuffer]
  rfl

theorem ofNat_le_iff (hK : a.K.toNat < 2 ^ 64 - 1) (hP : P ≤ a.K.toNat) :
    UInt64.ofNat (P + 1) ≤ a.K ↔ P < a.K.toNat := by
  rw [UInt64.le_iff_toNat_le, toNat_ofNat_of_lt (by omega)]
  omega

theorem run_write (hK : a.K.toNat < 2 ^ 64 - 1) (hP : P < a.K.toNat) :
    run (step a) (stateAt a c P C) [.producer, .producer] = some (stateAt a c (P + 1) C) := by
  have hin := (ofNat_le_iff hK hP.le).mpr hP
  simp only [run, step, stepProducer, stateAt, Child.testLoop, hin, if_true, Child.next,
    Option.bind_some, ofNat_succ, bufferAfter_succ (show P + 1 < 2 ^ 64 by omega)]

theorem run_read (hK : a.K.toNat < 2 ^ 64 - 1) (hC : C < a.K.toNat) (hc : c (C + 1) = P) :
    run (step a) (stateAt a c P C) [.consumer, .consumer] = some (stateAt a c P (C + 1)) := by
  have hin := (ofNat_le_iff hK hC.le).mpr hC
  simp only [run, step, stepConsumer, stateAt, Child.testLoop, hin, if_true, Child.next,
    Option.bind_some, ofNat_succ, bufferAfter_read (show C + 1 < 2 ^ 64 by omega), readings, hc]

theorem reachable_writes (hK : a.K.toNat < 2 ^ 64 - 1) {P' : ℕ} (hle : P ≤ P')
    (hP' : P' ≤ a.K.toNat) : Reachable (step a) (stateAt a c P C) (stateAt a c P' C) := by
  induction P', hle using Nat.le_induction with
  | base => exact .refl
  | succ n hn ih => exact (ih (by omega)).trans (reachable_of_run (run_write hK (by omega)))

theorem reachable_stateAt (hK : a.K.toNat < 2 ^ 64 - 1) (σ : Schedule a.K.toNat)
    (hC : C ≤ a.K.toNat) :
    ∃ P ≤ σ.writes (C + 1), Reachable (step a) init (stateAt a σ.writes P C) := by
  induction C with
  | zero =>
    refine ⟨0, Nat.zero_le _, ?_⟩
    rw [stateAt_zero]
    exact .refl
  | succ C ih =>
    obtain ⟨P, hP, hreach⟩ := ih (by omega)
    refine ⟨σ.writes (C + 1), σ.writes.monotone (by omega), ?_⟩
    have hwrites := reachable_writes (c := σ.writes) (C := C) hK hP (σ.le _)
    exact (hreach.trans hwrites).trans (reachable_of_run (run_read hK hC rfl))

theorem outcome_readings (hK : a.K.toNat < 2 ^ 64 - 1) (σ : Schedule a.K.toNat) :
    Outcome a (readings a σ.writes a.K.toNat) := by
  obtain ⟨P, hP, hreach⟩ := reachable_stateAt hK σ (le_refl a.K.toNat)
  have hfull := reachable_writes (c := σ.writes) (C := a.K.toNat) hK (hP.trans (σ.le _)) (le_refl _)
  have hout : ¬ UInt64.ofNat (a.K.toNat + 1) ≤ a.K := by
    rw [ofNat_le_iff hK (le_refl _)]
    omega
  have hend : run (step a) (stateAt a σ.writes a.K.toNat a.K.toNat) [.producer, .consumer] =
      some { stateAt a σ.writes a.K.toNat a.K.toNat with
        producer := ⟨UInt64.ofNat (a.K.toNat + 1), .exited⟩
        consumer := ⟨UInt64.ofNat (a.K.toNat + 1), .exited⟩ } := by
    simp only [run, step, stepProducer, stepConsumer, stateAt, Child.testLoop, hout, if_false,
      Option.bind_some]
  exact ⟨_, (hreach.trans hfull).trans (reachable_of_run hend), rfl, rfl, rfl⟩

end Runs

/-- What child B can print is what the schedules of its reads between the writes of child A give. -/
theorem outcome_iff {a : Accepted} (hK : a.K.toNat < 2 ^ 64 - 1) (r : UInt64) :
    Outcome a r ↔ ∃ σ : Schedule a.K.toNat, r = readings a σ.writes a.K.toNat := by
  constructor
  · rintro ⟨t, hreach, hproducer, hconsumer, rfl⟩
    obtain ⟨P, C, c, hinv⟩ := inv_of_reachable hK hreach
    obtain rfl := hinv.producer.exited hproducer
    obtain rfl := hinv.consumer.exited hconsumer
    exact ⟨⟨⟨c, hinv.mono⟩, hinv.le⟩, hinv.result⟩
  · rintro ⟨σ, rfl⟩
    exact outcome_readings hK σ

def oneSlot : Accepted where
  N := 3
  K := 2
  L := 1
  operations := by decide
  length := by decide
  size := by decide

theorem outcome_oneSlot : Outcome oneSlot 12 := by
  rw [outcome_iff (by decide)]
  exact ⟨⟨⟨fun _ => 2, monotone_const⟩, fun _ => le_refl 2⟩, by decide +kernel⟩

section Fits

variable {a : Accepted} {c c' : ℕ → ℕ} {n m K L : ℕ}

def seen (c : ℕ → ℕ) : ℕ → ℕ
  | 0 => 0
  | n + 1 => seen c n + if n + 1 ≤ c (n + 1) then n + 1 else 0

theorem mod_eq_mod_iff {i j : ℕ} (hi : 1 ≤ i) (hiL : i ≤ L) (hj : 1 ≤ j) (hjL : j ≤ L) :
    i % L = j % L ↔ i = j := by
  refine ⟨fun h => ?_, fun h => by rw [h]⟩
  obtain rfl | hlt := hiL.eq_or_lt
  · rw [Nat.mod_self] at h
    have hdvd := Nat.le_of_dvd hj (Nat.dvd_of_mod_eq_zero h.symm)
    omega
  · obtain rfl | hlt' := hjL.eq_or_lt
    · rw [Nat.mod_self] at h
      have hdvd := Nat.le_of_dvd hi (Nat.dvd_of_mod_eq_zero h)
      omega
    · rwa [Nat.mod_eq_of_lt hlt, Nat.mod_eq_of_lt hlt'] at h

theorem latest_of_fits {i P : ℕ} (hi : 1 ≤ i) (hiL : i ≤ L) (hPL : P ≤ L) :
    latest L (i % L) P = if i ≤ P then i else 0 := by
  induction P with
  | zero => rw [latest, if_neg (by omega)]
  | succ P ih =>
    have hslot : (P + 1) % L = i % L ↔ P + 1 = i := mod_eq_mod_iff (by omega) hPL hi hiL
    by_cases heq : P + 1 = i
    · rw [latest, if_pos (hslot.mpr heq), if_pos heq.ge, heq]
    · rw [latest, if_neg (mt hslot.mp heq), ih (by omega)]
      split <;> split <;> omega

theorem readings_of_fits (hn : n ≤ a.L.toNat) (hc : ∀ i, c i ≤ a.L.toNat) :
    readings a c n = UInt64.ofNat (seen c n) * a.N := by
  induction n with
  | zero => exact UInt64.zero_mul.symm
  | succ n ih =>
    rw [readings, ih (by omega), readAt, latest_of_fits (by omega) hn (hc _), seen,
      UInt64.ofNat_add, UInt64.add_mul]

theorem triangle_succ (n : ℕ) : (n + 1) * (n + 1 + 1) / 2 = n * (n + 1) / 2 + (n + 1) := by
  rw [show (n + 1) * (n + 1 + 1) = n * (n + 1) + (n + 1) * 2 by ring]
  exact Nat.add_mul_div_right _ _ (by omega)

theorem seen_le (c : ℕ → ℕ) (n : ℕ) : seen c n ≤ n * (n + 1) / 2 := by
  induction n with
  | zero => exact le_refl 0
  | succ n ih =>
    rw [seen, triangle_succ]
    split <;> omega

theorem seen_congr (h : ∀ i ≤ n, c i = c' i) : seen c n = seen c' n := by
  induction n with
  | zero => rfl
  | succ n ih => rw [seen, seen, ih fun i hi => h i (by omega), h (n + 1) (le_refl _)]

theorem exists_schedule_seen (h : m ≤ n * (n + 1) / 2) : ∃ σ : Schedule n, seen σ.writes n = m := by
  induction n generalizing m with
  | zero => exact ⟨⟨⟨fun _ => 0, monotone_const⟩, fun _ => le_refl 0⟩, (Nat.le_zero.mp h).symm⟩
  | succ n ih =>
    rw [triangle_succ] at h
    by_cases hm : m ≤ n * (n + 1) / 2
    · obtain ⟨σ, hσ⟩ := ih hm
      refine ⟨⟨σ.writes, fun i => (σ.le i).trans (Nat.le_succ n)⟩, ?_⟩
      have hlate : ¬ n + 1 ≤ σ.writes (n + 1) := Nat.not_le.mpr (Nat.lt_succ_of_le (σ.le _))
      change seen σ.writes (n + 1) = m
      rw [seen, hσ, if_neg hlate, Nat.add_zero]
    · have hn : n ≤ n * (n + 1) / 2 := by
        rw [Nat.le_div_iff_mul_le (by omega)]
        cases n with
        | zero => exact le_refl 0
        | succ n => exact Nat.mul_le_mul_left _ (by omega)
      obtain ⟨σ, hσ⟩ := ih (show m - (n + 1) ≤ n * (n + 1) / 2 by omega)
      have hle : ∀ i, σ.writes i ≤ n + 1 := fun i => (σ.le i).trans (Nat.le_succ n)
      refine ⟨⟨⟨thenAt σ.writes n (n + 1), monotone_thenAt σ.writes.monotone hle⟩,
        fun i => thenAt_le hle⟩, ?_⟩
      change seen (thenAt σ.writes n (n + 1)) (n + 1) = m
      rw [seen, thenAt_succ, if_pos (le_refl _), seen_congr fun i hi => thenAt_of_le hi, hσ]
      omega

end Fits

theorem outcome_iff_of_fits {a : Accepted} (hK : a.K.toNat < 2 ^ 64 - 1)
    (hfits : a.K.toNat ≤ a.L.toNat) (r : UInt64) :
    Outcome a r ↔ ∃ m ≤ a.K.toNat * (a.K.toNat + 1) / 2, r = UInt64.ofNat m * a.N := by
  have hreadings : ∀ σ : Schedule a.K.toNat,
      readings a σ.writes a.K.toNat = UInt64.ofNat (seen σ.writes a.K.toNat) * a.N :=
    fun σ => readings_of_fits hfits fun i => (σ.le i).trans hfits
  rw [outcome_iff hK]
  constructor
  · rintro ⟨σ, rfl⟩
    exact ⟨_, seen_le _ _, hreadings σ⟩
  · rintro ⟨m, hm, rfl⟩
    obtain ⟨σ, rfl⟩ := exists_schedule_seen hm
    exact ⟨σ, (hreadings σ).symm⟩

def twoSlots : Accepted where
  N := 3
  K := 2
  L := 2
  operations := by decide
  length := by decide
  size := by decide

theorem outcome_twoSlots : Outcome twoSlots 6 := by
  rw [outcome_iff_of_fits (by decide) (by decide)]
  exact ⟨2, by decide, by decide⟩

section Checksum

variable {a : Accepted} {K N r : UInt64} {n : ℕ}

theorem validateFrom_eq (hK : K.toNat + 1 < 2 ^ 64) {fuel j : ℕ} (hj : j ≤ K.toNat)
    (hfuel : K.toNat - j < fuel) (r : UInt64) :
    validateFrom K N fuel (UInt64.ofNat (j + 1)) r = some (r - (total N K.toNat - total N j)) := by
  induction fuel generalizing j r with
  | zero => omega
  | succ fuel ih =>
    have hi : UInt64.ofNat (j + 1) ≤ K ↔ j + 1 ≤ K.toNat := by
      rw [UInt64.le_iff_toNat_le, toNat_ofNat_of_lt (by omega)]
    by_cases hlast : j = K.toNat
    · have hout : ¬ UInt64.ofNat (j + 1) ≤ K := by rw [hi]; omega
      rw [validateFrom, if_neg hout, hlast, UInt64.sub_self, UInt64.sub_zero]
    · have hin : UInt64.ofNat (j + 1) ≤ K := by rw [hi]; omega
      rw [validateFrom, if_pos hin, ofNat_succ, ih (by omega) (by omega), total]
      congr 1
      grind

theorem validateResult_eq (hK : K.toNat + 1 < 2 ^ 64) {fuel : ℕ} (hfuel : K.toNat < fuel) :
    validateResult fuel r K N = some (r - total N K.toNat) := by
  have h := validateFrom_eq (N := N) hK (Nat.zero_le _) hfuel r
  rwa [total, UInt64.sub_zero] at h

def firstEarly (K : ℕ) : Schedule K where
  writes := ⟨fun i => if i ≤ 1 then 0 else min i K, by
    intro i j hij
    dsimp only
    split <;> split <;> omega⟩
  le i := by
    change (if i ≤ 1 then 0 else min i K) ≤ K
    split <;> omega

theorem readings_firstEarly (hn : n + 1 ≤ a.K.toNat) :
    readings a (firstEarly a.K.toNat).writes (n + 1) = total a.N (n + 1) - a.N := by
  induction n with
  | zero =>
    change (0 : UInt64) + UInt64.ofNat 0 * a.N = 0 + UInt64.ofNat 1 * a.N - a.N
    simp
  | succ n ih =>
    have hwrites : (firstEarly a.K.toNat).writes (n + 1 + 1) = n + 1 + 1 := by
      change (if n + 1 + 1 ≤ 1 then 0 else min (n + 1 + 1) a.K.toNat) = _
      rw [if_neg (by omega), min_eq_left hn]
    have htotal : total a.N (n + 1 + 1) = total a.N (n + 1) + UInt64.ofNat (n + 1 + 1) * a.N := rfl
    rw [readings, ih (by omega), hwrites, readAt, latest_self, htotal]
    grind

theorem validated_iff (hK : a.K.toNat < 2 ^ 64 - 1) :
    (∀ r, Outcome a r → ∀ fuel > a.K.toNat, validateResult fuel r a.K a.N = some 0) ↔ a.N = 0 := by
  have hvalid : ∀ {r fuel}, a.K.toNat < fuel →
      (validateResult fuel r a.K a.N = some 0 ↔ r = total a.N a.K.toNat) := by
    intro r fuel hfuel
    rw [validateResult_eq (by omega) hfuel, Option.some.injEq]
    grind
  constructor
  · intro hall
    have hr := hall _ (outcome_readings hK (firstEarly _)) _ (Nat.lt_succ_self _)
    rw [hvalid (Nat.lt_succ_self _)] at hr
    obtain ⟨n, hn⟩ := Nat.exists_eq_add_of_le' a.operations
    have hearly := readings_firstEarly (a := a) (n := n) hn.ge
    rw [← hn, hr] at hearly
    grind
  · rintro hN r hr fuel hfuel
    rw [hvalid hfuel]
    obtain ⟨σ, rfl⟩ := (outcome_iff hK r).mp hr
    have hreadings : ∀ n, readings a σ.writes n = 0 := by
      intro n
      induction n with
      | zero => rfl
      | succ n ih => rw [readings, ih, readAt, hN, UInt64.mul_zero, UInt64.add_zero]
    have htotal : ∀ n, total a.N n = 0 := by
      intro n
      induction n with
      | zero => rfl
      | succ n ih => rw [total, ih, hN, UInt64.mul_zero, UInt64.add_zero]
    rw [hreadings, htotal]

theorem not_validated_twoSlots : ¬ ∀ r, Outcome twoSlots r →
    ∀ fuel > twoSlots.K.toNat, validateResult fuel r twoSlots.K twoSlots.N = some 0 := by
  rw [validated_iff (by decide)]
  decide

end Checksum

end PsOs.RingBufferRace
