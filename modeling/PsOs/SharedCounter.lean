import Mathlib.Data.Int.ModEq
import PsOs.Threads
import PsOs.TransitionSystems

/-!
`exercise06/task1`: `task1_mutex.c` and `task1_atomic.c` with `T` threads for `THREADS` and any
number of `iterations`. Reading and writing the counter under the mutex are two steps.
-/

namespace PsOs.SharedCounter

open Threads TransitionSystems

def EVEN_INCREASE : Int32 := 42

def ODD_INCREASE : Int32 := -41

inductive Variant where
  | mutex
  | atomic
  deriving DecidableEq

inductive ThreadPc where
  | unborn
  | test (i : ℕ)
  | lock (i : ℕ)
  | read (i : ℕ)
  | write (i : ℕ) (value : UInt32)
  | unlock (i : ℕ)
  | fetchAdd (i : ℕ)
  | returned
  deriving DecidableEq

inductive MainPc where
  | create (i : ℕ)
  | join (i : ℕ)
  | print
  | returned (printed : Int32)
  | failed
  deriving DecidableEq

structure Process (T : ℕ) where
  counter : UInt32
  mutex : Option (Fin T)
  main : MainPc

abbrev State (T : ℕ) := Config (Fin T) (Process T) ThreadPc

def init (T : ℕ) : State T where
  shared := ⟨0, none, .create 0⟩
  locals := fun _ => .unborn

def temp (i : ℕ) : Int32 := if i % 2 = 0 then EVEN_INCREASE else ODD_INCREASE

def Variant.entry (i : ℕ) : Variant → ThreadPc
  | .mutex => .lock i
  | .atomic => .fetchAdd i

variable {T : ℕ}

def Process.goto (p : Process T) (main : MainPc) : Process T := { p with main }

def threadFunc (v : Variant) (iterations : ℕ) (owner : Fin T) (p : Process T) :
    ThreadPc → Option (Process T × ThreadPc)
  | .test i => some (p, if i < iterations then v.entry i else .returned)
  | .lock i => (acquire p.mutex owner).map fun mutex => ({ p with mutex }, .read i)
  | .read i => some (p, .write i p.counter)
  | .write i value => some ({ p with counter := value + (temp i).toUInt32 }, .unlock i)
  | .unlock i => some ({ p with mutex := none }, .test (i + 1))
  | .fetchAdd i => some ({ p with counter := p.counter + (temp i).toUInt32 }, .test (i + 1))
  | .unborn | .returned => none

def stepMain (s : State T) : Option (State T) :=
  let p := s.shared
  match p.main with
  | .create i =>
    if h : i < T then some ⟨p.goto (.create (i + 1)), Function.update s.locals ⟨i, h⟩ (.test 0)⟩
    else some { s with shared := p.goto (.join 0) }
  | .join i =>
    if h : i < T then
      if s.locals ⟨i, h⟩ = .returned then some { s with shared := p.goto (.join (i + 1)) } else none
    else some { s with shared := p.goto .print }
  -- `printf` takes the `unsigned int` for an `int`
  | .print => some { s with shared := p.goto (.returned p.counter.toInt32) }
  | .returned _ | .failed => none

inductive Action (T : ℕ) where
  | main
  | createFails
  | thread (i : Fin T)

def Action.succeeds : Action T → Bool
  | .createFails => false
  | .main | .thread _ => true

def step (v : Variant) (iterations : ℕ) (s : State T) : Action T → Option (State T)
  | .main => stepMain s
  | .createFails =>
    match s.shared.main with
    | .create i => if i < T then some { s with shared := s.shared.goto .failed } else none
    | _ => none
  | .thread i =>
    if s.shared.main = .failed then none
    else s.move i (threadFunc v iterations i s.shared (s.locals i))

inductive Move (v : Variant) (iterations : ℕ) (owner : Fin T) (p : Process T) :
    ThreadPc → Process T → ThreadPc → Prop
  | enter (i : ℕ) (hi : i < iterations) : Move v iterations owner p (.test i) p (v.entry i)
  | leave (i : ℕ) (hi : iterations ≤ i) : Move v iterations owner p (.test i) p .returned
  | lock (i : ℕ) (hfree : p.mutex = none) :
      Move v iterations owner p (.lock i) { p with mutex := some owner } (.read i)
  | read (i : ℕ) : Move v iterations owner p (.read i) p (.write i p.counter)
  | write (i : ℕ) (value : UInt32) : Move v iterations owner p (.write i value)
      { p with counter := value + (temp i).toUInt32 } (.unlock i)
  | unlock (i : ℕ) :
      Move v iterations owner p (.unlock i) { p with mutex := none } (.test (i + 1))
  | fetchAdd (i : ℕ) : Move v iterations owner p (.fetchAdd i)
      { p with counter := p.counter + (temp i).toUInt32 } (.test (i + 1))

theorem threadFunc_move {v : Variant} {iterations : ℕ} {owner : Fin T} {p p' : Process T}
    {pc pc' : ThreadPc} (h : threadFunc v iterations owner p pc = some (p', pc')) :
    Move v iterations owner p pc p' pc' := by
  cases pc with
  | test i =>
    cases h
    by_cases hi : i < iterations
    · rw [if_pos hi]
      exact .enter i hi
    · rw [if_neg hi]
      exact .leave i (not_lt.mp hi)
  | lock i =>
    simp only [threadFunc, Option.map_eq_some_iff, acquire_eq_some] at h
    obtain ⟨mutex, ⟨hfree, rfl⟩, h⟩ := h
    cases h
    exact .lock i hfree
  | read i =>
    cases h
    exact .read i
  | write i value =>
    cases h
    exact .write i value
  | unlock i =>
    cases h
    exact .unlock i
  | fetchAdd i =>
    cases h
    exact .fetchAdd i
  | unborn => cases h
  | returned => cases h

theorem step_thread {v : Variant} {iterations : ℕ} {s t : State T} {i : Fin T}
    (h : step v iterations s (.thread i) = some t) :
    s.shared.main ≠ .failed ∧ ∃ p' pc', Move v iterations i s.shared (s.locals i) p' pc' ∧
      t = ⟨p', Function.update s.locals i pc'⟩ := by
  obtain ⟨hmain, hmove⟩ := Option.ite_none_left_eq_some.mp h
  obtain ⟨p', pc', hfunc, rfl⟩ := Config.move_eq_some.mp hmove
  exact ⟨hmain, p', pc', threadFunc_move hfunc, rfl⟩

theorem Move.main {v : Variant} {iterations : ℕ} {owner : Fin T} {p p' : Process T}
    {pc pc' : ThreadPc} (h : Move v iterations owner p pc p' pc') : p'.main = p.main := by
  cases h <;> rfl

theorem Move.running {v : Variant} {iterations : ℕ} {owner : Fin T} {p p' : Process T}
    {pc pc' : ThreadPc} (h : Move v iterations owner p pc p' pc') :
    pc ≠ .unborn ∧ pc ≠ .returned ∧ pc' ≠ .unborn := by
  cases h with
  | enter i hi =>
    refine ⟨ThreadPc.noConfusion, ThreadPc.noConfusion, ?_⟩
    cases v <;> exact ThreadPc.noConfusion
  | _ => exact ⟨ThreadPc.noConfusion, ThreadPc.noConfusion, ThreadPc.noConfusion⟩

inductive MainMove (s : State T) : State T → Prop
  | create (i : ℕ) (hmain : s.shared.main = .create i) (hi : i < T) : MainMove s
      ⟨s.shared.goto (.create (i + 1)), Function.update s.locals ⟨i, hi⟩ (.test 0)⟩
  | created (i : ℕ) (hmain : s.shared.main = .create i) (hi : T ≤ i) :
      MainMove s { s with shared := s.shared.goto (.join 0) }
  | join (i : ℕ) (hmain : s.shared.main = .join i) (hi : i < T)
      (hreturned : s.locals ⟨i, hi⟩ = .returned) :
      MainMove s { s with shared := s.shared.goto (.join (i + 1)) }
  | joined (i : ℕ) (hmain : s.shared.main = .join i) (hi : T ≤ i) :
      MainMove s { s with shared := s.shared.goto .print }
  | print (hmain : s.shared.main = .print) :
      MainMove s { s with shared := s.shared.goto (.returned s.shared.counter.toInt32) }

theorem stepMain_move {s t : State T} (h : stepMain s = some t) : MainMove s t := by
  unfold stepMain at h
  cases hmain : s.shared.main with
  | create i =>
    simp only [hmain] at h
    by_cases hi : i < T
    · rw [dif_pos hi] at h
      cases h
      exact .create i hmain hi
    · rw [dif_neg hi] at h
      cases h
      exact .created i hmain (not_lt.mp hi)
  | join i =>
    simp only [hmain] at h
    by_cases hi : i < T
    · rw [dif_pos hi] at h
      obtain ⟨hreturned, h⟩ := Option.ite_none_right_eq_some.mp h
      cases h
      exact .join i hmain hi hreturned
    · rw [dif_neg hi] at h
      cases h
      exact .joined i hmain (not_lt.mp hi)
  | print =>
    simp only [hmain] at h
    cases h
    exact .print hmain
  | returned printed =>
    simp only [hmain] at h
    cases h
  | failed =>
    simp only [hmain] at h
    cases h

theorem step_createFails {v : Variant} {iterations : ℕ} {s t : State T}
    (h : step v iterations s .createFails = some t) :
    ∃ i, s.shared.main = .create i ∧ i < T ∧ t = { s with shared := s.shared.goto .failed } := by
  unfold step at h
  cases hmain : s.shared.main with
  | create i =>
    simp only [hmain] at h
    obtain ⟨hi, h⟩ := Option.ite_none_right_eq_some.mp h
    cases h
    exact ⟨i, rfl, hi, rfl⟩
  | _ =>
    simp only [hmain] at h
    cases h

def amount : ℕ → ℤ
  | 0 => 0
  | n + 1 => amount n + (temp n).toInt

theorem amount_eq (n : ℕ) : amount n = 42 * ((n + 1) / 2 : ℕ) - 41 * (n / 2 : ℕ) := by
  induction n with
  | zero => rfl
  | succ n ih =>
    rw [amount, ih, temp]
    by_cases hn : n % 2 = 0
    · rw [if_pos hn]
      change _ + 42 = _
      omega
    · rw [if_neg hn]
      change _ + (-41) = _
      omega

/-- Adding a converted `int` to the counter is adding its value modulo `2 ^ 32`. -/
theorem add_toUInt32_modEq (counter : UInt32) (d : Int32) :
    ((counter + d.toUInt32).toNat : ℤ) ≡ counter.toNat + d.toInt [ZMOD 2 ^ 32] := by
  have hd : (d.toUInt32.toNat : ℤ) ≡ d.toInt [ZMOD 2 ^ 32] := by
    have htoInt : d.toInt = (d.toUInt32.toNat : ℤ).bmod (2 ^ 32) := BitVec.toInt_eq_toNat_bmod _
    rw [htoInt]
    exact Int.bmod_emod.symm
  rw [UInt32.toNat_add, Int.natCast_mod, Nat.cast_add]
  exact (Int.mod_modEq _ _).trans (hd.add_left _)

end PsOs.SharedCounter
