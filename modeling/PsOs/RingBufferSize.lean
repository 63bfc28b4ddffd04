import PsOs.Decimals
import PsOs.RingBuffer

/-! The size of the shared memory of `exercise05/task2/task2.c` and `exercise05/task3/task3.c`. -/

namespace PsOs.RingBuffer

open CStrings Decimals

inductive Program where
  | task2
  | task3
  deriving DecidableEq

def Args.parse (n k l : List UInt8) : Args :=
  ⟨(strtol n).toUInt64, (strtol k).toUInt64, (strtol l).toUInt64⟩

def Args.accepted (a : Args) : Bool := !(a.K ≤ 0 || a.L ≤ 0)

/-- `sizeof(todo_t)`: the result, and in `task3` two semaphores of 32 bytes. -/
def Program.header : Program → UInt64
  | .task2 => 8
  | .task3 => 8 + 32 + 32

def Program.sharedMemorySize (p : Program) (a : Args) : UInt64 := p.header + a.L * 8

def semInit (value : UInt32) : Option ℕ :=
  if value.toNat ≤ SEM_VALUE_MAX then some value.toNat else none

def Program.offset (p : Program) (a : Args) (i : UInt64) : ℕ :=
  p.header.toNat + 8 * (i % a.L).toNat

structure Sized (p : Program) (a : Args) : Prop where
  size : (p.sharedMemorySize a).toNat = p.header.toNat + 8 * a.L.toNat
  inside : ∀ i, 1 ≤ i → i ≤ a.K → p.offset a i + 8 ≤ (p.sharedMemorySize a).toNat
  slots : p = .task3 → semInit a.L.toUInt32 = some a.L.toNat

def Program.limit : Program → ℕ
  | .task2 => 2 ^ 61 - 1
  | .task3 => 2 ^ 31

section Size

variable {p : Program} {a : Args}

theorem accepted_iff : a.accepted = true ↔ 0 < a.K.toNat ∧ 0 < a.L.toNat := by
  simp only [Args.accepted, Bool.not_eq_true', Bool.or_eq_false_iff, decide_eq_false_iff_not,
    UInt64.not_le, UInt64.lt_iff_toNat_lt, UInt64.toNat_zero]

theorem size_iff : (p.sharedMemorySize a).toNat = p.header.toNat + 8 * a.L.toNat ↔
    p.header.toNat + 8 * a.L.toNat < 2 ^ 64 := by
  have h8 : (8 : UInt64).toNat = 8 := rfl
  rw [Program.sharedMemorySize, UInt64.toNat_add, UInt64.toNat_mul, h8, Nat.add_mod_mod,
    Nat.mul_comm a.L.toNat 8]
  exact Nat.mod_eq_iff_lt (by decide)

theorem inside_of_size (h : a.accepted = true)
    (hsize : (p.sharedMemorySize a).toNat = p.header.toNat + 8 * a.L.toNat) (i : UInt64) :
    p.offset a i + 8 ≤ (p.sharedMemorySize a).toNat := by
  have hmod : (i % a.L).toNat < a.L.toNat := by
    rw [UInt64.toNat_mod]
    exact Nat.mod_lt _ (accepted_iff.mp h).2
  rw [hsize, Program.offset]
  omega

theorem semInit_iff (L : UInt64) : semInit L.toUInt32 = some L.toNat ↔ L.toNat ≤ SEM_VALUE_MAX := by
  rw [semInit, UInt64.toNat_toUInt32]
  constructor
  · intro h
    split at h
    · rename_i hle
      rw [Option.some.inj h] at hle
      exact hle
    · cases h
  · intro h
    have hmod : L.toNat % 2 ^ 32 = L.toNat := by
      apply Nat.mod_eq_of_lt
      rw [SEM_VALUE_MAX] at h
      omega
    rw [hmod, if_pos h]

end Size

theorem sized_iff (p : Program) {a : Args} (h : a.accepted = true) :
    Sized p a ↔ a.L.toNat < p.limit := by
  have h2 : Program.task2.header.toNat = 8 := rfl
  have h3 : Program.task3.header.toNat = 72 := rfl
  constructor
  · intro hsized
    cases p with
    | task2 =>
      have hlt := size_iff.mp hsized.size
      rw [h2] at hlt
      rw [Program.limit]
      omega
    | task3 =>
      have hle := (semInit_iff a.L).mp (hsized.slots rfl)
      rw [SEM_VALUE_MAX] at hle
      rw [Program.limit]
      omega
  · intro hlt
    have hfits : p.header.toNat + 8 * a.L.toNat < 2 ^ 64 := by
      cases p with
      | task2 =>
        rw [Program.limit] at hlt
        omega
      | task3 =>
        rw [Program.limit] at hlt
        omega
    have hsize := size_iff.mpr hfits
    refine ⟨hsize, fun i _ _ => inside_of_size h hsize i, ?_⟩
    rintro rfl
    apply (semInit_iff a.L).mpr
    rw [Program.limit] at hlt
    rw [SEM_VALUE_MAX]
    omega

theorem sized_tenSlots : Sized .task3 ⟨3, 100, 10⟩ ↔ (10 : UInt64).toNat < Program.task3.limit :=
  sized_iff .task3 (a := ⟨3, 100, 10⟩) (by decide)

/-- With "-1" the size wraps to 0 and to 64, with `2 ^ 61` to the size of the header alone; a
length of `2 ^ 32` starts the semaphore at 0. -/
theorem not_sized :
    (Args.parse (text "1") (text "1") (text "-1")).accepted = true ∧
      Program.task2.sharedMemorySize (Args.parse (text "1") (text "1") (text "-1")) = 0 ∧
      ¬ Sized .task2 (Args.parse (text "1") (text "1") (text "-1")) ∧
      ¬ Sized .task3 (Args.parse (text "1") (text "1") (text "-1")) ∧
      Program.task2.sharedMemorySize
        (Args.parse (text "1") (text "1") (text "2305843009213693952")) = 8 ∧
      semInit (Args.parse (text "1") (text "1") (text "4294967296")).L.toUInt32 = some 0 := by
  have hargs : (Args.parse (text "1") (text "1") (text "-1")).accepted = true := by decide +kernel
  have hlen : (Args.parse (text "1") (text "1") (text "-1")).L.toNat = 2 ^ 64 - 1 := by
    decide +kernel
  have hnot : ∀ p, ¬ Sized p (Args.parse (text "1") (text "1") (text "-1")) := by
    intro p hsized
    have hlt := size_iff.mp hsized.size
    rw [hlen] at hlt
    omega
  refine ⟨hargs, by decide +kernel, hnot _, hnot _, by decide +kernel, by decide +kernel⟩

end PsOs.RingBuffer
