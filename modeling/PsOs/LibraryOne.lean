import Mathlib.Dynamics.PeriodicPts.Lemmas
import PsOs.CStrings

/-! The plugin `exercise10/task3/library_one.c` for `map_string`, and how often it is loaded. -/

namespace PsOs.LibraryOne

open CStrings

def substitutionTable : List UInt8 :=
  ['Q', 'W', 'E', 'R', 'T', 'Y', 'U', 'I', 'O', 'P', 'A', 'S', 'D', 'F', 'G', 'H', 'J', 'K', 'L', 'Z',
    'X', 'C', 'V', 'B', 'N', 'M'].map byte

def isLower (c : UInt8) : Bool := 'a'.toUInt8 ≤ c && c ≤ 'z'.toUInt8

def isUpper (c : UInt8) : Bool := 'A'.toUInt8 ≤ c && c ≤ 'Z'.toUInt8

def substituteChar (c : UInt8) : UInt8 :=
  if isLower c then
    substitutionTable.getD (c - 'a'.toUInt8).toNat 0 + ('a'.toUInt8 - 'A'.toUInt8)
  else if isUpper c then substitutionTable.getD (c - 'A'.toUInt8).toNat 0
  else c

def transform (input : CString) : List UInt8 := mapInPlace substituteChar input.toBuffer

def apply (s : CString) : CString := .read (transform s)

def SameKind (b b' : UInt8) : Prop :=
  isLower b' = isLower b ∧ isUpper b' = isUpper b ∧
    (isLower b = false → isUpper b = false → b' = b)

instance (b b' : UInt8) : Decidable (SameKind b b') := inferInstanceAs (Decidable (_ ∧ _ ∧ _))

/-- `l` and `s` change places; no other letter is back after 26 rounds. -/
def Restored (b : UInt8) : Prop := isLower b = true ∨ isUpper b = true → b ∈ text "lsLS"

instance (b : UInt8) : Decidable (Restored b) :=
  inferInstanceAs (Decidable (_ → _))

section Bytes

theorem forall_byte {P : UInt8 → Prop} (h : ∀ n < 256, P (UInt8.ofNat n)) (b : UInt8) : P b := by
  simpa using h b.toNat b.toNat_lt

theorem sameKind_substituteChar : ∀ b, SameKind b (substituteChar b) :=
  forall_byte (by decide +kernel)

theorem substituteChar_ne_zero : ∀ b, b ≠ 0 → substituteChar b ≠ 0 :=
  forall_byte (by decide +kernel)

theorem iterate_other {b : UInt8} (h : isLower b = false) (h' : isUpper b = false) (k : ℕ) :
    substituteChar^[k] b = b := by
  apply Function.iterate_fixed
  rw [substituteChar, if_neg (by simp [h]), if_neg (by simp [h'])]

theorem forall_letter {P : UInt8 → Prop} (h : ∀ n < 58, P (UInt8.ofNat (n + 65))) {b : UInt8}
    (hb : ¬ (isLower b = false ∧ isUpper b = false)) : P b := by
  have hall : ∀ b, ¬ (isLower b = false ∧ isUpper b = false) → 65 ≤ b.toNat ∧ b.toNat < 123 :=
    forall_byte (by decide +kernel)
  have hrange := hall b hb
  have hletter := h (b.toNat - 65) (by omega)
  rw [Nat.sub_add_cancel hrange.1] at hletter
  simpa using hletter

theorem iterate_26_eq_iff (b : UInt8) : substituteChar^[26] b = b ↔ Restored b := by
  by_cases hb : isLower b = false ∧ isUpper b = false
  · apply iff_of_true (iterate_other hb.1 hb.2 26)
    intro hletter
    simp [hb.1, hb.2] at hletter
  · revert hb
    exact forall_letter (P := fun b => substituteChar^[26] b = b ↔ Restored b) (by decide +kernel)

theorem iterate_42 (b : UInt8) : substituteChar^[42] b = b := by
  by_cases hb : isLower b = false ∧ isUpper b = false
  · exact iterate_other hb.1 hb.2 42
  · revert hb
    exact forall_letter (P := fun b => substituteChar^[42] b = b) (by decide +kernel)

end Bytes

theorem apply_bytes (s : CString) : (apply s).bytes = s.bytes.map substituteChar := by
  rw [apply, transform, mapInPlace_toBuffer]
  apply read_map_of_noNul
  intro b hb
  apply substituteChar_ne_zero
  rintro rfl
  exact s.noNul hb

theorem iterate_apply_bytes (k : ℕ) (s : CString) :
    (apply^[k] s).bytes = s.bytes.map substituteChar^[k] := by
  induction k generalizing s with
  | zero => simp
  | succ k ih => rw [Function.iterate_succ_apply, ih, apply_bytes, List.map_map, Function.iterate_succ]

theorem iterate_apply_eq_iff (k : ℕ) (s : CString) :
    apply^[k] s = s ↔ ∀ b ∈ s.bytes, substituteChar^[k] b = b := by
  rw [CString.ext_iff, iterate_apply_bytes]
  nth_rewrite 2 [← List.map_id s.bytes]
  exact List.map_inj_left

/-- The order of the substitution: its cycles have lengths 1, 2, 3 and 21. -/
theorem restores_all_iff (k : ℕ) : (∀ s, apply^[k] s = s) ↔ 42 ∣ k := by
  constructor
  · intro h
    have hperiodic : ∀ b, b ≠ 0 → Function.IsPeriodicPt substituteChar k b := by
      intro b hb
      have hs := h ⟨[b], by simpa using hb.symm⟩
      exact (iterate_apply_eq_iff k _).mp hs b List.mem_cons_self
    have htwo : 2 ∣ k := by
      rw [← Function.minimalPeriod_eq_prime (p := 2) (f := substituteChar) (x := byte 'L')
        (by decide) (by decide)]
      exact (hperiodic _ (by decide)).minimalPeriod_dvd
    have hthree : 3 ∣ k := by
      rw [← Function.minimalPeriod_eq_prime (p := 3) (f := substituteChar) (x := byte 'F')
        (by decide) (by decide)]
      exact (hperiodic _ (by decide)).minimalPeriod_dvd
    have hseven : 7 ∣ k := by
      have hprime : Fact (Nat.Prime 7) := ⟨Nat.prime_seven⟩
      rw [← Function.minimalPeriod_eq_prime (p := 7) (f := substituteChar^[3]) (x := byte 'A')
        (by decide +kernel) (by decide +kernel)]
      exact ((hperiodic _ (by decide)).iterate 3).minimalPeriod_dvd
    omega
  · rintro ⟨m, rfl⟩ s
    rw [iterate_apply_eq_iff]
    intro b _
    have hperiodic : Function.IsPeriodicPt substituteChar 42 b := iterate_42 b
    exact hperiodic.mul_const m

def Keeps (s t : CString) : Prop := List.Forall₂ SameKind s.bytes t.bytes

theorem keeps_apply (s : CString) : Keeps s (apply s) := by
  rw [Keeps, apply_bytes, List.forall₂_map_right_iff, List.forall₂_same]
  exact fun b _ => sameKind_substituteChar b

theorem twentySixRounds_iff (s : CString) :
    (apply^[26] s = s ∧ ∀ t, Keeps t (apply t) ∧ (apply t).length = t.length) ↔
      ∀ b ∈ s.bytes, Restored b := by
  have hkeeps : ∀ t, Keeps t (apply t) ∧ (apply t).length = t.length :=
    fun t => ⟨keeps_apply t, (keeps_apply t).length_eq.symm⟩
  rw [and_iff_left hkeeps, iterate_apply_eq_iff]
  exact forall₂_congr fun b _ => iterate_26_eq_iff b

theorem twentySixRounds_a : (apply^[26] ⟨text "a", by decide⟩).bytes = text "i" ∧
    apply^[26] ⟨text "a", by decide⟩ ≠ ⟨text "a", by decide⟩ := by
  have hbytes : (apply^[26] ⟨text "a", by decide⟩).bytes = text "i" := by
    rw [iterate_apply_bytes]
    decide +kernel
  refine ⟨hbytes, fun heq => ?_⟩
  rw [heq] at hbytes
  exact absurd hbytes (by decide)

end PsOs.LibraryOne
