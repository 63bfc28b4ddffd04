import Mathlib.Tactic.Ring
import PsOs.CStrings

/-! Decimal numbers as `printf` writes and `strtol` reads them. -/

namespace PsOs.Decimals

open CStrings

def isDigit (b : UInt8) : Bool := 48 ≤ b && b ≤ 57

def digitsValue (ds : List UInt8) : ℕ := ds.foldl (fun v d => 10 * v + (d.toNat - 48)) 0

def decimal (n : ℕ) : List UInt8 := (Nat.toDigits 10 n).map byte

def signedValue : List UInt8 → ℤ
  | [] => 0
  | b :: ds =>
    if b = 45 then -(digitsValue (ds.takeWhile isDigit) : ℤ)
    else if b = 43 then digitsValue (ds.takeWhile isDigit)
    else digitsValue ((b :: ds).takeWhile isDigit)

/-- `strtol` in base 10, which stays at the end of the range on an overflow. -/
def strtol (s : List UInt8) : Int64 := .ofIntClamp (signedValue (s.dropWhile isSpace))

def atoi (s : List UInt8) : Int32 := (strtol s).toInt32

variable {n : ℕ}

theorem byte_toNat {c : Char} (h : c.isDigit = true) : (byte c).toNat = c.toNat := by
  have hle : c.toNat ≤ 57 := by
    simp only [Char.isDigit, Bool.and_eq_true, decide_eq_true_eq] at h
    exact h.2
  simp only [byte, Nat.toUInt8, UInt8.toNat_ofNat']
  omega

theorem isDigit_byte {c : Char} (h : c.isDigit = true) : isDigit (byte c) = true := by
  have hbyte := byte_toNat h
  simp only [Char.isDigit, Bool.and_eq_true, decide_eq_true_eq] at h
  have hle : c.toNat ≤ 57 := h.2
  have hge : 48 ≤ c.toNat := h.1
  simp only [isDigit, Bool.and_eq_true, decide_eq_true_eq, UInt8.le_iff_toNat_le, hbyte]
  exact ⟨hge, hle⟩

theorem decimal_digits : ∀ d ∈ decimal n, isDigit d = true := by
  intro d hd
  obtain ⟨c, hc, rfl⟩ := List.mem_map.mp hd
  exact isDigit_byte (Nat.isDigit_of_mem_toDigits (by decide) (by decide) hc)

theorem length_decimal_le_iff {k : ℕ} (hk : 0 < k) : (decimal n).length ≤ k ↔ n < 10 ^ k := by
  rw [decimal, List.length_map]
  exact Nat.length_toDigits_le_iff (by decide) hk

theorem digitsValue_map_byte {cs : List Char} (h : ∀ c ∈ cs, c.isDigit = true) :
    digitsValue (cs.map byte) = Nat.ofDigitChars 10 cs 0 := by
  rw [digitsValue, List.foldl_map, Nat.ofDigitChars_eq_foldl]
  apply List.foldl_ext
  intro v c hc
  rw [byte_toNat (h c hc)]
  rfl

theorem digitsValue_decimal : digitsValue (decimal n) = n := by
  rw [decimal, digitsValue_map_byte fun c hc =>
    Nat.isDigit_of_mem_toDigits (by decide) (by decide) hc]
  exact Nat.ofDigitChars_ten_toDigits

theorem digitsValue_append (ds es : List UInt8) :
    digitsValue (ds ++ es) = digitsValue ds * 10 ^ es.length + digitsValue es := by
  induction es using List.reverseRecOn with
  | nil => simp [digitsValue]
  | append_singleton es d ih =>
    have hsnoc : ∀ l : List UInt8, digitsValue (l ++ [d]) = 10 * digitsValue l + (d.toNat - 48) := by
      intro l
      simp [digitsValue, List.foldl_append]
    rw [← List.append_assoc, hsnoc, ih, hsnoc, List.length_append, List.length_singleton, pow_succ]
    ring

section Stop

variable {b : UInt8} {s : List UInt8}

theorem takeWhile_stop {p : UInt8 → Bool} (hb : p b = false) (s rest : List UInt8) :
    (s ++ b :: rest).takeWhile p = s.takeWhile p := by
  induction s with
  | nil => simp [hb]
  | cons c s ih => by_cases hc : p c = true <;> simp [hc, ih]

theorem signedValue_stop (hdigit : isDigit b = false) (hminus : b ≠ 45) (hplus : b ≠ 43)
    (s rest : List UInt8) : signedValue (s ++ b :: rest) = signedValue s := by
  cases s with
  | nil => simp [signedValue, hminus, hplus, hdigit, digitsValue]
  | cons c s =>
    simp only [List.cons_append, signedValue, takeWhile_stop hdigit]
    have hcons := takeWhile_stop hdigit (c :: s) rest
    rw [List.cons_append] at hcons
    rw [hcons]

theorem toInt_atoi (hlow : -2 ^ 31 ≤ signedValue (s.dropWhile isSpace))
    (hhigh : signedValue (s.dropWhile isSpace) < 2 ^ 31) :
    (atoi s).toInt = signedValue (s.dropWhile isSpace) := by
  have hclamp : (strtol s).toInt = signedValue (s.dropWhile isSpace) := by
    apply Int64.toInt_ofIntClamp
    · rw [Int64.toInt_minValue]
      omega
    · rw [Int64.toInt_maxValue]
      omega
  rw [atoi, Int64.toInt_toInt32, hclamp]
  apply Int.bmod_eq_of_le <;> omega

end Stop

end PsOs.Decimals
