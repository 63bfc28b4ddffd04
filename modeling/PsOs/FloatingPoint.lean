import Mathlib.Algebra.Order.Field.Power
import Mathlib.Algebra.Order.Field.Rat
import Mathlib.Data.Int.Log
import Mathlib.Data.Rat.Floor
import Mathlib.Tactic.Linarith
import Mathlib.Tactic.Positivity
import Mathlib.Tactic.Ring

/-! Binary floating-point formats, and rounding to the nearest number of a format, ties to even. -/

namespace PsOs.FloatingPoint

/-- The numbers `m * 2 ^ e` with fewer than `precision` bits in `m` and an exponent in the range. -/
structure Format where
  precision : ℕ
  minExponent : ℤ
  maxExponent : ℤ
  precision_pos : 0 < precision
  exponents : minExponent ≤ maxExponent

def binary64 : Format := ⟨53, -1074, 971, by decide, by decide⟩

def toEven (q : ℚ) : ℤ :=
  if 2 * Int.fract q < 1 ∨ 2 * Int.fract q = 1 ∧ ⌊q⌋ % 2 = 0 then ⌊q⌋ else ⌊q⌋ + 1

namespace Format

variable (format : Format)

def Representable (q : ℚ) : Prop :=
  ∃ m e : ℤ, |m| < 2 ^ format.precision ∧ format.minExponent ≤ e ∧ e ≤ format.maxExponent ∧
    q = m * 2 ^ e

def exponent (q : ℚ) : ℤ := max (Int.log 2 |q| + 1 - format.precision) format.minExponent

def nearest (q : ℚ) : ℚ := toEven (q / 2 ^ format.exponent q) * 2 ^ format.exponent q

def limit : ℚ := 2 ^ (format.maxExponent + format.precision)

end Format

section ToEven

variable {q : ℚ}

end ToEven

namespace Format

variable {format : Format} {q : ℚ}

end Format

end PsOs.FloatingPoint
