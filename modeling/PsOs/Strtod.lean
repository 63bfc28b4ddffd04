import Mathlib.Algebra.Order.Field.Rat
import Mathlib.Tactic.FieldSimp
import PsOs.Decimals
import PsOs.FloatingPoint

/-! `strtod` in the C locale, with the exact value, and what a `double` keeps of a value. -/

namespace PsOs.Strtod

open CStrings Decimals FloatingPoint

inductive Amount where
  | finite (value : ℚ)
  | infinite (negative : Bool)
  | nan
  deriving DecidableEq

namespace Amount

def add : Amount → Amount → Amount
  | finite p, finite q => finite (p + q)
  | finite _, infinite negative | infinite negative, finite _ => infinite negative
  | infinite negative, infinite negative' => if negative = negative' then infinite negative else nan
  | nan, _ | _, nan => nan

def neg : Amount → Amount
  | finite p => finite (-p)
  | infinite negative => infinite (!negative)
  | nan => nan

instance : Zero Amount := ⟨finite 0⟩

instance : Add Amount := ⟨add⟩

instance : Neg Amount := ⟨neg⟩

instance : AddCommMonoid Amount where
  add_assoc a b c := by
    rcases a with p | (_ | _) | _ <;> rcases b with q | (_ | _) | _ <;>
      rcases c with r | (_ | _) | _ <;> first | rfl | exact congrArg finite (add_assoc p q r)
  zero_add a := by
    cases a with
    | finite p => exact congrArg finite (zero_add p)
    | _ => rfl
  add_zero a := by
    cases a with
    | finite p => exact congrArg finite (add_zero p)
    | _ => rfl
  add_comm a b := by
    rcases a with p | (_ | _) | _ <;> rcases b with q | (_ | _) | _ <;>
      first | rfl | exact congrArg finite (add_comm p q)
  nsmul := nsmulRec

def Nonneg (a : Amount) : Prop := ∃ v : ℚ, 0 ≤ v ∧ a = finite v

theorem Nonneg.zero : Nonneg 0 := ⟨0, le_rfl, rfl⟩

theorem Nonneg.add {a b : Amount} (ha : a.Nonneg) (hb : b.Nonneg) : (a + b).Nonneg := by
  obtain ⟨p, hp, rfl⟩ := ha
  obtain ⟨q, hq, rfl⟩ := hb
  exact ⟨p + q, add_nonneg hp hq, rfl⟩

theorem Nonneg.sum {l : List Amount} (h : ∀ a ∈ l, a.Nonneg) : l.sum.Nonneg :=
  List.sum_induction Nonneg (fun _ _ => Nonneg.add) .zero h

theorem Nonneg.eq_zero {a b : Amount} (ha : a.Nonneg) (hb : b.Nonneg) (h : a + b = 0) :
    a = 0 ∧ b = 0 := by
  obtain ⟨p, hp, rfl⟩ := ha
  obtain ⟨q, hq, rfl⟩ := hb
  have hsum : p + q = 0 := finite.inj h
  obtain ⟨rfl, rfl⟩ := (add_eq_zero_iff_of_nonneg hp hq).mp hsum
  exact ⟨rfl, rfl⟩

theorem Nonneg.eq_zero_of_sum {l : List Amount} (h : ∀ a ∈ l, a.Nonneg) (hsum : l.sum = 0) :
    ∀ a ∈ l, a = 0 := by
  induction l with
  | nil => exact nofun
  | cons a l ih =>
    have hrest : ∀ b ∈ l, b.Nonneg := fun b hb => h b (List.mem_cons_of_mem _ hb)
    rw [List.sum_cons] at hsum
    obtain ⟨ha, hl⟩ := (h a List.mem_cons_self).eq_zero (sum hrest) hsum
    exact List.forall_mem_cons.mpr ⟨ha, ih hrest hl⟩

theorem Nonneg.eq_zero_of_add_eq {a b : Amount} {p : ℚ} (ha : a.Nonneg) (hb : b.Nonneg)
    (h : finite p + (a + b) = finite p + a) : b = 0 := by
  obtain ⟨q, -, rfl⟩ := ha
  obtain ⟨r, -, rfl⟩ := hb
  have hsum : p + (q + r) = p + q := finite.inj h
  have hzero : r = 0 := by simpa using hsum
  rw [hzero]
  rfl

section Double

def toDouble : Amount → Amount
  | finite q =>
    if |binary64.nearest q| < binary64.limit then finite (binary64.nearest q)
    else infinite (q < 0)
  | a => a

def IsDouble : Amount → Prop
  | finite q => binary64.Representable q
  | _ => True

end Double

end Amount

def point : UInt8 := 46

def isLower (b : UInt8) : Bool := 97 ≤ b && b ≤ 122

def isUpper (b : UInt8) : Bool := 65 ≤ b && b ≤ 90

def toLower (b : UInt8) : UInt8 := if isUpper b then b + 32 else b

def isHexDigit (b : UInt8) : Bool := isDigit b || (97 ≤ toLower b && toLower b ≤ 102)

def hexDigit (b : UInt8) : ℕ := if isDigit b then b.toNat - 48 else (toLower b).toNat - 87

def isWordChar (b : UInt8) : Bool := isDigit b || isLower b || isUpper b || b == 95

/-- The digits of a number and the letter in front of its exponent, a power of `scale`. -/
structure Radix where
  base : ℕ
  isDigit : UInt8 → Bool
  digit : UInt8 → ℕ
  isMark : UInt8 → Bool
  scale : ℕ
  point_stops : isDigit point = false
  point_unmarked : isMark point = false
  mark_stops : ∀ b, isMark b = true → isDigit b = false

def decimalRadix : Radix where
  base := 10
  isDigit := isDigit
  digit b := b.toNat - 48
  isMark b := b == 101 || b == 69
  scale := 10
  point_stops := rfl
  point_unmarked := rfl
  mark_stops b h := by
    rcases Bool.or_eq_true_iff.mp h with h | h <;> rw [eq_of_beq h] <;> rfl

def hexRadix : Radix where
  base := 16
  isDigit := isHexDigit
  digit := hexDigit
  isMark b := b == 112 || b == 80
  scale := 2
  point_stops := rfl
  point_unmarked := rfl
  mark_stops b h := by
    rcases Bool.or_eq_true_iff.mp h with h | h <;> rw [eq_of_beq h] <;> rfl

def sign : List UInt8 → Bool × List UInt8
  | [] => (false, [])
  | b :: s => if b = 45 then (true, s) else if b = 43 then (false, s) else (false, b :: s)

namespace Radix

variable (radix : Radix)

def value (digits : List UInt8) : ℕ := digits.foldl (fun v d => radix.base * v + radix.digit d) 0

def fraction : List UInt8 → List UInt8 × List UInt8
  | [] => ([], [])
  | b :: s => if b = point then (s.takeWhile radix.isDigit, s.dropWhile radix.isDigit) else ([], b :: s)

def exponent : List UInt8 → ℤ × List UInt8
  | [] => (0, [])
  | b :: s =>
    let digits := (sign s).2.takeWhile Decimals.isDigit
    if radix.isMark b ∧ digits ≠ [] then
      (if (sign s).1 then -(digitsValue digits : ℤ) else digitsValue digits,
        (sign s).2.dropWhile Decimals.isDigit)
    else (0, b :: s)

def floating (s : List UInt8) : Option (ℚ × List UInt8) :=
  let whole := s.takeWhile radix.isDigit
  let fraction := radix.fraction (s.dropWhile radix.isDigit)
  let exponent := radix.exponent fraction.2
  if whole = [] ∧ fraction.1 = [] then none
  else some (radix.value (whole ++ fraction.1) / (radix.base : ℚ) ^ fraction.1.length *
    (radix.scale : ℚ) ^ exponent.1, exponent.2)

end Radix

def dropWord (word s : List UInt8) : Option (List UInt8) :=
  if (s.take word.length).map toLower = word then some (s.drop word.length) else none

def infinity (s : List UInt8) : Option (Amount × List UInt8) :=
  (dropWord (text "inf") s).map fun rest =>
    (.infinite false, (dropWord (text "inity") rest).getD rest)

def dropGroup : List UInt8 → List UInt8
  | [] => []
  | b :: s =>
    if b = 40 ∧ (s.dropWhile isWordChar).head? = some 41 then (s.dropWhile isWordChar).tail
    else b :: s

def notANumber (s : List UInt8) : Option (Amount × List UInt8) :=
  (dropWord (text "nan") s).map fun rest => (.nan, dropGroup rest)

def hexadecimal (s : List UInt8) : Option (ℚ × List UInt8) :=
  (dropWord (text "0x") s).bind hexRadix.floating

def numeral (s : List UInt8) : Option (Amount × List UInt8) :=
  infinity s <|> notANumber s <|> (hexadecimal s <|> decimalRadix.floating s).map fun p =>
    (.finite p.1, p.2)

def strtod (s : List UInt8) : Amount × List UInt8 :=
  let signed := sign (s.dropWhile isSpace)
  match numeral signed.2 with
  | none => (0, s)
  | some (v, rest) => (if signed.1 then -v else v, rest)

end PsOs.Strtod
