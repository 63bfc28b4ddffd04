import PsOs.Comparators
import PsOs.Decimals

/-! The parsing and the sorting of a message in `exercise05/task1/scheduler.c`. -/

namespace PsOs.Scheduler

open Comparators CStrings Decimals

inductive ParseError where
  | MESSAGE_SIZE_ZERO_ERROR
  | NOT_A_NUMBER_ERROR
  deriving DecidableEq

def isValid (token : List UInt8) : Bool := token.all fun c => isDigit c || c == 45

def atol (token : List UInt8) : Int64 := strtol token

def tokens (mesg_text : List UInt8) : List (List UInt8) :=
  (mesg_text.splitOnP (· == 32)).filter (· ≠ [])

def parseTokens : List (List UInt8) → List Int64 → Except ParseError (List Int64)
  | [], numbers => if numbers = [] then .error .MESSAGE_SIZE_ZERO_ERROR else .ok numbers
  | token :: rest, numbers =>
    if isValid token then parseTokens rest (numbers ++ [atol token])
    else .error .NOT_A_NUMBER_ERROR

def parseNumbers (mesg_text : List UInt8) : Except ParseError (List Int64) :=
  parseTokens (tokens mesg_text) []

/-- `*(int*)a - *(int*)b` for two elements of type `long`. -/
def compare (a b : Int64) : Int32 := a.toInt32 - b.toInt32

def sortedNumbers (qsort : Qsort Int64) (mesg_text : List UInt8) : Option (List Int64) :=
  match parseNumbers mesg_text with
  | .ok numbers => some (qsort compare numbers)
  | .error _ => none

structure SignAgrees (a b : Int64) : Prop where
  neg : compare a b < 0 ↔ a < b
  zero : compare a b = 0 ↔ a = b
  pos : 0 < compare a b ↔ b < a

/-- The larger number exceeds the smaller one by 1 to `2 ^ 31 - 1` up to multiples of `2 ^ 32`. -/
def Near (numbers : List Int64) : Prop :=
  ∀ a ∈ numbers, ∀ b ∈ numbers, a < b →
    0 < (b.toInt - a.toInt) % 2 ^ 32 ∧ (b.toInt - a.toInt) % 2 ^ 32 < 2 ^ 31

instance (numbers : List Int64) : Decidable (Near numbers) :=
  inferInstanceAs (Decidable (∀ a ∈ numbers, ∀ b ∈ numbers, a < b →
    0 < (b.toInt - a.toInt) % 2 ^ 32 ∧ (b.toInt - a.toInt) % 2 ^ 32 < 2 ^ 31))

section Compare

variable {a b : Int64} {numbers : List Int64}

theorem compare_toInt : (compare a b).toInt = (a.toInt - b.toInt).bmod (2 ^ 32) := by
  rw [compare, Int32.toInt_sub, Int64.toInt_toInt32, Int64.toInt_toInt32, Int.sub_bmod_bmod,
    Int.bmod_sub_bmod]

theorem pos_iff : 0 < compare b a ↔
    0 < (b.toInt - a.toInt) % 2 ^ 32 ∧ (b.toInt - a.toInt) % 2 ^ 32 < 2 ^ 31 := by
  rw [Int32.lt_iff_toInt_lt, compare_toInt, Int32.toInt_zero, Int.bmod]
  split <;> omega

theorem neg_iff : compare a b < 0 ↔ 2 ^ 31 ≤ (a.toInt - b.toInt) % 2 ^ 32 := by
  rw [Int32.lt_iff_toInt_lt, compare_toInt, Int32.toInt_zero, Int.bmod]
  split <;> omega

theorem signAgrees_of_near (h : Near numbers) (ha : a ∈ numbers) (hb : b ∈ numbers) :
    SignAgrees a b := by
  have hlt := h a ha b hb
  have hgt := h b hb a ha
  rw [Int64.lt_iff_toInt_lt] at hlt hgt
  have hneg : compare a b < 0 ↔ a < b := by
    rw [neg_iff, Int64.lt_iff_toInt_lt]
    omega
  have hpos : 0 < compare a b ↔ b < a := by
    rw [pos_iff, Int64.lt_iff_toInt_lt]
    omega
  refine ⟨hneg, ?_, hpos⟩
  rw [← Int64.toInt_inj, ← Int32.toInt_inj]
  rw [Int32.lt_iff_toInt_lt, Int64.lt_iff_toInt_lt, Int32.toInt_zero] at hneg hpos
  rw [Int32.toInt_zero]
  omega

theorem follows_of_near (h : Near numbers) : Follows compare (· ≤ ·) numbers := by
  constructor
  · intro a ha b hb
    rw [(signAgrees_of_near h ha hb).neg, Int64.not_le]
  · intro a ha b hb
    rw [(signAgrees_of_near h ha hb).pos, Int64.not_le]

theorem le_preorder : TotalPreorder fun a b : Int64 => a ≤ b :=
  ⟨fun _ _ _ => Int64.le_trans, Int64.le_total⟩

theorem exists_not_sorted (ha : a ∈ numbers) (hb : b ∈ numbers) (hab : a < b)
    (hnear : ¬ 0 < compare b a) : ∃ qsort, Conforms qsort ∧
      ¬ ((qsort compare numbers).Perm numbers ∧ (qsort compare numbers).Pairwise (· ≤ ·)) := by
  have hne : b ≠ a := by
    rintro rfl
    exact Int64.lt_irrefl hab
  obtain ⟨result, hallowed, hpair⟩ := exists_allowed_pair hb ha hne (Int32.not_lt.mp hnear)
  obtain ⟨qsort, hconforms, rfl⟩ := exists_conforms hallowed
  refine ⟨qsort, hconforms, fun ⟨hperm, hsorted⟩ => ?_⟩
  have hba := List.pairwise_pair.mp (hsorted.sublist (hpair hperm))
  exact Int64.not_le.mpr hab hba

end Compare

theorem sortedNumbers_iff {mesg_text : List UInt8} {numbers : List Int64}
    (h : parseNumbers mesg_text = .ok numbers) :
    ((∀ qsort, Conforms qsort → ∃ printed, sortedNumbers qsort mesg_text = some printed ∧
        printed.Perm numbers ∧ printed.Pairwise (· ≤ ·)) ∧
      ∀ a ∈ numbers, ∀ b ∈ numbers, SignAgrees a b) ↔ Near numbers := by
  simp only [sortedNumbers, h, Option.some.injEq, exists_eq_left']
  constructor
  · rintro ⟨hsorted, -⟩ a ha b hb hab
    rw [← pos_iff]
    by_contra hnear
    obtain ⟨qsort, hconforms, hnot⟩ := exists_not_sorted ha hb hab hnear
    exact hnot (hsorted qsort hconforms)
  · intro hnear
    refine ⟨fun qsort hconforms => ?_, fun a ha b hb => signAgrees_of_near hnear ha hb⟩
    have hfollows := follows_of_near hnear
    obtain ⟨hperm, hsorted⟩ := hconforms compare numbers ⟨_, le_preorder, hfollows⟩
    refine ⟨hperm, hsorted.imp_of_mem fun ha hb hab => ?_⟩
    exact (hfollows.le_iff (hperm.mem_iff.mp ha) (hperm.mem_iff.mp hb)).mp hab

theorem sortedNumbers_twoNumbers :
    ((∀ qsort, Conforms qsort → ∃ printed, sortedNumbers qsort (text "7 -3") = some printed ∧
        printed.Perm [7, -3] ∧ printed.Pairwise (· ≤ ·)) ∧
      ∀ a ∈ [7, -3], ∀ b ∈ [7, -3], SignAgrees a b) ↔ Near [7, -3] :=
  sortedNumbers_iff (by decide +kernel)

theorem sortedNumbers_wrong :
    ¬ ∃ qsort, Conforms qsort ∧ ∃ printed, sortedNumbers qsort (text "4294967296 1") = some printed ∧
      printed.Pairwise (· ≤ ·) := by
  rintro ⟨qsort, hconforms, printed, hprinted, hsorted'⟩
  have hparse : parseNumbers (text "4294967296 1") = .ok [4294967296, 1] := by decide +kernel
  have hpreorder : TotalPreorder fun a b : Int64 => a.toInt32 ≤ b.toInt32 :=
    ⟨fun _ _ _ => Int32.le_trans, fun _ _ => Int32.le_total _ _⟩
  have hfollows : Follows compare (fun a b : Int64 => a.toInt32 ≤ b.toInt32) [4294967296, 1] := by
    constructor
    · simp only [List.forall_mem_cons, List.not_mem_nil, false_implies, implies_true, and_true]
      decide
    · simp only [List.forall_mem_cons, List.not_mem_nil, false_implies, implies_true, and_true]
      decide
  obtain ⟨hperm, hsorted⟩ := hconforms compare [4294967296, 1] ⟨_, hpreorder, hfollows⟩
  have hresult : sortedNumbers qsort (text "4294967296 1") = some [4294967296, 1] := by
    rw [sortedNumbers, hparse]
    exact congrArg some (eq_pair hperm hsorted (by decide))
  rw [hprinted, Option.some.injEq] at hresult
  rw [hresult] at hsorted'
  have hwrong : ¬ (4294967296 : Int64) ≤ 1 := by decide
  exact hwrong (List.rel_of_pairwise_cons hsorted' List.mem_cons_self)

end PsOs.Scheduler
