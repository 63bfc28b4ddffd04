import Mathlib.Algebra.Field.Basic
import PsOs.CStrings

/-!
`exercise03/task2/calculator.c` over any field `F`. What `strtod` takes for a number is a
parameter.
-/

namespace PsOs.Calculator

open CStrings

/-- The value of the front that is a number, and what follows it; `none` without such a front. -/
structure NumberParser (F : Type) where
  parse : List UInt8 → Option (F × List UInt8)
  parse_nil : parse [] = none

structure Environment where
  OFFSET : Option CString
  errno : CString

structure Exit (F : Type) where
  exitCode : ℕ
  result : Option F
  stderr : List UInt8
  deriving DecidableEq

def EXIT_SUCCESS : ℕ := 0

def TO_FEW_ARGUMENT_ERROR : ℕ := 13

def UNKNOWN_OPERATOR_ERROR : ℕ := 42

def NOT_NUMBER_ERROR : ℕ := 15

def DIVIDE_BY_ZERO_ERROR : ℕ := 16

def deref (s : CString) : UInt8 := s.toBuffer.headD 0

def check_operator (operator : CString) : Bool :=
  if deref operator = byte '+' then true
  else if deref operator = byte '-' then true
  else if deref operator = byte '*' then true
  else if deref operator = byte '/' then true
  else false

def error_message (name : CString) : List UInt8 :=
  text "Usage: " ++ name.bytes ++
    text " '<operator>' <number> ...\nAvailable operators : +, -, *, / \n"

section Arithmetic

variable {F : Type} [Field F] [DecidableEq F]

def NumberParser.strtod (p : NumberParser F) (s : CString) : F × List UInt8 :=
  (p.parse s.bytes).getD (0, s.bytes)

def convert_str_double (p : NumberParser F) : List CString → Option (List F)
  | [] => some []
  | s :: input =>
    let number := p.strtod s
    if number.2 ≠ [] then none else (convert_str_double p input).map (number.1 :: ·)

def check_offset (p : NumberParser F) (env : Environment) : F × List UInt8 :=
  match env.OFFSET with
  | none => (0, [])
  | some s =>
    let offset := p.strtod s
    if offset.2 ≠ [] then
      (0, text "no valid offset found\n" ++ text ": " ++ env.errno.bytes ++ text "\n")
    else (offset.1, [])

def divide : F → List F → Option F
  | tmp, [] => some tmp
  | tmp, x :: input => if x = 0 then none else divide (tmp / x) input

/-- Whether it succeeds, and what `*result` is then; `none` is not initialised. -/
def calculate (result : Option F) (input : List F) (operator : CString) : Bool × Option F :=
  let tmp := input.headD 0
  if deref operator = byte '+' then (true, some (input.tail.foldl (fun tmp x => tmp + x) tmp))
  else if deref operator = byte '-' then (true, some (input.tail.foldl (fun tmp x => tmp - x) tmp))
  else if deref operator = byte '*' then (true, some (input.tail.foldl (fun tmp x => tmp * x) tmp))
  else if deref operator = byte '/' then
    match divide tmp input.tail with
    | none => (false, result)
    | some tmp => (true, some tmp)
  else (true, some tmp)

def main (p : NumberParser F) (env : Environment) (name : CString) : List CString → Exit F
  | operator :: first :: rest =>
    if check_operator operator = false then ⟨UNKNOWN_OPERATOR_ERROR, none, error_message name⟩
    else
      let offset := check_offset p env
      match convert_str_double p (first :: rest) with
      | none => ⟨NOT_NUMBER_ERROR, none, offset.2 ++ text "Some Input was not a valid double.\n"⟩
      | some values =>
        if rest = [] then ⟨EXIT_SUCCESS, some (values.headD 0 + offset.1), offset.2⟩
        else
          match calculate none values operator with
          | (false, _) => ⟨DIVIDE_BY_ZERO_ERROR, none,
              offset.2 ++ text "Dividing by zero is not possible.\n"⟩
          | (true, result) => ⟨EXIT_SUCCESS, result.map (· + offset.1), offset.2⟩
  | _ => ⟨TO_FEW_ARGUMENT_ERROR, none, error_message name⟩

inductive Operation where
  | add
  | sub
  | mul
  | div
  deriving DecidableEq

namespace Operation

def symbol : Operation → UInt8
  | add => byte '+'
  | sub => byte '-'
  | mul => byte '*'
  | div => byte '/'

theorem symbol_injective : Function.Injective symbol := by
  intro op op' h
  cases op <;> cases op' <;> first | rfl | cases h

def apply : Operation → F → F → F
  | add => fun a b => a + b
  | sub => fun a b => a - b
  | mul => fun a b => a * b
  | div => fun a b => a / b

def fold (op : Operation) (values : List F) : F := values.tail.foldl op.apply (values.headD 0)

omit [DecidableEq F] in
@[simp] theorem fold_singleton (op : Operation) (v : F) : op.fold [v] = v := rfl

end Operation

theorem check_operator_iff {operator : CString} :
    check_operator operator = true ↔ ∃ op : Operation, deref operator = op.symbol := by
  constructor
  · intro h
    unfold check_operator at h
    split at h
    · exact ⟨.add, ‹_›⟩
    split at h
    · exact ⟨.sub, ‹_›⟩
    split at h
    · exact ⟨.mul, ‹_›⟩
    split at h
    · exact ⟨.div, ‹_›⟩
    · cases h
  · rintro ⟨op, hop⟩
    rw [check_operator, hop]
    cases op <;> rfl

theorem divide_eq (tmp : F) (input : List F) :
    divide tmp input = if 0 ∈ input then none else some (input.foldl (fun a b => a / b) tmp) := by
  induction input generalizing tmp with
  | nil => rfl
  | cons x input ih =>
    rw [divide, ih]
    by_cases hx : x = 0
    · simp [hx]
    · simp [hx, Ne.symm hx]

theorem calculate_eq {operator : CString} {op : Operation} (hop : deref operator = op.symbol)
    (result : Option F) (input : List F) :
    calculate result input operator =
      if op = .div ∧ 0 ∈ input.tail then (false, result) else (true, some (op.fold input)) := by
  cases op with
  | add | sub | mul =>
    unfold calculate
    rw [hop]
    rfl
  | div =>
    have hcode : calculate result input operator =
        match divide (input.headD 0) input.tail with
        | none => (false, result)
        | some tmp => (true, some tmp) := by
      unfold calculate
      rw [hop]
      rfl
    rw [hcode, divide_eq]
    by_cases hzero : 0 ∈ input.tail
    · rw [if_pos hzero, if_pos ⟨rfl, hzero⟩]
    · rw [if_neg hzero, if_neg fun h => hzero h.2]
      rfl

theorem calculate_unchanged {result : Option F} {input : List F} {operator : CString}
    (h : (calculate result input operator).1 = false) :
    (calculate result input operator).2 = result := by
  by_cases hop : ∃ op : Operation, deref operator = op.symbol
  · obtain ⟨op, hop⟩ := hop
    rw [calculate_eq hop] at h ⊢
    split at h
    · rw [if_pos ‹_›]
    · cases h
  · rw [not_exists] at hop
    have hother : calculate result input operator = (true, some (input.headD 0)) := by
      have hadd : deref operator ≠ byte '+' := hop .add
      have hsub : deref operator ≠ byte '-' := hop .sub
      have hmul : deref operator ≠ byte '*' := hop .mul
      have hdiv : deref operator ≠ byte '/' := hop .div
      simp only [calculate, if_neg hadd, if_neg hsub, if_neg hmul, if_neg hdiv]
    rw [hother] at h
    cases h

end Arithmetic

end PsOs.Calculator
