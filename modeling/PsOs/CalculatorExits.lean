import PsOs.Calculator
import PsOs.Strtod

/-! The exit codes that the calculator is to have, and when it has them. -/

namespace PsOs.Calculator

open CStrings Strtod

section Specification

variable {F : Type} [Field F]

def NumberParser.number (p : NumberParser F) (s : CString) : Option F :=
  match p.parse s.bytes with
  | some (v, []) => some v
  | _ => none

def NumberParser.offset (p : NumberParser F) (env : Environment) : F :=
  (env.OFFSET.bind p.number).getD 0

def TooFew (args : List CString) : Prop := args.length < 2

def IsOperator (args : List CString) (op : Operation) : Prop :=
  ∃ operator ∈ args.head?, operator.bytes = [op.symbol]

def Unknown (args : List CString) : Prop := ∀ op, ¬ IsOperator args op

def NotNumber (p : NumberParser F) (args : List CString) : Prop := ∃ s ∈ args.tail, p.number s = none

def DividesByZero (p : NumberParser F) (args : List CString) : Prop :=
  IsOperator args .div ∧ ∃ s ∈ args.tail.tail, p.number s = some 0

variable [DecidableEq F]

structure Exact (p : NumberParser F) (env : Environment) (name : CString) (args : List CString) :
    Prop where
  tooFew : (main p env name args).exitCode = 13 ↔ TooFew args
  unknown : ¬ TooFew args → ((main p env name args).exitCode = 42 ↔ Unknown args)
  notNumber : ¬ TooFew args → ¬ Unknown args →
    ((main p env name args).exitCode = 15 ↔ NotNumber p args)
  dividesByZero : ¬ TooFew args → ¬ Unknown args → ¬ NotNumber p args →
    ((main p env name args).exitCode = 16 ↔ DividesByZero p args)
  success : ¬ TooFew args → ¬ Unknown args → ¬ NotNumber p args → ¬ DividesByZero p args →
    (main p env name args).exitCode = 0 ∧ ∃ op values, IsOperator args op ∧
      args.tail.map p.number = values.map some ∧
      (main p env name args).result = some (op.fold values + p.offset env)
  unchanged : ∀ result input operator, (calculate (F := F) result input operator).1 = false →
    (calculate result input operator).2 = result

def Decided (p : NumberParser F) : List CString → Prop
  | operator :: operands => operands = [] ∨ check_operator operator = false ∨
      (∃ op : Operation, operator.bytes = [op.symbol]) ∧
        ((∀ s ∈ operands, s.bytes ≠ []) ∨ ∃ s ∈ operands, s.bytes ≠ [] ∧ p.number s = none)
  | [] => True

end Specification

section Operands

variable {F : Type} [Field F] {p : NumberParser F} {s : CString}

omit [Field F] in
theorem number_nil (h : s.bytes = []) : p.number s = none := by
  rw [NumberParser.number, h, p.parse_nil]

theorem strtod_number {v : F} (h : p.number s = some v) : p.strtod s = (v, []) := by
  unfold NumberParser.number at h
  split at h
  case h_1 v' hparse =>
    cases h
    rw [NumberParser.strtod, hparse]
    rfl
  case h_2 => cases h

theorem strtod_end : (p.strtod s).2 = [] ↔ s.bytes = [] ∨ p.number s ≠ none := by
  constructor
  · intro h
    cases hparse : p.parse s.bytes with
    | none =>
      rw [NumberParser.strtod, hparse] at h
      exact .inl h
    | some number =>
      rw [NumberParser.strtod, hparse] at h
      right
      obtain ⟨v, rest⟩ := number
      have hrest : rest = [] := h
      rw [NumberParser.number, hparse, hrest]
      exact Option.some_ne_none v
  · rintro (h | h)
    · rw [NumberParser.strtod, h, p.parse_nil]
      rfl
    · obtain ⟨v, hv⟩ := Option.ne_none_iff_exists'.mp h
      rw [strtod_number hv]

theorem check_offset_eq (env : Environment) : (check_offset p env).1 = p.offset env := by
  unfold check_offset NumberParser.offset
  cases hoffset : env.OFFSET with
  | none => rfl
  | some s =>
    simp only [Option.bind_some]
    cases hnumber : p.number s with
    | some v =>
      rw [strtod_number hnumber]
      rfl
    | none =>
      by_cases hempty : s.bytes = []
      · rw [NumberParser.strtod, hempty, p.parse_nil]
        rfl
      · rw [if_pos]
        · rfl
        · rw [Ne, strtod_end, hnumber]
          simp [hempty]

theorem convert_eq_some (operands : List CString) (h : ∀ s ∈ operands, (p.strtod s).2 = []) :
    convert_str_double p operands = some (operands.map fun s => (p.strtod s).1) := by
  induction operands with
  | nil => rfl
  | cons s operands ih =>
    obtain ⟨hs, hrest⟩ := List.forall_mem_cons.mp h
    rw [convert_str_double, ih hrest, if_neg (not_not.mpr hs)]
    rfl

theorem convert_eq_none (operands : List CString) (h : ∃ s ∈ operands, (p.strtod s).2 ≠ []) :
    convert_str_double p operands = none := by
  induction operands with
  | nil => simp at h
  | cons s operands ih =>
    rw [convert_str_double]
    by_cases hs : (p.strtod s).2 = []
    · have hrest : ∃ s ∈ operands, (p.strtod s).2 ≠ [] := by simpa [hs] using h
      rw [ih hrest]
      simp
    · rw [if_pos hs]

theorem map_number {operands : List CString} (h : ∀ s ∈ operands, p.number s ≠ none) :
    operands.map p.number = (operands.map fun s => (p.strtod s).1).map some := by
  rw [List.map_map]
  apply List.map_congr_left
  intro s hs
  obtain ⟨v, hv⟩ := Option.ne_none_iff_exists'.mp (h s hs)
  rw [Function.comp_apply, strtod_number hv, hv]

end Operands

section Exits

variable {F : Type} [Field F] [DecidableEq F] {p : NumberParser F} {env : Environment}
  {name operator first : CString} {rest : List CString}

theorem main_unknown (h : check_operator operator = false) :
    main p env name (operator :: first :: rest) =
      ⟨UNKNOWN_OPERATOR_ERROR, none, error_message name⟩ := by
  rw [main, if_pos h]

theorem main_notNumber (h : check_operator operator = true)
    (hbad : ∃ s ∈ first :: rest, (p.strtod s).2 ≠ []) :
    (main p env name (operator :: first :: rest)).exitCode = NOT_NUMBER_ERROR := by
  rw [main, if_neg (by simp [h])]
  simp only [convert_eq_none _ hbad]

variable (p env name) in
theorem main_calculated {op : Operation} (hop : deref operator = op.symbol)
    (hall : ∀ s ∈ first :: rest, (p.strtod s).2 = []) :
    let values := (first :: rest).map fun s => (p.strtod s).1
    let exit := main p env name (operator :: first :: rest)
    if op = .div ∧ 0 ∈ values.tail then exit.exitCode = DIVIDE_BY_ZERO_ERROR
    else exit.exitCode = EXIT_SUCCESS ∧ exit.result = some (op.fold values + p.offset env) := by
  intro values exit
  have hcheck : check_operator operator = true := check_operator_iff.mpr ⟨op, hop⟩
  have hexit : exit = main p env name (operator :: first :: rest) := rfl
  rw [main, if_neg (by simp [hcheck]), convert_eq_some _ hall] at hexit
  by_cases hone : rest = []
  · have hvalues : values = [(p.strtod first).1] := by simp [values, hone]
    simp only [if_pos hone] at hexit
    rw [hvalues, if_neg (by simp), hexit, Operation.fold_singleton, ← check_offset_eq]
    exact ⟨rfl, rfl⟩
  · simp only [if_neg hone, calculate_eq hop] at hexit
    by_cases hzero : op = .div ∧ 0 ∈ values.tail
    · rw [if_pos hzero] at hexit ⊢
      rw [hexit]
    · rw [if_neg hzero] at hexit ⊢
      rw [hexit, ← check_offset_eq]
      exact ⟨rfl, rfl⟩

theorem isOperator_iff {args : List CString} {op : Operation} :
    IsOperator (operator :: args) op ↔ operator.bytes = [op.symbol] := by
  simp [IsOperator]

theorem deref_of_bytes {op : Operation} (h : operator.bytes = [op.symbol]) :
    deref operator = op.symbol := by
  rw [deref, CString.toBuffer, h]
  rfl

theorem not_tooFew : ¬ TooFew (operator :: first :: rest) := by
  simp [TooFew]

theorem exact_of_tooFew {args : List CString} (h : TooFew args) : Exact p env name args := by
  have hcode : (main p env name args).exitCode = 13 := by
    match args with
    | [] | [_] => rfl
    | _ :: _ :: _ => exact absurd h not_tooFew
  exact ⟨iff_of_true hcode h, absurd h, absurd h, absurd h, absurd h,
    fun _ _ _ => calculate_unchanged⟩

theorem exact_of_unknown (h : check_operator operator = false) :
    Exact p env name (operator :: first :: rest) := by
  have hcode : (main p env name (operator :: first :: rest)).exitCode = 42 := by
    rw [main_unknown h]
    rfl
  have hunknown : Unknown (operator :: first :: rest) := by
    intro op hop
    have hcheck : check_operator operator = true :=
      check_operator_iff.mpr ⟨op, deref_of_bytes (isOperator_iff.mp hop)⟩
    rw [h] at hcheck
    cases hcheck
  refine ⟨iff_of_false ?_ not_tooFew, fun _ => iff_of_true hcode hunknown, fun _ => absurd hunknown,
    fun _ => absurd hunknown, fun _ => absurd hunknown, fun _ _ _ => calculate_unchanged⟩
  rw [hcode]
  decide

theorem exact_of_notNumber {op : Operation} (hop : operator.bytes = [op.symbol])
    (hbad : ∃ s ∈ first :: rest, s.bytes ≠ [] ∧ p.number s = none) :
    Exact p env name (operator :: first :: rest) := by
  obtain ⟨s, hs, hempty, hnumber⟩ := hbad
  have hend : (p.strtod s).2 ≠ [] := by
    rw [Ne, strtod_end]
    simp [hempty, hnumber]
  have hcode : (main p env name (operator :: first :: rest)).exitCode = 15 :=
    main_notNumber (check_operator_iff.mpr ⟨op, deref_of_bytes hop⟩) ⟨s, hs, hend⟩
  have hknown : ¬ Unknown (operator :: first :: rest) := fun h => h op (isOperator_iff.mpr hop)
  have hnot : NotNumber p (operator :: first :: rest) := ⟨s, hs, hnumber⟩
  refine ⟨iff_of_false ?_ not_tooFew, fun _ => iff_of_false ?_ hknown,
    fun _ _ => iff_of_true hcode hnot, fun _ _ => absurd hnot, fun _ _ => absurd hnot,
    fun _ _ _ => calculate_unchanged⟩
  · rw [hcode]
    decide
  · rw [hcode]
    decide

omit [DecidableEq F] in
theorem dividesByZero_iff {op : Operation} (hop : operator.bytes = [op.symbol])
    (hall : ∀ s ∈ first :: rest, p.number s ≠ none) :
    DividesByZero p (operator :: first :: rest) ↔
      op = .div ∧ 0 ∈ ((first :: rest).map fun s => (p.strtod s).1).tail := by
  have hdiv : IsOperator (operator :: first :: rest) .div ↔ op = .div := by
    rw [isOperator_iff, hop, List.singleton_inj, Operation.symbol_injective.eq_iff]
  have hvalue : ∀ s ∈ rest, p.number s = some 0 ↔ (p.strtod s).1 = 0 := by
    intro s hs
    obtain ⟨v, hv⟩ := Option.ne_none_iff_exists'.mp (hall s (List.mem_cons_of_mem _ hs))
    rw [strtod_number hv, hv, Option.some_inj]
  simp only [DividesByZero, hdiv, List.map_cons, List.tail_cons, List.mem_map]
  apply and_congr_right
  intro _
  apply exists_congr
  intro s
  exact and_congr_right (hvalue s)

theorem exact_of_numbers {op : Operation} (hop : operator.bytes = [op.symbol])
    (hall : ∀ s ∈ first :: rest, p.number s ≠ none) :
    Exact p env name (operator :: first :: rest) := by
  have hknown : ¬ Unknown (operator :: first :: rest) := fun h => h op (isOperator_iff.mpr hop)
  have hnumbers : ¬ NotNumber p (operator :: first :: rest) := fun ⟨s, hs, h⟩ => hall s hs h
  have hexit := main_calculated p env name (deref_of_bytes hop) fun s hs =>
    strtod_end.mpr (.inr (hall s hs))
  have hzero := dividesByZero_iff hop hall
  by_cases h : DividesByZero p (operator :: first :: rest)
  · rw [if_pos (hzero.mp h)] at hexit
    refine ⟨iff_of_false ?_ not_tooFew, fun _ => iff_of_false ?_ hknown,
      fun _ _ => iff_of_false ?_ hnumbers, fun _ _ _ => iff_of_true hexit h,
      fun _ _ _ => absurd h, fun _ _ _ => calculate_unchanged⟩
    all_goals
      rw [hexit]
      decide
  · rw [if_neg (mt hzero.mpr h)] at hexit
    obtain ⟨hcode, hresult⟩ := hexit
    refine ⟨iff_of_false ?_ not_tooFew, fun _ => iff_of_false ?_ hknown,
      fun _ _ => iff_of_false ?_ hnumbers, fun _ _ _ => iff_of_false ?_ h,
      fun _ _ _ _ => ⟨hcode, op, _, isOperator_iff.mpr hop, map_number hall, hresult⟩,
      fun _ _ _ => calculate_unchanged⟩
    all_goals
      rw [hcode]
      decide

variable (p env name) in
theorem exitCode_of_ends {op : Operation} (hop : deref operator = op.symbol)
    (hall : ∀ s ∈ first :: rest, (p.strtod s).2 = []) :
    (main p env name (operator :: first :: rest)).exitCode ≠ 42 ∧
      (main p env name (operator :: first :: rest)).exitCode ≠ 15 := by
  have hexit := main_calculated p env name hop hall
  dsimp only at hexit
  split at hexit
  · rw [hexit]
    decide
  · rw [hexit.1]
    decide

theorem Exact.decided (h : Exact p env name (operator :: first :: rest)) :
    Decided p (operator :: first :: rest) := by
  right
  cases hcheck : check_operator operator with
  | false => exact .inl rfl
  | true =>
    right
    obtain ⟨op', hop'⟩ := check_operator_iff.mp hcheck
    -- the first character is right, so that 42 is not the exit code whatever follows it
    have hknown : ¬ Unknown (operator :: first :: rest) := by
      intro hunknown
      have hcode := (h.unknown not_tooFew).mpr hunknown
      by_cases hbad : ∃ s ∈ first :: rest, (p.strtod s).2 ≠ []
      · rw [main_notNumber hcheck hbad] at hcode
        cases hcode
      · simp only [not_exists, not_and, not_not] at hbad
        exact (exitCode_of_ends p env name hop' hbad).1 hcode
    obtain ⟨op, hop⟩ := not_forall_not.mp hknown
    refine ⟨⟨op, isOperator_iff.mp hop⟩, ?_⟩
    -- empty operands among numbers pass the test of the end pointer
    by_contra hmixed
    simp only [not_or, not_forall, not_exists, not_and, not_not] at hmixed
    obtain ⟨⟨s, hs, hempty⟩, hother⟩ := hmixed
    have hall : ∀ s ∈ first :: rest, (p.strtod s).2 = [] := by
      intro s hs
      by_cases hs' : s.bytes = []
      · exact strtod_end.mpr (.inl hs')
      · exact strtod_end.mpr (.inr (hother s hs hs'))
    have hcode := (h.notNumber not_tooFew hknown).mpr ⟨s, hs, number_nil hempty⟩
    exact (exitCode_of_ends p env name hop' hall).2 hcode

/-- Two tests are too weak: the first character stands for the operator, and the end pointer of
an empty operand is its end. -/
theorem exitCodes_exact_iff (p : NumberParser F) (env : Environment) (name : CString)
    (args : List CString) : Exact p env name args ↔ Decided p args := by
  match args with
  | [] => exact iff_of_true (exact_of_tooFew Nat.two_pos) trivial
  | [operator] => exact iff_of_true (exact_of_tooFew Nat.one_lt_two) (.inl rfl)
  | operator :: first :: rest =>
    constructor
    · exact Exact.decided
    · rintro (h | h | ⟨⟨op, hop⟩, h | h⟩)
      · cases h
      · exact exact_of_unknown h
      · by_cases hall : ∀ s ∈ first :: rest, p.number s ≠ none
        · exact exact_of_numbers hop hall
        · simp only [not_forall, not_not] at hall
          obtain ⟨s, hs, hnumber⟩ := hall
          exact exact_of_notNumber hop ⟨s, hs, h s hs, hnumber⟩
      · exact exact_of_notNumber hop h

end Exits

section Decimal

def decimals : NumberParser ℚ where
  parse s :=
    let signed := sign (s.dropWhile isSpace)
    (decimalRadix.floating signed.2).map fun number =>
      (if signed.1 then -number.1 else number.1, number.2)
  parse_nil := rfl

def noOffset : Environment := ⟨none, .empty⟩

def argument (s : String) : CString := .read (text s)

example : main decimals ⟨some (argument "42.5"), .empty⟩ (argument "calculator")
    [argument "*", argument "2.0", argument "3.0"] = ⟨0, some (97 / 2), []⟩ := by decide +kernel

theorem not_exact :
    ¬ Exact decimals noOffset (argument "calculator") [argument "+", argument ""] ∧
      ¬ Exact decimals noOffset (argument "calculator") [argument "+x", argument "1"] := by
  constructor
  · intro h
    have hknown : ¬ Unknown [argument "+", argument ""] :=
      fun h => h .add (isOperator_iff.mpr rfl)
    have hcode := (h.notNumber not_tooFew hknown).mpr ⟨_, List.mem_cons_self, number_nil rfl⟩
    exact absurd hcode (by decide +kernel)
  · intro h
    have hunknown : Unknown [argument "+x", argument "1"] := by
      intro op hop
      have hlength : (argument "+x").bytes.length ≠ 1 := by decide
      exact hlength (congrArg List.length (isOperator_iff.mp hop))
    have hcode := (h.unknown not_tooFew).mpr hunknown
    exact absurd hcode (by decide +kernel)

end Decimal

end PsOs.Calculator
