import PsOs.SchedulerMessages

/-! The tokens that the parser takes for numbers. -/

namespace PsOs.Scheduler

open CStrings Decimals Strtok

def digitsOf : List UInt8 → List UInt8
  | [] => []
  | b :: digits => if b = 45 then digits else b :: digits

def IsInteger (token : List UInt8) : Prop :=
  digitsOf token ≠ [] ∧ ∀ d ∈ digitsOf token, isDigit d = true

instance (token : List UInt8) : Decidable (IsInteger token) :=
  inferInstanceAs (Decidable (_ ≠ _ ∧ _))

def integerValue : List UInt8 → ℤ
  | [] => 0
  | b :: digits => if b = 45 then -digitsValue digits else digitsValue (b :: digits)

def Stores (token : List UInt8) (x : Int64) : Prop :=
  IsInteger token → -2 ^ 63 ≤ integerValue token → integerValue token < 2 ^ 63 →
    x.toInt = integerValue token

/-- What the parser is to return for a text with the tokens `ts`, and leave in `m`. -/
structure Parses (ts : List (List UInt8)) (result : Except ParseError ℕ) (m : State) : Prop where
  accepted : (∃ count, result = .ok count ∧ 1 ≤ count) ↔ ts ≠ [] ∧ ∀ t ∈ ts, IsInteger t
  values : ∀ count, result = .ok count → List.Forall₂ Stores ts (m.numbers.toList.take count)
  empty : result = .error .MESSAGE_SIZE_ZERO_ERROR ↔ ts = []
  rejected : result = .error .NOT_A_NUMBER_ERROR ↔ ∃ t ∈ ts, ¬ IsInteger t

section Token

variable {token : List UInt8} {b : UInt8}

theorem not_isSpace (h : isDigit b = true ∨ b = 45) : isSpace b = false := by
  rw [Bool.eq_false_iff]
  intro hspace
  simp only [isSpace, isDigit, Bool.or_eq_true, Bool.and_eq_true, decide_eq_true_eq,
    UInt8.le_iff_toNat_le, ← UInt8.toNat_inj] at h hspace
  have h48 : (48 : UInt8).toNat = 48 := rfl
  have h57 : (57 : UInt8).toNat = 57 := rfl
  have h45 : (45 : UInt8).toNat = 45 := rfl
  have h32 : (32 : UInt8).toNat = 32 := rfl
  have h13 : (13 : UInt8).toNat = 13 := rfl
  omega

theorem IsInteger.exists_cons (h : IsInteger token) : ∃ b digits, token = b :: digits ∧
    (isDigit b = true ∨ b = 45) ∧ ∀ d ∈ digits, isDigit d = true := by
  cases token with
  | nil => exact absurd rfl h.1
  | cons b digits =>
    obtain ⟨-, hdigits⟩ := h
    refine ⟨b, digits, rfl, ?_⟩
    by_cases hb : b = 45
    · rw [digitsOf, if_pos hb] at hdigits
      exact ⟨.inr hb, hdigits⟩
    · rw [digitsOf, if_neg hb] at hdigits
      obtain ⟨hdigit, hdigits⟩ := List.forall_mem_cons.mp hdigits
      exact ⟨.inl hdigit, hdigits⟩

theorem IsInteger.isValid (h : IsInteger token) : isValid token = true := by
  obtain ⟨b, digits, rfl, hb, hdigits⟩ := h.exists_cons
  rw [Scheduler.isValid, List.all_eq_true]
  intro d hd
  rw [Bool.or_eq_true, beq_iff_eq]
  obtain rfl | hmem := List.mem_cons.mp hd
  · exact hb
  · exact .inl (hdigits d hmem)

theorem signedValue_of_isInteger (h : IsInteger token) :
    signedValue (token.dropWhile isSpace) = integerValue token := by
  obtain ⟨b, digits, rfl, hb, hdigits⟩ := h.exists_cons
  rw [List.dropWhile_cons_of_neg (by simp [not_isSpace hb]), signedValue, integerValue]
  obtain hdigit | rfl := hb
  · have hminus : b ≠ 45 := by
      rintro rfl
      cases hdigit
    have hplus : b ≠ 43 := by
      rintro rfl
      cases hdigit
    have hall : ∀ d ∈ b :: digits, isDigit d = true := List.forall_mem_cons.mpr ⟨hdigit, hdigits⟩
    rw [if_neg hminus, if_neg hminus, if_neg hplus, List.takeWhile_eq_self_iff.mpr hall]
  · rw [if_pos rfl, if_pos rfl, List.takeWhile_eq_self_iff.mpr hdigits]

theorem stores_atol (token : List UInt8) : Stores token (atol token) := by
  intro h hlow hhigh
  rw [atol, strtol, signedValue_of_isInteger h]
  apply Int64.toInt_ofIntClamp
  · rw [Int64.toInt_minValue]
    exact hlow
  · rw [Int64.toInt_maxValue]
    omega

end Token

section Tokens

variable {ts : List (List UInt8)}

theorem parseTokens_valid (h : ∀ t ∈ ts, isValid t = true) (numbers : List Int64) :
    parseTokens ts numbers = if numbers ++ ts.map atol = [] then .error .MESSAGE_SIZE_ZERO_ERROR
      else .ok (numbers ++ ts.map atol) := by
  induction ts generalizing numbers with
  | nil => simp [parseTokens]
  | cons t ts ih =>
    obtain ⟨ht, hts⟩ := List.forall_mem_cons.mp h
    rw [parseTokens, if_pos ht, ih hts, List.map_cons, List.append_assoc, List.singleton_append]

theorem parseTokens_invalid (h : ∃ t ∈ ts, isValid t = false) (numbers : List Int64) :
    parseTokens ts numbers = .error .NOT_A_NUMBER_ERROR := by
  induction ts generalizing numbers with
  | nil =>
    obtain ⟨t, ht, -⟩ := h
    cases ht
  | cons t ts ih =>
    by_cases ht : isValid t = true
    · rw [parseTokens, if_pos ht]
      apply ih
      obtain ⟨t', hmem, hinvalid⟩ := h
      obtain rfl | hmem := List.mem_cons.mp hmem
      · rw [hinvalid] at ht
        cases ht
      · exact ⟨t', hmem, hinvalid⟩
    · rw [parseTokens, if_neg ht]

theorem isValid_of_not_exists (h : ¬ ∃ t ∈ ts, isValid t = false) : ∀ t ∈ ts, isValid t = true := by
  intro t ht
  by_contra hinvalid
  exact h ⟨t, ht, Bool.eq_false_iff.mpr hinvalid⟩

end Tokens

section Parses

variable {ts : List (List UInt8)} {result : Except ParseError ℕ} {m : State}

theorem parses_invalid (h : ∃ t ∈ ts, isValid t = false) :
    Parses ts (.error .NOT_A_NUMBER_ERROR) m := by
  obtain ⟨t, ht, hinvalid⟩ := h
  have hnot : ¬ IsInteger t := by
    intro hinteger
    rw [hinteger.isValid] at hinvalid
    cases hinvalid
  constructor
  · constructor
    · rintro ⟨count, hcount, -⟩
      cases hcount
    · rintro ⟨-, hall⟩
      exact absurd (hall t ht) hnot
  · rintro count ⟨⟩
  · constructor
    · rintro ⟨⟩
    · intro hempty
      rw [hempty] at ht
      cases ht
  · exact iff_of_true rfl ⟨t, ht, hnot⟩

theorem parses_empty : Parses [] (.error .MESSAGE_SIZE_ZERO_ERROR) m := by
  constructor
  · simp
  · rintro count ⟨⟩
  · simp
  · simp

theorem parses_integers (hne : ts ≠ []) (h : ∀ t ∈ ts, IsInteger t)
    (hnumbers : m.numbers.toList.take ts.length = ts.map atol) : Parses ts (.ok ts.length) m := by
  have hpos := List.length_pos_iff.mpr hne
  constructor
  · exact iff_of_true ⟨_, rfl, hpos⟩ ⟨hne, h⟩
  · rintro count ⟨⟩
    rw [hnumbers, List.forall₂_map_right_iff, List.forall₂_same]
    exact fun t _ => stores_atol t
  · simpa using hne
  · simpa using h

theorem parses_iff (h : Gives result m (parseTokens ts [])) :
    Parses ts result m ↔ (∀ t ∈ ts, IsInteger t) ∨ ∃ t ∈ ts, isValid t = false := by
  by_cases hinvalid : ∃ t ∈ ts, isValid t = false
  · rw [parseTokens_invalid hinvalid] at h
    obtain rfl := h.1
    exact iff_of_true (parses_invalid hinvalid) (.inr hinvalid)
  · rw [parseTokens_valid (isValid_of_not_exists hinvalid), List.nil_append] at h
    by_cases hempty : ts = []
    · subst hempty
      obtain rfl := h.1
      exact iff_of_true parses_empty (.inl (by simp))
    · rw [if_neg (by simpa using hempty)] at h
      obtain ⟨hresult, hnumbers⟩ := h
      have hok : result = .ok ts.length := hresult.trans (by simp [Except.map])
      subst hok
      constructor
      · intro hparses
        left
        by_contra hall
        push Not at hall
        cases hparses.rejected.mpr hall
      · rintro (hall | hinvalid')
        · exact parses_integers hempty hall (Except.ok.inj hnumbers)
        · exact absurd hinvalid' hinvalid

end Parses

theorem parseNumbers_right_iff {m : State} (h : 0 ∈ m.mesgText.toList) :
    (∃ result m', m.parseNumbers = some (result, m') ∧
        Parses (tokens (stringAt m.mesgText 0)) result m') ↔
      (∀ t ∈ tokens (stringAt m.mesgText 0), IsInteger t) ∨
        ∃ t ∈ tokens (stringAt m.mesgText 0), isValid t = false := by
  obtain ⟨result, m', hparse, hgives⟩ := parseNumbers_eq h
  simp only [hparse, Option.some.injEq, Prod.mk.injEq]
  constructor
  · rintro ⟨_, _, ⟨rfl, rfl⟩, hparses⟩
    exact (parses_iff hgives).mp hparses
  · intro hcondition
    exact ⟨_, _, ⟨rfl, rfl⟩, (parses_iff hgives).mpr hcondition⟩

def twoNumbers : State := (zeroed none).receive (text "12 -7")

theorem parseNumbers_right_twoNumbers :
    (∃ result m', twoNumbers.parseNumbers = some (result, m') ∧
        Parses (tokens (stringAt twoNumbers.mesgText 0)) result m') ↔
      (∀ t ∈ tokens (stringAt twoNumbers.mesgText 0), IsInteger t) ∨
        ∃ t ∈ tokens (stringAt twoNumbers.mesgText 0), isValid t = false :=
  parseNumbers_right_iff (string_received (by decide) none).1

theorem range_accepted : ∃ m' : State,
    ((zeroed none).receive (text "1-2")).parseNumbers = some (.ok 1, m') ∧
      m'.numbers.toList.take 1 = [1] ∧ ¬ IsInteger (text "1-2") ∧
      ¬ ∃ result m'', ((zeroed none).receive (text "1-2")).parseNumbers = some (result, m'') ∧
        Parses (tokens (stringAt ((zeroed none).receive (text "1-2")).mesgText 0)) result m'' := by
  have hended : Ended (text "1-2") := by decide
  obtain ⟨hnul, hstring⟩ := string_received hended none
  obtain ⟨result, m', hparse, hresult, hnumbers⟩ := parseNumbers_eq hnul
  have houtcome : parseNumbers (stringAt ((zeroed none).receive (text "1-2")).mesgText 0) =
      .ok [1] := by
    rw [hstring]
    decide +kernel
  rw [houtcome] at hresult hnumbers
  have hok : result = .ok 1 := hresult
  subst hok
  have hnot : ¬ IsInteger (text "1-2") := by decide
  refine ⟨m', hparse, Except.ok.inj hnumbers, hnot, ?_⟩
  rintro ⟨result, m'', hparse', hparses⟩
  rw [hparse, Option.some.injEq, Prod.mk.injEq] at hparse'
  obtain ⟨rfl, rfl⟩ := hparse'
  have hmem : text "1-2" ∈ tokens (stringAt ((zeroed none).receive (text "1-2")).mesgText 0) := by
    rw [hstring]
    decide +kernel
  cases hparses.rejected.mpr ⟨_, hmem, hnot⟩

end PsOs.Scheduler
