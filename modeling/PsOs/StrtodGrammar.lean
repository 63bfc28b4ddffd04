import PsOs.Strtod

namespace PsOs.Strtod

open CStrings Decimals

def signs : List (List UInt8) := [[], [43], [45]]

inductive Exponent (radix : Radix) : List UInt8 → Prop
  | absent : Exponent radix []
  | present {b : UInt8} {sgn digits : List UInt8} (hb : radix.isMark b = true) (hsgn : sgn ∈ signs)
      (hne : digits ≠ []) (hdigits : ∀ d ∈ digits, isDigit d = true) :
      Exponent radix (b :: (sgn ++ digits))

inductive Fraction (radix : Radix) : List UInt8 → List UInt8 → Prop
  | absent : Fraction radix [] []
  | present {digits : List UInt8} (hdigits : ∀ d ∈ digits, radix.isDigit d = true) :
      Fraction radix digits (point :: digits)

inductive Floating (radix : Radix) : List UInt8 → Prop
  | mk {whole digits fraction exponent : List UInt8} (hwhole : ∀ d ∈ whole, radix.isDigit d = true)
      (hfraction : Fraction radix digits fraction) (hne : whole ≠ [] ∨ digits ≠ [])
      (hexponent : Exponent radix exponent) : Floating radix (whole ++ (fraction ++ exponent))

inductive Numeral : List UInt8 → Prop
  | decimal {s : List UInt8} (hs : Floating decimalRadix s) : Numeral s
  | hexadecimal {mark s : List UInt8} (hmark : mark.map toLower = text "0x")
      (hs : Floating hexRadix s) : Numeral (mark ++ s)
  | infinity {s : List UInt8} (hs : s.map toLower = text "inf" ∨ s.map toLower = text "infinity") :
      Numeral s
  | nan {word group : List UInt8} (hword : word.map toLower = text "nan")
      (hgroup : group = [] ∨ ∃ chars, group = 40 :: (chars ++ [41]) ∧
        ∀ b ∈ chars, isWordChar b = true) : Numeral (word ++ group)

inductive Accepted : List UInt8 → Prop
  | empty : Accepted []
  | number {blank sgn body : List UInt8} (hblank : ∀ b ∈ blank, isSpace b = true)
      (hsgn : sgn ∈ signs) (hbody : Numeral body) : Accepted (blank ++ (sgn ++ body))

section Span

variable {p : UInt8 → Bool} {front rest : List UInt8}

theorem takeWhile_span (hfront : ∀ b ∈ front, p b = true) (hrest : ∀ b ∈ rest.head?, p b = false) :
    (front ++ rest).takeWhile p = front := by
  rw [List.takeWhile_append_of_pos hfront]
  cases rest with
  | nil => simp
  | cons b rest => simp [hrest b rfl]

theorem dropWhile_span (hfront : ∀ b ∈ front, p b = true) (hrest : ∀ b ∈ rest.head?, p b = false) :
    (front ++ rest).dropWhile p = rest := by
  rw [List.dropWhile_append_of_pos hfront]
  cases rest with
  | nil => simp
  | cons b rest => simp [hrest b rfl]

theorem of_mem_takeWhile (s : List UInt8) : ∀ b ∈ s.takeWhile p, p b = true :=
  fun _ hb => List.mem_takeWhile_imp hb

end Span

section Sign

variable {sgn rest : List UInt8}

theorem mem_signs : sgn ∈ signs ↔ sgn = [] ∨ sgn = [43] ∨ sgn = [45] := by simp [signs]

theorem sign_spec (s : List UInt8) : ∃ sgn ∈ signs, s = sgn ++ (sign s).2 := by
  cases s with
  | nil => exact ⟨[], by simp [signs], rfl⟩
  | cons b s =>
    by_cases hminus : b = 45
    · exact ⟨[45], by simp [signs], by simp [sign, hminus]⟩
    · by_cases hplus : b = 43
      · exact ⟨[43], by simp [signs], by simp [sign, hplus]⟩
      · exact ⟨[], by simp [signs], by simp [sign, hminus, hplus]⟩

theorem sign_append (hsgn : sgn ∈ signs) (hrest : ∀ b ∈ rest.head?, b ≠ 45 ∧ b ≠ 43) :
    (sign (sgn ++ rest)).2 = rest := by
  rcases mem_signs.mp hsgn with rfl | rfl | rfl
  · cases rest with
    | nil => rfl
    | cons b rest =>
      obtain ⟨hminus, hplus⟩ := hrest b rfl
      simp [sign, hminus, hplus]
  · rfl
  · rfl

end Sign

section Floating

variable {radix : Radix} {s : List UInt8}

theorem digit_toNat {b : UInt8} : isDigit b = true ↔ 48 ≤ b.toNat ∧ b.toNat ≤ 57 := by
  simp [isDigit, UInt8.le_iff_toNat_le]

theorem exponent_eq_nil_iff : (radix.exponent s).2 = [] ↔ Exponent radix s := by
  constructor
  · intro h
    cases s with
    | nil => exact .absent
    | cons b s =>
      simp only [Radix.exponent] at h
      split at h
      case isTrue hmark =>
        obtain ⟨sgn, hsgn, hs⟩ := sign_spec s
        have hdigits := List.takeWhile_append_dropWhile (p := isDigit) (l := (sign s).2)
        have hend : (sign s).2.dropWhile isDigit = [] := h
        rw [hend, List.append_nil] at hdigits
        rw [hs, ← hdigits]
        exact .present hmark.1 hsgn hmark.2 (of_mem_takeWhile _)
      case isFalse => cases h
  · rintro (_ | @⟨b, sgn, digits, hb, hsgn, hne, hdigits⟩)
    · rfl
    · have hsign : (sign (sgn ++ digits)).2 = digits := by
        apply sign_append hsgn
        intro d hd
        have hdigit := hdigits d (List.mem_of_mem_head? hd)
        constructor <;> rintro rfl <;> cases hdigit
      have htake : digits.takeWhile isDigit = digits := List.takeWhile_eq_self_iff.mpr hdigits
      have hdrop : digits.dropWhile isDigit = [] := List.dropWhile_eq_nil_iff.mpr hdigits
      simp [Radix.exponent, hsign, htake, hdrop, hb, hne]

theorem Exponent.stops {exponent : List UInt8} (h : Exponent radix exponent) :
    ∀ b ∈ exponent.head?, radix.isMark b = true := by
  cases h with
  | absent => simp
  | present hb hsgn hne hdigits => simpa using hb

theorem fraction_append {digits fraction exponent : List UInt8} (h : Fraction radix digits fraction)
    (he : Exponent radix exponent) : radix.fraction (fraction ++ exponent) = (digits, exponent) := by
  cases h with
  | absent =>
    cases he with
    | absent => rfl
    | @present b sgn ds hb hsgn hne hdigits =>
      have hpoint : b ≠ point := by
        rintro rfl
        rw [radix.point_unmarked] at hb
        cases hb
      simp [Radix.fraction, hpoint]
  | present hdigits =>
    have hstop : ∀ b ∈ exponent.head?, radix.isDigit b = false :=
      fun b hb => radix.mark_stops b (he.stops b hb)
    simp [Radix.fraction, takeWhile_span hdigits hstop, dropWhile_span hdigits hstop]

theorem floating_append {whole digits fraction exponent : List UInt8}
    (hwhole : ∀ d ∈ whole, radix.isDigit d = true) (hfraction : Fraction radix digits fraction)
    (hne : whole ≠ [] ∨ digits ≠ []) (hexponent : Exponent radix exponent) :
    radix.floating (whole ++ (fraction ++ exponent)) =
      some (radix.value (whole ++ digits) / (radix.base : ℚ) ^ digits.length *
        (radix.scale : ℚ) ^ (radix.exponent exponent).1, []) := by
  have hstop : ∀ b ∈ (fraction ++ exponent).head?, radix.isDigit b = false := by
    intro b hb
    cases hfraction with
    | absent => exact radix.mark_stops b (hexponent.stops b hb)
    | present hdigits =>
      cases hb
      exact radix.point_stops
  have hend := exponent_eq_nil_iff.mpr hexponent
  have hdigit : ¬ (whole = [] ∧ digits = []) := by
    rintro ⟨hw, hd⟩
    rcases hne with hne | hne
    · exact hne hw
    · exact hne hd
  simp only [Radix.floating, takeWhile_span hwhole hstop, dropWhile_span hwhole hstop,
    fraction_append hfraction hexponent, if_neg hdigit, hend]

end Floating

section Words

variable {s word rest : List UInt8}

theorem dropWord_eq_some : dropWord word s = some rest ↔
    ∃ front, s = front ++ rest ∧ front.map toLower = word := by
  unfold dropWord
  constructor
  · intro h
    split at h
    case isTrue hword => exact ⟨s.take word.length, by cases h; simp, hword⟩
    case isFalse => cases h
  · rintro ⟨front, rfl, rfl⟩
    simp

theorem dropWord_none {b c : UInt8} (h : toLower b ≠ c) : dropWord (c :: word) (b :: s) = none := by
  simp [dropWord, h]

end Words

section Numerals

variable {s : List UInt8} {b : UInt8}

def Lead (b : UInt8) : Prop := isSpace b = false ∧ b ≠ 45 ∧ b ≠ 43

instance : DecidablePred Lead := fun b => inferInstanceAs (Decidable (isSpace b = false ∧ _))

theorem lead_of_le (h : 46 ≤ b.toNat) : Lead b := by
  refine ⟨?_, ?_, ?_⟩
  · by_contra hspace
    simp [isSpace, UInt8.le_iff_toNat_le, ← UInt8.toNat_inj] at hspace
    omega
  · rintro rfl
    exact absurd h (by decide)
  · rintro rfl
    exact absurd h (by decide)

theorem lead_of_toLower (h : Lead (toLower b)) : Lead b := by
  unfold toLower at h
  split at h
  case isTrue hupper =>
    simp only [isUpper, Bool.and_eq_true, decide_eq_true_eq, UInt8.le_iff_toNat_le] at hupper
    have hlow : 65 ≤ b.toNat := hupper.1
    apply lead_of_le
    omega
  case isFalse => exact h

theorem toLower_digit (h : isDigit b = true) : toLower b = b := by
  have hnat := digit_toNat.mp h
  apply if_neg
  simp only [isUpper, Bool.and_eq_true, decide_eq_true_eq, UInt8.le_iff_toNat_le]
  rintro ⟨hlow, -⟩
  have hle : 65 ≤ b.toNat := hlow
  omega

theorem lead_digit (h : isDigit b = true) : Lead b := by
  have hnat := digit_toNat.mp h
  apply lead_of_le
  omega

theorem Floating.head {radix : Radix} (h : Floating radix s) :
    ∃ b rest, s = b :: rest ∧ (radix.isDigit b = true ∨ b = point) := by
  obtain @⟨whole, digits, fraction, exponent, hwhole, hfraction, hne, -⟩ := h
  cases whole with
  | cons b whole => exact ⟨b, _, rfl, .inl (hwhole b List.mem_cons_self)⟩
  | nil =>
    cases hfraction with
    | absent => exact absurd (hne.resolve_left (not_not.mpr rfl)) (not_not.mpr rfl)
    | present hdigits => exact ⟨point, _, rfl, .inr rfl⟩

theorem Floating.no_x (h : Floating decimalRadix s) : ∀ b ∈ s, toLower b ≠ 120 := by
  obtain @⟨whole, digits, fraction, exponent, hwhole, hfraction, -, hexponent⟩ := h
  have hdigit : ∀ b, isDigit b = true → toLower b ≠ 120 := by
    rintro b hb heq
    rw [toLower_digit hb] at heq
    rw [heq] at hb
    cases hb
  intro b hb
  rcases List.mem_append.mp hb with hb | hb
  · exact hdigit b (hwhole b hb)
  · rcases List.mem_append.mp hb with hb | hb
    · cases hfraction with
      | absent => cases hb
      | present hdigits =>
        rcases List.mem_cons.mp hb with rfl | hb
        · decide
        · exact hdigit b (hdigits b hb)
    · cases hexponent with
      | absent => cases hb
      | @present c sgn ds hc hsgn hne hds =>
        rcases List.mem_cons.mp hb with rfl | hb
        · rcases Bool.or_eq_true_iff.mp hc with hc | hc <;> rw [eq_of_beq hc] <;> decide
        · rcases List.mem_append.mp hb with hb | hb
          · rcases mem_signs.mp hsgn with rfl | rfl | rfl
            · cases hb
            · rw [List.mem_singleton.mp hb]
              decide
            · rw [List.mem_singleton.mp hb]
              decide
          · exact hdigit b (hds b hb)

theorem infinity_none {rest : List UInt8} (h : toLower b ≠ 105) : infinity (b :: rest) = none := by
  have htext : text "inf" = 105 :: text "nf" := rfl
  rw [infinity, htext, dropWord_none h]
  rfl

theorem notANumber_none {rest : List UInt8} (h : toLower b ≠ 110) :
    notANumber (b :: rest) = none := by
  have htext : text "nan" = 110 :: text "an" := rfl
  rw [notANumber, htext, dropWord_none h]
  rfl

theorem numeral_floating (h : Floating decimalRadix s) :
    numeral s = (decimalRadix.floating s).map fun p => (.finite p.1, p.2) := by
  have hhex : hexadecimal s = none := by
    rw [hexadecimal, Option.bind_eq_none_iff]
    intro rest hrest
    obtain ⟨front, rfl, hfront⟩ := dropWord_eq_some.mp hrest
    have hx : (120 : UInt8) ∈ front.map toLower := by
      rw [hfront]
      decide
    obtain ⟨b, hb, hlower⟩ := List.mem_map.mp hx
    exact absurd hlower (h.no_x b (List.mem_append_left _ hb))
  obtain ⟨b, rest, rfl, hb⟩ := h.head
  have hlower : toLower b = b := by
    rcases hb with hb | rfl
    · exact toLower_digit hb
    · rfl
  have hi : toLower b ≠ 105 := by
    rw [hlower]
    rintro rfl
    rcases hb with hb | hb <;> cases hb
  have hn : toLower b ≠ 110 := by
    rw [hlower]
    rintro rfl
    rcases hb with hb | hb <;> cases hb
  simp [numeral, infinity_none hi, notANumber_none hn, hhex]

theorem cons_of_lower {mark : List UInt8} {c : UInt8} {word : List UInt8}
    (h : mark.map toLower = c :: word) : ∃ b rest, mark = b :: rest ∧ toLower b = c := by
  cases mark with
  | nil => cases h
  | cons b rest => exact ⟨b, rest, rfl, (List.cons.inj h).1⟩

theorem Numeral.head (h : Numeral s) : ∃ b rest, s = b :: rest ∧ Lead b := by
  cases h with
  | decimal hs =>
    obtain ⟨b, rest, rfl, hb⟩ := hs.head
    refine ⟨b, rest, rfl, ?_⟩
    rcases hb with hb | rfl
    · exact lead_digit hb
    · decide
  | hexadecimal hmark hs =>
    obtain ⟨b, rest, rfl, hb⟩ := cons_of_lower hmark
    exact ⟨b, _, rfl, lead_of_toLower (by rw [hb]; decide)⟩
  | infinity hs =>
    rcases hs with hs | hs <;> obtain ⟨b, rest, rfl, hb⟩ := cons_of_lower hs <;>
      exact ⟨b, rest, rfl, lead_of_toLower (by rw [hb]; decide)⟩
  | nan hword hgroup =>
    obtain ⟨b, rest, rfl, hb⟩ := cons_of_lower hword
    exact ⟨b, _, rfl, lead_of_toLower (by rw [hb]; decide)⟩

theorem strtod_decimal {whole digits fraction : List UInt8}
    (hwhole : ∀ d ∈ whole, isDigit d = true) (hne : whole ≠ [])
    (hfraction : Fraction decimalRadix digits fraction) :
    strtod (whole ++ fraction) =
      (.finite ((digitsValue (whole ++ digits) : ℚ) / 10 ^ digits.length), []) := by
  have hfloating := floating_append hwhole hfraction (.inl hne) .absent
  have hbody := numeral_floating (.mk hwhole hfraction (.inl hne) .absent)
  rw [hfloating, List.append_nil] at hbody
  obtain ⟨b, rest, rfl⟩ := List.exists_cons_of_ne_nil hne
  obtain ⟨hspace, hminus, hplus⟩ := lead_digit (hwhole b List.mem_cons_self)
  have hblank : (b :: rest ++ fraction).dropWhile isSpace = b :: rest ++ fraction := by
    simp [hspace]
  have hsign : sign (b :: rest ++ fraction) = (false, b :: rest ++ fraction) := by
    simp [sign, hminus, hplus]
  simp only [strtod, hblank, hsign, hbody, Option.map_some, Radix.exponent, zpow_zero, mul_one]
  rfl

end Numerals

end PsOs.Strtod
