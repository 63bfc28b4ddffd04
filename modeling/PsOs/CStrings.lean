import Mathlib.Data.List.TakeWhile
import Mathlib.Data.UInt

/-! NUL-terminated byte strings and the buffers they are read from. -/

namespace PsOs.CStrings

def byte (c : Char) : UInt8 := c.toNat.toUInt8

def text (s : String) : List UInt8 := s.toList.map byte

def isSpace (b : UInt8) : Bool := b = 32 || (9 ≤ b && b ≤ 13)

@[ext]
structure CString where
  bytes : List UInt8
  noNul : 0 ∉ bytes
  deriving DecidableEq

namespace CString

def empty : CString := ⟨[], by simp⟩

def length (s : CString) : ℕ := s.bytes.length

def toBuffer (s : CString) : List UInt8 := s.bytes ++ [0]

def read (buffer : List UInt8) : CString where
  bytes := buffer.takeWhile (· ≠ 0)
  noNul h := by simpa using List.mem_takeWhile_imp h

@[simp] theorem read_cons_nul (rest : List UInt8) : (read (0 :: rest)).bytes = [] := rfl

@[simp] theorem read_cons {b : UInt8} (hb : b ≠ 0) (rest : List UInt8) :
    (read (b :: rest)).bytes = b :: (read rest).bytes := by
  simp [read, hb]

theorem read_append {bs : List UInt8} (h : 0 ∉ bs) (rest : List UInt8) :
    (read (bs ++ rest)).bytes = bs ++ (read rest).bytes := by
  induction bs with
  | nil => rfl
  | cons b bs ih =>
    obtain ⟨hb, hbs⟩ := not_or.mp (mt List.mem_cons.mpr h)
    rw [List.cons_append, read_cons (Ne.symm hb), ih hbs, List.cons_append]

@[simp] theorem read_toBuffer (s : CString) : read s.toBuffer = s := by
  apply CString.ext
  simp [toBuffer, read_append s.noNul]

end CString

/-- `for (i = 0; result[i] != 0; ++i) result[i] = f(result[i]);` -/
def mapInPlace (f : UInt8 → UInt8) : List UInt8 → List UInt8
  | [] => []
  | b :: rest => if b = 0 then b :: rest else f b :: mapInPlace f rest

theorem mapInPlace_toBuffer (f : UInt8 → UInt8) (s : CString) :
    mapInPlace f s.toBuffer = s.bytes.map f ++ [0] := by
  obtain ⟨bytes, hbytes⟩ := s
  simp only [CString.toBuffer]
  induction bytes with
  | nil => rfl
  | cons b bytes ih =>
    have hb : b ≠ 0 := fun h => hbytes (h ▸ List.mem_cons_self)
    simp only [List.cons_append, mapInPlace, hb, if_false, List.map_cons, List.cons.injEq, true_and]
    exact ih fun h => hbytes (List.mem_cons_of_mem _ h)

theorem read_map_of_noNul {f : UInt8 → UInt8} {bytes : List UInt8} (hf : ∀ b ∈ bytes, f b ≠ 0) :
    (CString.read (bytes.map f ++ [0])).bytes = bytes.map f := by
  rw [CString.read_append (by simpa using hf), CString.read_cons_nul, List.append_nil]

theorem read_map_length_le (f : UInt8 → UInt8) (bytes : List UInt8) :
    (CString.read (bytes.map f ++ [0])).length ≤ bytes.length := by
  induction bytes with
  | nil => simp [CString.length]
  | cons b bytes ih =>
    by_cases hb : f b = 0
    · simp [CString.length, hb]
    · simpa [CString.length, hb] using ih

theorem read_map_length_lt {f : UInt8 → UInt8} {bytes : List UInt8} {b : UInt8} (hb : b ∈ bytes)
    (hf : f b = 0) : (CString.read (bytes.map f ++ [0])).length < bytes.length := by
  induction bytes with
  | nil => cases hb
  | cons c bytes ih =>
    by_cases hc : f c = 0
    · simp [CString.length, hc]
    · have hmem : b ∈ bytes := by
        rcases List.mem_cons.mp hb with rfl | hmem
        · exact absurd hf hc
        · exact hmem
      simpa [CString.length, hc] using ih hmem

def strcspn (buffer : List UInt8) (reject : UInt8) : ℕ :=
  (buffer.takeWhile fun b => b ≠ 0 ∧ b ≠ reject).length

/-- `strncmp(a, b, n) == 0`. -/
def strncmpEq : ℕ → List UInt8 → List UInt8 → Bool
  | 0, _, _ => true
  | n + 1, a :: as, b :: bs => a == b && (a == 0 || strncmpEq n as bs)
  | _ + 1, _, _ => false

def strstr (needle : List UInt8) : List UInt8 → Option (List UInt8)
  | [] => if needle = [] then some [] else none
  | b :: rest => if needle <+: b :: rest then some (b :: rest) else strstr needle rest

theorem strstr_of_prefix {needle : List UInt8} {s : List UInt8} (h : needle <+: s) :
    strstr needle s = some s := by
  cases s with
  | nil => simp [strstr, List.prefix_nil.mp h]
  | cons b rest => simp [strstr, h]

theorem strstr_skip {c : UInt8} {needle front : List UInt8} (h : c ∉ front) (rest : List UInt8) :
    strstr (c :: needle) (front ++ rest) = strstr (c :: needle) rest := by
  induction front with
  | nil => rfl
  | cons b front ih =>
    obtain ⟨hb, hfront⟩ := not_or.mp (mt List.mem_cons.mpr h)
    simp only [List.cons_append, strstr, List.cons_prefix_cons, hb, false_and, if_false]
    exact ih hfront

def Absent (needle front ahead : List UInt8) : Prop :=
  ∀ i < front.length, ¬ needle <+: (front ++ ahead).drop i

instance (needle front ahead : List UInt8) : Decidable (Absent needle front ahead) :=
  inferInstanceAs (Decidable (∀ i < front.length, ¬ needle <+: (front ++ ahead).drop i))

theorem strstr_absent {needle front ahead : List UInt8} (h : Absent needle front ahead)
    (hahead : needle.length ≤ ahead.length + 1) (rest : List UInt8) :
    strstr needle (front ++ (ahead ++ rest)) = strstr needle (ahead ++ rest) := by
  induction front with
  | nil => rfl
  | cons b front ih =>
    have hnot : ¬ needle <+: b :: (front ++ (ahead ++ rest)) := by
      intro hocc
      apply h 0 (Nat.succ_pos _)
      apply List.prefix_of_prefix_length_le hocc
      · exact ⟨rest, by simp⟩
      · simp only [List.drop_zero, List.length_append, List.length_cons]
        omega
    have hfront : Absent needle front ahead := fun i hi => h (i + 1) (Nat.succ_lt_succ hi)
    rw [List.cons_append, strstr, if_neg hnot]
    exact ih hfront

theorem read_set_strcspn (buffer : List UInt8) (c : UInt8) :
    (CString.read (buffer.set (strcspn buffer c) 0)).bytes =
      buffer.takeWhile fun b => b ≠ 0 ∧ b ≠ c := by
  induction buffer with
  | nil => rfl
  | cons b buffer ih =>
    by_cases hb : b ≠ 0 ∧ b ≠ c
    · simp only [strcspn, List.takeWhile_cons, hb, ne_eq, not_false_eq_true, and_self,
        decide_true, if_true, List.length_cons, List.set_cons_succ]
      rw [CString.read_cons hb.1]
      exact congrArg _ ih
    · simp only [strcspn, List.takeWhile_cons, hb, decide_false, Bool.false_eq_true, if_false,
        List.length_nil, List.set_cons_zero, CString.read_cons_nul]

theorem prefix_stop {b : UInt8} {literal : List UInt8} (h : b ∉ literal) (front rest : List UInt8) :
    literal <+: front ++ b :: rest ↔ literal <+: front := by
  induction literal generalizing front with
  | nil => simp
  | cons c literal ih =>
    obtain ⟨hc, hliteral⟩ := not_or.mp (mt List.mem_cons.mpr h)
    cases front with
    | nil => simp [List.cons_prefix_cons, Ne.symm hc]
    | cons d front => simp only [List.cons_append, List.cons_prefix_cons, ih hliteral]

theorem strncmpEq_append {literal : List UInt8} (h : 0 ∉ literal) (n : ℕ) (buffer rest : List UInt8) :
    strncmpEq (literal.length + n) buffer (literal ++ rest) = true ↔
      ∃ tail, buffer = literal ++ tail ∧ strncmpEq n tail rest = true := by
  induction literal generalizing buffer with
  | nil => simp
  | cons c literal ih =>
    obtain ⟨hc, hliteral⟩ := not_or.mp (mt List.mem_cons.mpr h)
    rw [List.length_cons, Nat.succ_add]
    cases buffer with
    | nil => simp [strncmpEq]
    | cons b buffer =>
      simp only [List.cons_append, strncmpEq, Bool.and_eq_true, beq_iff_eq, Bool.or_eq_true,
        ih hliteral, List.cons.injEq]
      constructor
      · rintro ⟨rfl, rfl | ⟨tail, hbuffer, htail⟩⟩
        · exact absurd rfl hc
        · exact ⟨tail, ⟨rfl, hbuffer⟩, htail⟩
      · rintro ⟨tail, ⟨rfl, hbuffer⟩, htail⟩
        exact ⟨rfl, .inr ⟨tail, hbuffer, htail⟩⟩

theorem strncmpEq_literal {literal : List UInt8} (h : 0 ∉ literal) (buffer rest : List UInt8) :
    strncmpEq literal.length buffer (literal ++ rest) = true ↔ literal <+: buffer := by
  apply (strncmpEq_append h 0 buffer rest).trans
  constructor
  · rintro ⟨tail, rfl, -⟩
    exact List.prefix_append _ _
  · rintro ⟨tail, rfl⟩
    exact ⟨tail, rfl, rfl⟩

theorem strncmpEq_terminated {literal : List UInt8} (h : 0 ∉ literal) (buffer : List UInt8) :
    strncmpEq (literal.length + 1) buffer (literal ++ [0]) = true ↔ literal ++ [0] <+: buffer := by
  apply (strncmpEq_append h 1 buffer [0]).trans
  constructor
  · rintro ⟨tail, rfl, htail⟩
    apply (List.prefix_append_right_inj _).mpr
    cases tail with
    | nil => cases htail
    | cons b tail =>
      have hb : b = 0 := by simpa [strncmpEq] using htail
      exact ⟨tail, by rw [hb]; rfl⟩
  · rintro ⟨tail, rfl⟩
    exact ⟨0 :: tail, List.append_assoc .., rfl⟩

end PsOs.CStrings
