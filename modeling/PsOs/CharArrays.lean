import PsOs.CStrings

/-!
Arrays of `char` with a fixed size and without an initial value. There is no result when an
access leaves the array or reads a byte that nothing has stored.
-/

namespace PsOs.CharArrays

open CStrings (CString)

abbrev CharArray := List (Option UInt8)

def unassigned (size : ℕ) : CharArray := List.replicate size none

def load (a : CharArray) (i : ℕ) : Option UInt8 := (a[i]?).join

def store (a : CharArray) (i : ℕ) (b : UInt8) : Option CharArray :=
  if i < a.length then some (a.set i (some b)) else none

def storeBytes (a : CharArray) (i : ℕ) : List UInt8 → Option CharArray
  | [] => some a
  | b :: bytes => (store a i b).bind fun a => storeBytes a (i + 1) bytes

def storeString (a : CharArray) (i : ℕ) (s : List UInt8) : Option CharArray :=
  storeBytes a i (s ++ [0])

/-- The string at the start of an array, as far as `%s` reads it. -/
def loadString : CharArray → Option (List UInt8)
  | [] => none
  | none :: _ => none
  | some b :: a => if b = 0 then some [] else (loadString a).map (b :: ·)

def strncmpEq : ℕ → CharArray → List UInt8 → Option Bool
  | 0, _, _ => some true
  | n + 1, some b :: a, c :: literal =>
    if b = c then if b = 0 then some true else strncmpEq n a literal else some false
  | _ + 1, _, _ => none

def strcmpEq (a : CharArray) (i : ℕ) : List UInt8 → Option Bool
  | [] => (load a i).map (· == 0)
  | c :: literal => (load a i).bind fun b =>
      if b = c then strcmpEq a (i + 1) literal else some false

variable {rest : CharArray} {s literal : List UInt8}

theorem load_front (front rest : CharArray) (b : Option UInt8) :
    load (front ++ b :: rest) front.length = b := by
  simp [load]

theorem load_unassigned (size i : ℕ) : load (unassigned size) i = none := by
  rw [load, unassigned, List.getElem?_replicate]
  split <;> rfl

theorem load_eq_some {a : CharArray} {i : ℕ} {b : UInt8} : load a i = some b ↔ a[i]? = some (some b) :=
  Option.join_eq_some_iff

theorem store_of_lt {a : CharArray} {i : ℕ} (h : i < a.length) (b : UInt8) :
    store a i b = some (a.set i (some b)) := if_pos h

theorem load_set_self {a : CharArray} {i : ℕ} (h : i < a.length) (b : UInt8) :
    load (a.set i (some b)) i = some b := by
  rw [load, List.getElem?_set_self h]
  rfl

theorem load_set_of_ne {i j : ℕ} (h : i ≠ j) (a : CharArray) (b : Option UInt8) :
    load (a.set i b) j = load a j := by
  rw [load, load, List.getElem?_set_ne h]

theorem store_front (front rest : CharArray) (old : Option UInt8) (b : UInt8) :
    store (front ++ old :: rest) front.length b = some (front ++ some b :: rest) := by
  rw [store, if_pos (by simp), List.set_append_right _ _ le_rfl, Nat.sub_self, List.set_cons_zero]

theorem store_end (front : CharArray) (b : UInt8) : store front front.length b = none := by
  rw [store, if_neg (lt_irrefl _)]

theorem storeBytes_front (front : CharArray) (h : s.length ≤ rest.length) :
    storeBytes (front ++ rest) front.length s =
      some (front ++ (s.map some ++ rest.drop s.length)) := by
  induction s generalizing front rest with
  | nil => rfl
  | cons b s ih =>
    obtain ⟨old, rest, rfl⟩ := List.exists_cons_of_length_pos (Nat.zero_lt_of_lt h)
    have hrest := ih (front ++ [some b]) (Nat.le_of_succ_le_succ h)
    rw [List.length_append, List.length_singleton, List.append_assoc, List.singleton_append,
      List.append_assoc] at hrest
    rw [storeBytes, store_front, Option.bind_some, hrest]
    rfl

theorem storeBytes_zero {a : CharArray} (h : s.length ≤ a.length) :
    storeBytes a 0 s = some (s.map some ++ a.drop s.length) :=
  storeBytes_front [] h

theorem storeBytes_none (front : CharArray) (h : rest.length < s.length) :
    storeBytes (front ++ rest) front.length s = none := by
  induction s generalizing front rest with
  | nil => cases h
  | cons b s ih =>
    cases rest with
    | nil =>
      rw [List.append_nil, storeBytes, store_end]
      rfl
    | cons old rest =>
      have hrest := ih (front ++ [some b]) (Nat.lt_of_succ_lt_succ h)
      rw [List.length_append, List.length_singleton, List.append_assoc,
        List.singleton_append] at hrest
      rw [storeBytes, store_front, Option.bind_some, hrest]

theorem storeString_zero {a : CharArray} (h : s.length < a.length) :
    storeString a 0 s = some (s.map some ++ some 0 :: a.drop (s.length + 1)) := by
  have hlen : (s ++ [0]).length = s.length + 1 := List.length_append
  rw [storeString, storeBytes_zero (by omega), hlen, List.map_append, List.append_assoc]
  rfl

theorem storeString_zero_none {a : CharArray} (h : a.length ≤ s.length) :
    storeString a 0 s = none := by
  apply storeBytes_none []
  rw [List.length_append, List.length_singleton]
  omega

theorem loadString_terminated (h : 0 ∈ s) (rest : CharArray) :
    loadString (s.map some ++ rest) = some (CString.read s).bytes := by
  induction s with
  | nil => cases h
  | cons b s ih =>
    rw [List.map_cons, List.cons_append, loadString]
    by_cases hb : b = 0
    · rw [if_pos hb, hb, CString.read_cons_nul]
    · have hmem : 0 ∈ s := (List.mem_cons.mp h).resolve_left (Ne.symm hb)
      rw [if_neg hb, ih hmem, CString.read_cons hb, Option.map_some]

theorem strncmpEq_terminated (h : 0 ∈ s) (hliteral : 0 ∈ literal) (n : ℕ) (rest : CharArray) :
    strncmpEq n (s.map some ++ rest) literal = some (CStrings.strncmpEq n s literal) := by
  induction n generalizing s literal with
  | zero => rfl
  | succ n ih =>
    obtain ⟨b, s, rfl⟩ := List.exists_cons_of_ne_nil (List.ne_nil_of_mem h)
    obtain ⟨c, literal, rfl⟩ := List.exists_cons_of_ne_nil (List.ne_nil_of_mem hliteral)
    rw [List.map_cons, List.cons_append, strncmpEq, CStrings.strncmpEq]
    by_cases hbc : b = c
    · subst hbc
      by_cases hb : b = 0
      · simp [hb]
      · have hs : 0 ∈ s := (List.mem_cons.mp h).resolve_left (Ne.symm hb)
        have hl : 0 ∈ literal := (List.mem_cons.mp hliteral).resolve_left (Ne.symm hb)
        rw [if_pos rfl, if_neg hb, ih hs hl]
        simp [hb]
    · simp [hbc]

theorem strcmpEq_front (front : CharArray) (hs : 0 ∉ s) (hliteral : 0 ∉ literal) (rest : CharArray) :
    strcmpEq (front ++ (s.map some ++ some 0 :: rest)) front.length literal =
      some (decide (s = literal)) := by
  induction literal generalizing front s with
  | nil =>
    cases s with
    | nil => simp [strcmpEq, load_front]
    | cons b s =>
      have hb : b ≠ 0 := by
        rintro rfl
        exact hs List.mem_cons_self
      simp [strcmpEq, load_front, hb]
  | cons c literal ih =>
    obtain ⟨hc, hliteral⟩ := not_or.mp (mt List.mem_cons.mpr hliteral)
    cases s with
    | nil => simp [strcmpEq, load_front, hc]
    | cons b s =>
      obtain ⟨-, hs⟩ := not_or.mp (mt List.mem_cons.mpr hs)
      have hrest := ih (front ++ [some b]) hs hliteral
      rw [List.length_append, List.length_singleton, List.append_assoc,
        List.singleton_append] at hrest
      rw [List.map_cons, List.cons_append, strcmpEq, load_front, Option.bind_some, hrest]
      by_cases hbc : b = c <;> simp [hbc]

theorem strcmpEq_unassigned (size i : ℕ) (literal : List UInt8) :
    strcmpEq (unassigned size) i literal = none := by
  cases literal <;> simp [strcmpEq, load_unassigned]

end PsOs.CharArrays
