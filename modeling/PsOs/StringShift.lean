import PsOs.CharArrays
import PsOs.CountedLoops

/-! `string_shift_right` of `exercise04/task1/task1.c`. The allocation succeeds. -/

namespace PsOs.StringShift

open CStrings CharArrays

def SIZE_MAX : ℕ := 2 ^ 64 - 1

structure Argument extends CString where
  ascii : ∀ b ∈ bytes, b < 128
  fits : bytes.length < SIZE_MAX

structure Buffers where
  input : CharArray
  shifted : CharArray
  -- the positions of `shifted` that are stored to; no step reads them
  writes : List ℕ
  deriving DecidableEq

def sizeAdd (a b : ℕ) : ℕ := (a + b) % 2 ^ 64

def sizeMod (a b : ℕ) : Option ℕ := if b = 0 then none else some (a % b)

def upperCase (b : UInt8) : UInt8 := if 97 ≤ b && b ≤ 122 then b - 32 else b

def toupper (b : UInt8) : Option UInt8 := if b < 128 then some (upperCase b) else none

def strlen (input : CharArray) : Option ℕ := (loadString input).map List.length

def Buffers.put (m : Buffers) (i : ℕ) (b : UInt8) : Option Buffers :=
  (store m.shifted i b).map fun shifted => { m with shifted, writes := m.writes ++ [i] }

def shift (input_length : ℕ) (m : Buffers) (char_index : ℕ) : Option Buffers := do
  let new_position ← sizeMod (sizeAdd char_index 2) input_length
  let c ← load m.input char_index
  m.put new_position c

def upper (m : Buffers) (char_index : ℕ) : Option Buffers := do
  let c ← load m.input char_index
  let c ← toupper c
  let input ← store m.input char_index c
  some { m with input }

def string_shift_right (input : CharArray) : Option Buffers := do
  let input_length ← strlen input
  let m ← (List.range input_length).foldlM (shift input_length)
    ⟨input, unassigned (sizeAdd input_length 1), []⟩
  let m ← (List.range input_length).foldlM upper m
  m.put input_length 0

def Argument.buffer (arg : Argument) : CharArray := arg.toBuffer.map some

section Run

variable {arg : Argument} {m : Buffers} {i : ℕ}

theorem strlen_buffer (arg : Argument) : strlen arg.buffer = some arg.length := by
  have hterminated : 0 ∈ arg.toBuffer := by simp [CString.toBuffer]
  have hload := loadString_terminated hterminated []
  rw [List.append_nil, CString.read_toBuffer] at hload
  rw [strlen, Argument.buffer, hload]
  rfl

theorem load_buffer (hi : i < arg.length) : load arg.buffer i = arg.bytes[i]? := by
  have hi' : i < arg.bytes.length := hi
  rw [load, Argument.buffer, CString.toBuffer, List.getElem?_map, List.getElem?_append_left hi',
    List.getElem?_eq_getElem hi']
  rfl

theorem sizeAdd_eq {a b : ℕ} (h : a + b ≤ SIZE_MAX) : sizeAdd a b = a + b :=
  Nat.mod_eq_of_lt (Nat.lt_of_le_of_lt h (by decide))

structure Shifted (arg : Argument) (i : ℕ) (m : Buffers) : Prop where
  input : m.input = arg.buffer
  length : m.shifted.length = arg.length + 1
  writes : m.writes = (List.range i).map fun k => (k + 2) % arg.length
  shifted : ∀ k < i, load m.shifted ((k + 2) % arg.length) = arg.bytes[k]?

theorem shift_step (hi : i < arg.length) (h : Shifted arg i m) :
    ∃ m', shift arg.length m i = some m' ∧ Shifted arg (i + 1) m' := by
  have hpos : arg.length ≠ 0 := Nat.ne_zero_of_lt hi
  have hfits : arg.length < SIZE_MAX := arg.fits
  have hposition : sizeMod (sizeAdd i 2) arg.length = some ((i + 2) % arg.length) := by
    rw [sizeAdd_eq (by omega), sizeMod, if_neg hpos]
  have hbyte : arg.bytes[i]? = some arg.bytes[i] := List.getElem?_eq_getElem hi
  have hload : load m.input i = some arg.bytes[i] := by
    rw [h.input, load_buffer hi, hbyte]
  have hlt : (i + 2) % arg.length < arg.length := Nat.mod_lt _ (Nat.pos_of_ne_zero hpos)
  have hroom : (i + 2) % arg.length < m.shifted.length := by
    rw [h.length]
    exact Nat.lt_succ_of_lt hlt
  have hstep : shift arg.length m i = some { m with
      shifted := m.shifted.set ((i + 2) % arg.length) (some arg.bytes[i])
      writes := m.writes ++ [(i + 2) % arg.length] } := by
    simp only [shift, hposition, hload, Option.bind_eq_bind, Option.bind_some, Buffers.put,
      store_of_lt hroom, Option.map_some]
  refine ⟨_, hstep, h.input, ?_, ?_, ?_⟩
  · rw [List.length_set, h.length]
  · rw [h.writes, List.range_succ, List.map_append, List.map_singleton]
  · intro k hk
    -- two indices below the length go to different positions, also when the length is below 2
    rcases Nat.lt_succ_iff_lt_or_eq.mp hk with hki | rfl
    · rw [load_set_of_ne (CountedLoops.add_mod_ne hki hi 2).symm, h.shifted k hki]
    · rw [load_set_self hroom, hbyte]

def Argument.uppered (arg : Argument) (i : ℕ) : CharArray :=
  ((arg.bytes.take i).map upperCase).map some ++ (arg.bytes.drop i ++ [0]).map some

theorem uppered_length (arg : Argument) :
    arg.uppered arg.length = (arg.bytes.map upperCase ++ [0]).map some := by
  rw [Argument.uppered, CString.length, List.take_length, List.drop_length, ← List.map_append,
    List.nil_append]

theorem upper_step (hi : i < arg.length) (hm : m.input = arg.uppered i) :
    upper m i = some { m with input := arg.uppered (i + 1) } := by
  have hi' : i < arg.bytes.length := hi
  have hlength : (((arg.bytes.take i).map upperCase).map some).length = i := by
    rw [List.length_map, List.length_map, List.length_take_of_le hi'.le]
  have hsplit : arg.uppered i = ((arg.bytes.take i).map upperCase).map some ++
      some arg.bytes[i] :: (arg.bytes.drop (i + 1) ++ [0]).map some := by
    rw [Argument.uppered, List.drop_eq_getElem_cons hi']
    rfl
  have hload : load m.input i = some arg.bytes[i] := by
    have hfront := load_front (((arg.bytes.take i).map upperCase).map some)
      ((arg.bytes.drop (i + 1) ++ [0]).map some) (some arg.bytes[i])
    rwa [hlength, ← hsplit, ← hm] at hfront
  have hstore : store m.input i (upperCase arg.bytes[i]) = some (arg.uppered (i + 1)) := by
    have hfront := store_front (((arg.bytes.take i).map upperCase).map some)
      ((arg.bytes.drop (i + 1) ++ [0]).map some) (some arg.bytes[i]) (upperCase arg.bytes[i])
    rw [hlength, ← hsplit, ← hm] at hfront
    rw [hfront, Argument.uppered, ← List.take_append_getElem hi']
    simp only [List.map_append, List.append_assoc]
    rfl
  have hascii : toupper arg.bytes[i] = some (upperCase arg.bytes[i]) :=
    if_pos (arg.ascii _ (List.getElem_mem hi'))
  rw [upper, hload, Option.bind_eq_bind, Option.bind_some, hascii, Option.bind_eq_bind,
    Option.bind_some, hstore]
  rfl

/-- The result is the argument before its letters changed, two positions to the right. -/
structure Rotated (arg : Argument) (m : Buffers) : Prop where
  writes : m.writes.Perm (List.range (arg.length + 1))
  shifted : ∀ i < arg.length, load m.shifted ((i + 2) % arg.length) = arg.bytes[i]?
  terminator : load m.shifted arg.length = some 0
  returned : ∃ s, loadString m.shifted = some s ∧ s.rotate 2 = arg.bytes
  input : m.input = (arg.bytes.map upperCase ++ [0]).map some

theorem loadString_of_shifted (hlength : m.shifted.length = arg.length + 1)
    (hshifted : ∀ i < arg.length, load m.shifted ((i + 2) % arg.length) = arg.bytes[i]?)
    (hterminator : load m.shifted arg.length = some 0) :
    ∃ s, loadString m.shifted = some s ∧ s.rotate 2 = arg.bytes := by
  have hfront : (m.shifted.take arg.length).length = arg.length :=
    List.length_take_of_le (by omega)
  have hrotate : (m.shifted.take arg.length).rotate 2 = arg.bytes.map some := by
    apply List.ext_getElem
    · rw [List.length_rotate, hfront, List.length_map]
      rfl
    · intro i hi hi'
      have hlt : i < arg.length := by rwa [List.length_map] at hi'
      have hmod : (i + 2) % arg.length < arg.length := Nat.mod_lt _ (Nat.zero_lt_of_lt hlt)
      have hload := (hshifted i hlt).trans (List.getElem?_eq_getElem hlt)
      obtain ⟨hroom, hget⟩ := List.getElem?_eq_some_iff.mp (load_eq_some.mp hload)
      rw [List.getElem_rotate, List.getElem_map, List.getElem_take]
      simp only [hfront]
      exact hget
  obtain ⟨s, hs⟩ : ∃ s : List UInt8, s.rotate 2 = arg.bytes := ⟨_, List.rotate_eq_iff.mpr rfl⟩
  have hstring : m.shifted = (s ++ [0]).map some := by
    have htake : m.shifted.take arg.length = s.map some := by
      apply List.rotate_injective 2
      simp only
      rw [hrotate, ← List.map_rotate, hs]
    obtain ⟨hroom, hget⟩ := List.getElem?_eq_some_iff.mp (load_eq_some.mp hterminator)
    rw [← List.take_append_drop arg.length m.shifted, htake, List.drop_eq_getElem_cons hroom, hget,
      List.drop_eq_nil_of_le hlength.le, List.map_append]
    rfl
  refine ⟨s, ?_, hs⟩
  have hnul : 0 ∉ s := by
    rw [← List.mem_rotate (n := 2), hs]
    exact arg.noNul
  have hload := loadString_terminated (s := s ++ [0]) (by simp) []
  rw [List.append_nil, ← hstring, CString.read_append hnul, CString.read_cons_nul,
    List.append_nil] at hload
  exact hload

theorem shift_loop (arg : Argument) :
    ∃ m, (List.range arg.length).foldlM (shift arg.length)
      ⟨arg.buffer, unassigned (sizeAdd arg.length 1), []⟩ = some m ∧ Shifted arg arg.length m := by
  apply CountedLoops.exists_foldlM_range (Shifted arg)
  · refine ⟨rfl, ?_, rfl, nofun⟩
    rw [sizeAdd_eq arg.fits, unassigned, List.length_replicate]
  · exact fun i hi t ht => shift_step hi ht

theorem upper_loop (hm : m.input = arg.buffer) :
    (List.range arg.length).foldlM upper m = some { m with input := arg.uppered arg.length } := by
  have hstart : m = { m with input := arg.uppered 0 } := by
    have hzero : arg.uppered 0 = m.input := hm.symm
    rw [hzero]
  have hstep : ∀ i < arg.length, ∀ t, t = { m with input := arg.uppered i } →
      ∃ u, upper t i = some u ∧ u = { m with input := arg.uppered (i + 1) } := by
    rintro i hi t rfl
    exact ⟨_, upper_step hi rfl, rfl⟩
  obtain ⟨t, ht, rfl⟩ := CountedLoops.exists_foldlM_range
    (fun i t => t = { m with input := arg.uppered i }) hstart hstep
  exact ht

theorem string_shift_right_rotated (arg : Argument) :
    ∃ m, string_shift_right arg.buffer = some m ∧ Rotated arg m := by
  obtain ⟨m, hfirst, hm⟩ := shift_loop arg
  have hsecond := upper_loop hm.input
  have hroom : arg.length < m.shifted.length := by
    rw [hm.length]
    exact Nat.lt_succ_self _
  have hshifted : ∀ i < arg.length,
      load (m.shifted.set arg.length (some 0)) ((i + 2) % arg.length) = arg.bytes[i]? := by
    intro i hi
    have hlt : (i + 2) % arg.length < arg.length := Nat.mod_lt _ (Nat.zero_lt_of_lt hi)
    rw [load_set_of_ne hlt.ne', hm.shifted i hi]
  have hterminator := load_set_self hroom 0
  refine ⟨{ m with
    input := arg.uppered arg.length
    shifted := m.shifted.set arg.length (some 0)
    writes := m.writes ++ [arg.length] }, ?_, ?_, hshifted, hterminator, ?_, ?_⟩
  · simp only [string_shift_right, strlen_buffer, hfirst, hsecond, Option.bind_eq_bind,
      Option.bind_some, Buffers.put, store_of_lt hroom, Option.map_some]
  · rw [hm.writes, List.range_succ]
    exact (CountedLoops.map_add_mod_perm _ _).append_right _
  · apply loadString_of_shifted _ hshifted hterminator
    rw [List.length_set, hm.length]
  · exact uppered_length arg

end Run

example : string_shift_right ((text "abc").map some ++ [some 0]) =
    some ⟨(text "ABC").map some ++ [some 0], (text "bca").map some ++ [some 0], [2, 0, 1, 3]⟩ := by
  decide +kernel

end PsOs.StringShift
