import Mathlib.Order.Interval.Finset.Nat
import PsOs.CharArrays
import PsOs.Threads
import PsOs.TransitionSystems

/-!
`exercise03/task3/task3b.c`: `main` lays out one `thread_args_t` for each file and starts a thread
on it. A record has `sizeof(thread_args_t)` = 8 bytes, and its flexible member `name` starts
behind them. An access outside of `args` is undefined: the model has no step for it.
-/

namespace PsOs.Adder

open CStrings CharArrays Threads TransitionSystems

def sizeofThreadArgs : ℕ := 8

def numThread (i : ℕ) : ℕ := sizeofThreadArgs * i

def sum (i : ℕ) : ℕ := sizeofThreadArgs * i + 4

def name (i : ℕ) : ℕ := sizeofThreadArgs * i + sizeofThreadArgs

def intBytes (v : Int32) : List UInt8 :=
  [0, 8, 16, 24].map fun shift : UInt32 => (v.toUInt32 >>> shift).toUInt8

def storeInt (a : CharArray) (i : ℕ) (v : Int32) : Option CharArray := storeBytes a i (intBytes v)

def loadInt (a : CharArray) (i : ℕ) : Option Int32 := do
  let b₀ ← load a i
  let b₁ ← load a (i + 1)
  let b₂ ← load a (i + 2)
  let b₃ ← load a (i + 3)
  return (b₀.toUInt32 ||| b₁.toUInt32 <<< 8 ||| b₂.toUInt32 <<< 16 ||| b₃.toUInt32 <<< 24).toInt32

def loadName (a : CharArray) (i : ℕ) : Option (List UInt8) := loadString (a.drop (name i))

abbrev Files := List UInt8 → Option (List Int32)

inductive MainPc where
  | numThread (i : ℕ)
  | sum (i : ℕ)
  | copy (i : ℕ)
  | create (i : ℕ)
  | join (i : ℕ)
  | finished

inductive ThreadPc where
  | unborn
  | openFile
  | print (numbers : List Int32)
  | clear (numbers : List Int32)
  | add (numbers : List Int32)
  | returned

structure Thread where
  pc : ThreadPc
  -- the name handed to `fopen`; no step reads it
  opened : Option (List UInt8)

structure Shared where
  args : CharArray
  main : MainPc
  printed : List Int32

abbrev State := Config ℕ Shared Thread

def init (names : List (List UInt8)) : State where
  shared := ⟨unassigned (sizeofThreadArgs * names.length), .numThread 0, []⟩
  locals := fun _ => ⟨.unborn, none⟩

def ThreadPc.isReturned : ThreadPc → Bool
  | .returned => true
  | _ => false

def stepMain (names : List (List UInt8)) (s : State) : Option State :=
  let m := s.shared
  match m.main with
  | .numThread i =>
    if i < names.length then
      (storeInt m.args (numThread i) (.ofNat i)).map fun args =>
        { s with shared := { m with args, main := .sum i } }
    else some { s with shared := { m with main := .join 0 } }
  | .sum i => (storeInt m.args (sum i) 0).map fun args =>
      { s with shared := { m with args, main := .copy i } }
  | .copy i => (storeString m.args (name i) (names.getD i [])).map fun args =>
      { s with shared := { m with args, main := .create i } }
  | .create i => some ⟨{ m with main := .numThread (i + 1) },
      Function.update s.locals i ⟨.openFile, none⟩⟩
  | .join i =>
    if i < names.length then
      if (s.locals i).pc.isReturned then
        (loadInt m.args (sum i)).map fun v =>
          { s with shared := { m with printed := m.printed ++ [v], main := .join (i + 1) } }
      else none
    else some { s with shared := { m with main := .finished } }
  | .finished => none

def stepThread (files : Files) (i : ℕ) (m : Shared) (t : Thread) : Option (Shared × Thread) :=
  match t.pc with
  | .unborn | .returned => none
  | .openFile => (loadName m.args i).map fun opened =>
      match files opened with
      | none => (m, ⟨.returned, some opened⟩)
      | some numbers => (m, ⟨.print numbers, some opened⟩)
  | .print numbers => do
      let _name ← loadName m.args i
      let _numThread ← loadInt m.args (numThread i)
      let _sum ← loadInt m.args (sum i)
      return (m, { t with pc := .clear numbers })
  | .clear numbers => (storeInt m.args (sum i) 0).map fun args =>
      ({ m with args }, { t with pc := .add numbers })
  | .add [] => some (m, { t with pc := .returned })
  | .add (num :: numbers) => do
      let v ← loadInt m.args (sum i)
      let args ← storeInt m.args (sum i) (v + num)
      return ({ m with args }, { t with pc := .add numbers })

inductive Action where
  | main
  | thread (i : ℕ)

def step (files : Files) (names : List (List UInt8)) (s : State) : Action → Option State
  | .main => stepMain names s
  | .thread i => s.move i (stepThread files i s.shared (s.locals i))

def storage (names : List (List UInt8)) : Finset ℕ := Finset.range (sizeofThreadArgs * names.length)

def fields (i : ℕ) : Finset ℕ := Finset.Ico (numThread i) (name i)

def nameBytes (names : List (List UInt8)) (i : ℕ) : Finset ℕ :=
  Finset.Ico (name i) (name i + (names.getD i []).length + 1)

structure Apart (names : List (List UInt8)) (i : ℕ) : Prop where
  inside : nameBytes names i ⊆ storage names
  fields : ∀ j < names.length, j ≠ i → Disjoint (nameBytes names i) (fields j)
  names : ∀ j < names.length, j ≠ i → Disjoint (nameBytes names i) (nameBytes names j)

def sumOf (files : Files) (name : List UInt8) : Int32 := ((files name).getD []).sum

structure Separate (files : Files) (names : List (List UInt8)) : Prop where
  apart : ∀ i < names.length, Apart names i
  opened : ∀ s, Reachable (step files names) (init names) s →
    ∀ i opened, (s.locals i).opened = some opened → names[i]? = some opened
  printed : ∀ s, Reachable (step files names) (init names) s →
    ∀ (i : ℕ) v, s.shared.printed[i]? = some v → v = sumOf files (names.getD i [])

section Layout

variable {names : List (List UInt8)} {i : ℕ}

theorem not_apart (hi : i < names.length) : ¬ Apart names i := by
  intro h
  have hmem : name i ∈ nameBytes names i := Finset.mem_Ico.mpr ⟨le_rfl, by omega⟩
  by_cases hlast : i + 1 = names.length
  · have hin := Finset.mem_range.mp (h.inside hmem)
    simp only [name, sizeofThreadArgs] at hin
    omega
  · have hfields : name i ∈ fields (i + 1) := by
      simp only [fields, name, numThread, sizeofThreadArgs, Finset.mem_Ico]
      omega
    have hdisjoint := h.fields (i + 1) (by omega) (by omega)
    exact Finset.disjoint_left.mp hdisjoint hmem hfields

theorem not_separate_of_ne_nil (files : Files) (hne : names ≠ []) : ¬ Separate files names := by
  intro h
  have hpos := List.length_pos_iff.mpr hne
  exact not_apart hpos (h.apart 0 hpos)

end Layout

section Stores

variable {a : CharArray} {i : ℕ}

theorem storeBytes_eq {bytes : List UInt8} (h : i + bytes.length ≤ a.length) :
    storeBytes a i bytes =
      some (a.take i ++ (bytes.map some ++ (a.drop i).drop bytes.length)) := by
  have hlen : (a.take i).length = i := List.length_take_of_le (by omega)
  have hroom : bytes.length ≤ (a.drop i).length := by
    rw [List.length_drop]
    omega
  have hfront := storeBytes_front (a.take i) hroom
  rwa [List.take_append_drop, hlen] at hfront

theorem exists_storeBytes {bytes : List UInt8} (h : i + bytes.length ≤ a.length) :
    ∃ a', storeBytes a i bytes = some a' ∧ a'.length = a.length := by
  refine ⟨_, storeBytes_eq h, ?_⟩
  simp only [List.length_append, List.length_take, List.length_map, List.length_drop]
  omega

theorem loadString_storeInt_one {a' : CharArray} (hlen : i + 4 ≤ a.length)
    (h : storeInt a i 1 = some a') : loadString (a'.drop i) = some [1] := by
  have hbytes : intBytes 1 = [1, 0, 0, 0] := by decide
  have htake : (a.take i).length = i := List.length_take_of_le (by omega)
  rw [storeInt, hbytes, storeBytes_eq hlen] at h
  rw [← Option.some.inj h, List.drop_left' htake]
  rfl

end Stores

section Run

variable (files : Files) {names : List (List UInt8)} {i : ℕ} {a : CharArray} (printed : List Int32)
  {threads : ℕ → Thread}

theorem reachable_turn (threads : ℕ → Thread) (hi : i < names.length)
    (hlen : a.length = 8 * names.length)
    (hfits : name i + ((names.getD i []).length + 1) ≤ 8 * names.length) :
    ∃ a', a'.length = 8 * names.length ∧
      Reachable (step files names) ⟨⟨a, .numThread i, printed⟩, threads⟩
        ⟨⟨a', .numThread (i + 1), printed⟩, Function.update threads i ⟨.openFile, none⟩⟩ := by
  have hint : ∀ v, (intBytes v).length = 4 := fun v => rfl
  have hstring : (names.getD i [] ++ [0]).length = (names.getD i []).length + 1 :=
    List.length_append
  simp only [name, sizeofThreadArgs] at hfits
  have hroom₁ : numThread i + (intBytes (.ofNat i)).length ≤ a.length := by
    rw [hint, hlen, numThread, sizeofThreadArgs]
    omega
  obtain ⟨a₁, hstore₁, hlen₁⟩ := exists_storeBytes hroom₁
  have hroom₂ : sum i + (intBytes 0).length ≤ a₁.length := by
    rw [hint, hlen₁, hlen, sum, sizeofThreadArgs]
    omega
  obtain ⟨a₂, hstore₂, hlen₂⟩ := exists_storeBytes hroom₂
  have hroom₃ : name i + (names.getD i [] ++ [0]).length ≤ a₂.length := by
    rw [hstring, hlen₂, hlen₁, hlen, name, sizeofThreadArgs]
    omega
  obtain ⟨a₃, hstore₃, hlen₃⟩ := exists_storeBytes hroom₃
  refine ⟨a₃, by rw [hlen₃, hlen₂, hlen₁, hlen], ?_⟩
  have hnum : step files names ⟨⟨a, .numThread i, printed⟩, threads⟩ .main =
      some ⟨⟨a₁, .sum i, printed⟩, threads⟩ := by
    simp only [step, stepMain, if_pos hi, storeInt, hstore₁, Option.map_some]
  have hsum : step files names ⟨⟨a₁, .sum i, printed⟩, threads⟩ .main =
      some ⟨⟨a₂, .copy i, printed⟩, threads⟩ := by
    simp only [step, stepMain, storeInt, hstore₂, Option.map_some]
  have hcopy : step files names ⟨⟨a₂, .copy i, printed⟩, threads⟩ .main =
      some ⟨⟨a₃, .create i, printed⟩, threads⟩ := by
    simp only [step, stepMain, storeString, hstore₃, Option.map_some]
  exact (((Reachable.refl.tail hnum).tail hsum).tail hcopy).tail (a := .main) rfl

theorem opened_of_load (names : List (List UInt8)) {opened : List UInt8}
    (hload : loadName a i = some opened) (hthread : threads i = ⟨.openFile, none⟩) (main : MainPc) :
    ∃ pc, step files names ⟨⟨a, main, printed⟩, threads⟩ (.thread i) =
      some ⟨⟨a, main, printed⟩, Function.update threads i ⟨pc, some opened⟩⟩ := by
  cases hfile : files opened with
  | none =>
    refine ⟨.returned, ?_⟩
    simp only [step, Config.move, stepThread, hthread, hload, hfile, Option.map_some]
  | some numbers =>
    refine ⟨.print numbers, ?_⟩
    simp only [step, Config.move, stepThread, hthread, hload, hfile, Option.map_some]

end Run

theorem exists_opened_one (files : Files) {names : List (List UInt8)} (htwo : 2 ≤ names.length)
    (hfits : (names.getD 0 []).length + 9 ≤ 8 * names.length) :
    ∃ s, Reachable (step files names) (init names) s ∧ (s.locals 0).opened = some [1] := by
  let unborn : ℕ → Thread := fun _ => ⟨.unborn, none⟩
  let threads : ℕ → Thread := Function.update unborn 0 ⟨.openFile, none⟩
  have hargs : (unassigned (sizeofThreadArgs * names.length)).length = 8 * names.length :=
    List.length_replicate
  have hpos : 0 < names.length := by omega
  have hname : name 0 + ((names.getD 0 []).length + 1) ≤ 8 * names.length := by
    rw [name, sizeofThreadArgs]
    omega
  obtain ⟨a, hlen, hturn⟩ := reachable_turn files [] unborn hpos hargs hname
  have hroom : numThread 1 + (intBytes 1).length ≤ a.length := by
    have hint : (intBytes 1).length = 4 := rfl
    rw [numThread, sizeofThreadArgs, hint, hlen]
    omega
  obtain ⟨a', hstore, -⟩ := exists_storeBytes hroom
  have hload : loadName a' 0 = some [1] := loadString_storeInt_one hroom hstore
  have hnum : step files names ⟨⟨a, .numThread 1, []⟩, threads⟩ .main =
      some ⟨⟨a', .sum 1, []⟩, threads⟩ := by
    have hone : Int32.ofNat 1 = 1 := rfl
    have htwo' : 1 < names.length := htwo
    simp only [step, stepMain, if_pos htwo', storeInt, hone, hstore, Option.map_some]
  have hfirst : threads 0 = ⟨.openFile, none⟩ := Function.update_self 0 _ unborn
  obtain ⟨pc, hopen⟩ := opened_of_load files [] names hload hfirst (.sum 1)
  refine ⟨_, (hturn.tail hnum).tail hopen, ?_⟩
  simp only [Function.update_self]

theorem not_separate (files : Files) {names : List (List UInt8)} (hne : names ≠ []) :
    (∀ i < names.length, ¬ Apart names i) ∧ ¬ Separate files names ∧
      (2 ≤ names.length → (names.getD 0 []).length + 9 ≤ 8 * names.length →
        ∃ s, Reachable (step files names) (init names) s ∧ (s.locals 0).opened = some [1]) :=
  ⟨fun _ hi => not_apart hi, not_separate_of_ne_nil files hne, exists_opened_one files⟩

def oneFile : Files := fun name => if name = text "a" then some [4, 8] else none

theorem not_separate_twoNames :
    (∀ i < [text "a", text "b"].length, ¬ Apart [text "a", text "b"] i) ∧
    ¬ Separate oneFile [text "a", text "b"] ∧ (2 ≤ [text "a", text "b"].length →
      ([text "a", text "b"].getD 0 []).length + 9 ≤ 8 * [text "a", text "b"].length →
        ∃ s, Reachable (step oneFile [text "a", text "b"]) (init [text "a", text "b"]) s ∧
          (s.locals 0).opened = some [1]) :=
  not_separate oneFile (by decide)

/-- With two files the first thread can open `"\x01"` in the place of `"a"`. -/
theorem first_opens_other : (∃ s, Reachable (step oneFile [text "a", text "b"])
      (init [text "a", text "b"]) s ∧ (s.locals 0).opened = some [1]) ∧
    [text "a", text "b"][0]? ≠ some [1] ∧ ¬ Separate oneFile [text "a", text "b"] :=
  ⟨exists_opened_one oneFile (by decide) (by decide), by decide,
    not_separate_of_ne_nil oneFile (by decide)⟩

end PsOs.Adder
