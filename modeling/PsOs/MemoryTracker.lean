import Mathlib.Data.Finmap
import Mathlib.Data.Finset.Card
import Mathlib.Data.Fintype.Basic

/-!
`exercise01/task1/includes/memory_tracking.c` with a table of `n` (`MEMORY_TRACKER_SIZE`)
blocks, and the map from addresses to sizes that it is to keep.
-/

namespace PsOs.MemoryTracker

inductive Error where
  | NULL_FREE
  | DOUBLE_FREE
  | MAX_ALLOC
  | FAILED_ALLOC
  | MEMORY_LEAK
  deriving DecidableEq

def Error.code : Error → UInt8
  | .NULL_FREE => 0
  | .DOUBLE_FREE => 1
  | .MAX_ALLOC => 2
  | .FAILED_ALLOC => 3
  | .MEMORY_LEAK => 4

structure Memory where
  address : UInt64
  size : UInt64
  line : UInt16
  deriving DecidableEq

structure Tracker (n : ℕ) where
  memory : Fin n → Memory
  totalAllocatedMemory : UInt64
  totalFreedMemory : UInt64
  error : UInt8

variable {n : ℕ}

def init (n : ℕ) : Tracker n := ⟨fun _ => ⟨0, 0, 0⟩, 0, 0, 0⟩

namespace Tracker

def findAddress (t : Tracker n) (address : UInt64) : Option (Fin n) :=
  (List.finRange n).find? fun i => (t.memory i).address = address

def report (t : Tracker n) (e : Error) : Tracker n := { t with error := t.error ||| e.code }

def allocateMemory (t : Tracker n) (address size : UInt64) (line : UInt16) : Tracker n :=
  if address = 0 then t.report .FAILED_ALLOC
  else
    match t.findAddress 0 with
    | none => t.report .MAX_ALLOC
    | some i =>
      { t with
        memory := Function.update t.memory i ⟨address, size, line⟩
        totalAllocatedMemory := t.totalAllocatedMemory + size }

def freeMemory (t : Tracker n) (address : UInt64) : Tracker n × Bool :=
  if address = 0 then (t.report .NULL_FREE, false)
  else
    match t.findAddress address with
    | none => (t.report .DOUBLE_FREE, false)
    | some i =>
      ({ t with
          memory := Function.update t.memory i { t.memory i with address := 0 }
          totalFreedMemory := t.totalFreedMemory + (t.memory i).size }, true)

def isMemoryLeaked (t : Tracker n) : Bool := t.totalAllocatedMemory != t.totalFreedMemory

def checkCleanMemoryHandling (t : Tracker n) : Bool := t.error == 0 && !t.isMemoryLeaked

end Tracker

inductive Call where
  | allocate (address size : UInt64) (line : UInt16)
  | free (address : UInt64)

def Tracker.step (t : Tracker n) : Call → Tracker n
  | .allocate address size line => t.allocateMemory address size line
  | .free address => (t.freeMemory address).1

def tracked (n : ℕ) (calls : List Call) : Tracker n := calls.foldl Tracker.step (init n)

abbrev Blocks := Finmap fun _ : UInt64 => UInt64

structure Account where
  live : Blocks
  faults : List Error
  allocated : ℕ

def Account.fault (n : ℕ) (acc : Account) : Call → Option Error
  | .allocate address _ _ =>
    if address = 0 then some .FAILED_ALLOC
    else if n ≤ acc.live.keys.card then some .MAX_ALLOC
    else none
  | .free address =>
    if address = 0 then some .NULL_FREE
    else if address ∈ acc.live then none
    else some .DOUBLE_FREE

def Account.apply (acc : Account) : Call → Account
  | .allocate address size _ =>
    { acc with
      live := acc.live.insert address size
      allocated := acc.allocated + size.toNat }
  | .free address => { acc with live := acc.live.erase address }

def Account.step (n : ℕ) (acc : Account) (c : Call) : Account :=
  match acc.fault n c with
  | some e => { acc with faults := acc.faults ++ [e] }
  | none => acc.apply c

def Account.init : Account := ⟨∅, [], 0⟩

def account (n : ℕ) (calls : List Call) : Account := calls.foldl (Account.step n) .init

/-- A block is allocated only at an address that is not in use. -/
def Call.Fresh (acc : Account) : Call → Prop
  | .allocate address _ _ => address ≠ 0 → address ∉ acc.live
  | .free _ => True

def AllFresh (n : ℕ) : Account → List Call → Prop
  | _, [] => True
  | acc, c :: calls => c.Fresh acc ∧ AllFresh n (acc.step n c) calls

section Finmap

variable {live : Blocks} {address size : UInt64}

theorem card_keys : live.keys.card = live.entries.card := by
  rw [← Finset.card_val]
  exact Multiset.card_map _ _

theorem mem_iff_entries : address ∈ live ↔ ∃ e ∈ live.entries, e.1 = address := by
  rw [Finmap.mem_def, Multiset.keys, Multiset.mem_map]

theorem exists_lookup (h : address ∈ live) : ∃ size, live.lookup address = some size :=
  Finmap.mem_iff.mp h

theorem entries_erase (h : live.lookup address = some size) :
    live.entries = ⟨address, size⟩ ::ₘ (live.erase address).entries := by
  have hinsert : (live.erase address).insert address size = live := by
    apply Finmap.ext_lookup
    intro a
    by_cases ha : a = address
    · subst ha
      rw [Finmap.lookup_insert, h]
    · rw [Finmap.lookup_insert_of_ne _ ha, Finmap.lookup_erase_ne ha]
  conv_lhs => rw [← hinsert]
  exact Finmap.entries_insert_of_notMem Finmap.notMem_erase_self

end Finmap

end PsOs.MemoryTracker
