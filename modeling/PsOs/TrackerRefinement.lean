import Mathlib.Algebra.BigOperators.Group.Multiset.Basic
import Mathlib.Data.Fintype.Card
import PsOs.MemoryTracker

namespace PsOs.MemoryTracker

variable {n : ℕ}

def used (memory : Fin n → Memory) : Finset (Fin n) :=
  Finset.univ.filter fun i => (memory i).address ≠ 0

def Memory.entry (m : Memory) : Σ _ : UInt64, UInt64 := ⟨m.address, m.size⟩

def entries (memory : Fin n → Memory) : Multiset (Σ _ : UInt64, UInt64) :=
  (used memory).val.map fun i => (memory i).entry

def liveSize (live : Blocks) : ℕ := (live.entries.map fun e => e.2.toNat).sum

structure Represents (t : Tracker n) (acc : Account) : Prop where
  live : entries t.memory = acc.live.entries
  error : t.error = 0 ↔ ∀ e ∈ acc.faults, e = .NULL_FREE
  allocated : t.totalAllocatedMemory.toNat = acc.allocated % 2 ^ 64
  freed : ∃ freed, acc.allocated = freed + liveSize acc.live ∧
    t.totalFreedMemory.toNat = freed % 2 ^ 64

section Entries

variable {memory : Fin n → Memory} {i : Fin n} {m : Memory}

theorem entries_update (hold : (memory i).address = 0) (hnew : m.address ≠ 0) :
    entries (Function.update memory i m) = m.entry ::ₘ entries memory := by
  have hnot : i ∉ used memory := by simp [used, hold]
  have hused : used (Function.update memory i m) = insert i (used memory) := by
    ext j
    by_cases hji : j = i
    · simp [used, hji, hnew]
    · simp [used, hji]
  rw [entries, hused, Finset.insert_val_of_notMem hnot, Multiset.map_cons, Function.update_self]
  congr 1
  apply Multiset.map_congr rfl
  intro j hj
  have hji : j ≠ i := by
    rintro rfl
    exact hnot hj
  rw [Function.update_of_ne hji]

theorem entries_clear (hold : (memory i).address ≠ 0) (hnew : m.address = 0) :
    entries memory = (memory i).entry ::ₘ entries (Function.update memory i m) := by
  have hcleared : (Function.update memory i m i).address = 0 := by rwa [Function.update_self]
  have hupdate := entries_update hcleared hold
  rwa [Function.update_idem, Function.update_eq_self] at hupdate

theorem card_entries_lt : (entries memory).card < n ↔ ∃ i, (memory i).address = 0 := by
  have hcard : (entries memory).card = (used memory).card := by
    rw [entries, Multiset.card_map, Finset.card_val]
  have huniv : (used memory).card < n ↔ used memory ≠ Finset.univ := by
    have hne := Finset.card_lt_iff_ne_univ (used memory)
    rwa [Fintype.card_fin] at hne
  rw [hcard, huniv, Ne, used, Finset.filter_eq_self]
  simp

end Entries

section Find

variable {t : Tracker n} {address : UInt64} {i : Fin n}

theorem findAddress_some (h : t.findAddress address = some i) : (t.memory i).address = address := by
  simpa using List.find?_some h

theorem findAddress_none : t.findAddress address = none ↔ ∀ i, (t.memory i).address ≠ address := by
  simp [Tracker.findAddress]

end Find

section Steps

variable {t : Tracker n} {acc : Account} {address size : UInt64} {i : Fin n}

theorem Represents.mem_live (h : Represents t acc) (ha : address ≠ 0) :
    address ∈ acc.live ↔ ∃ i, (t.memory i).address = address := by
  rw [mem_iff_entries, ← h.live]
  simp only [entries, Multiset.mem_map, Finset.mem_val, used, Finset.mem_filter, Finset.mem_univ,
    true_and]
  constructor
  · rintro ⟨e, ⟨i, -, rfl⟩, he⟩
    exact ⟨i, he⟩
  · rintro ⟨i, rfl⟩
    exact ⟨_, ⟨i, ha, rfl⟩, rfl⟩

theorem Represents.full (h : Represents t acc) :
    t.findAddress 0 = none ↔ n ≤ acc.live.keys.card := by
  rw [findAddress_none, card_keys, ← h.live, ← not_lt, card_entries_lt, not_exists]

theorem Represents.found (h : Represents t acc) (ha : address ≠ 0) :
    t.findAddress address = none ↔ address ∉ acc.live := by
  rw [findAddress_none, h.mem_live ha, not_exists]

theorem or_eq_zero_iff {a b : UInt8} : a ||| b = 0 ↔ a = 0 ∧ b = 0 := by
  simp only [← UInt8.toNat_inj, UInt8.toNat_or, UInt8.toNat_zero, Nat.or_eq_zero_iff]

theorem Represents.report (h : Represents t acc) (e : Error) :
    Represents (t.report e) { acc with faults := acc.faults ++ [e] } := by
  refine ⟨h.live, ?_, h.allocated, h.freed⟩
  have hcode : e.code = 0 ↔ e = .NULL_FREE := by cases e <;> decide
  simp only [Tracker.report, or_eq_zero_iff, h.error, hcode, List.forall_mem_append,
    List.mem_singleton, forall_eq]

theorem Represents.insert (h : Represents t acc) (ha : address ≠ 0) (hfresh : address ∉ acc.live)
    (hi : t.findAddress 0 = some i) (line : UInt16) :
    Represents { t with
        memory := Function.update t.memory i ⟨address, size, line⟩
        totalAllocatedMemory := t.totalAllocatedMemory + size }
      (acc.apply (.allocate address size line)) := by
  have hentries : (acc.live.insert address size).entries =
      ⟨address, size⟩ ::ₘ acc.live.entries := Finmap.entries_insert_of_notMem hfresh
  refine ⟨?_, h.error, ?_, ?_⟩
  · rw [entries_update (findAddress_some hi) ha, h.live]
    exact hentries.symm
  · have := h.allocated
    simp only [Account.apply, UInt64.toNat_add]
    omega
  · obtain ⟨freed, hsum, hfreed⟩ := h.freed
    refine ⟨freed, ?_, hfreed⟩
    simp only [Account.apply, liveSize, hentries, Multiset.map_cons, Multiset.sum_cons] at hsum ⊢
    omega

theorem Represents.erase (h : Represents t acc) (ha : address ≠ 0)
    (hi : t.findAddress address = some i) :
    Represents { t with
        memory := Function.update t.memory i { t.memory i with address := 0 }
        totalFreedMemory := t.totalFreedMemory + (t.memory i).size }
      (acc.apply (.free address)) := by
  have hold : (t.memory i).address = address := findAddress_some hi
  have hclear := entries_clear (m := { t.memory i with address := 0 }) (hold ▸ ha) rfl
  have hmem : address ∈ acc.live := (h.mem_live ha).mpr ⟨i, hold⟩
  obtain ⟨size, hsize⟩ := exists_lookup hmem
  have hentries := entries_erase hsize
  have hentry : (t.memory i).entry = ⟨address, size⟩ := by
    have hlookup : (t.memory i).entry ∈ acc.live.entries := by
      rw [← h.live, hclear]
      exact Multiset.mem_cons_self _ _
    rw [hentries, Multiset.mem_cons] at hlookup
    refine hlookup.resolve_right fun hrest => ?_
    have hback : address ∈ acc.live.erase address := mem_iff_entries.mpr ⟨_, hrest, hold⟩
    exact Finmap.notMem_erase_self hback
  refine ⟨?_, h.error, h.allocated, ?_⟩
  · rw [h.live, hentries, hentry] at hclear
    exact ((Multiset.cons_inj_right _).mp hclear).symm
  · obtain ⟨freed, hsum, hfreed⟩ := h.freed
    have hsize' : (t.memory i).size = size := by
      have := congrArg (fun e => e.2) hentry
      exact this
    refine ⟨freed + size.toNat, ?_, ?_⟩
    · simp only [liveSize, hentries, Multiset.map_cons, Multiset.sum_cons] at hsum
      simp only [Account.apply, liveSize]
      omega
    · simp only [hsize', UInt64.toNat_add]
      omega

theorem Represents.step {c : Call} (h : Represents t acc) (hfresh : c.Fresh acc) :
    Represents (t.step c) (acc.step n c) := by
  cases c with
  | allocate address size line =>
    by_cases ha : address = 0
    · simp only [Tracker.step, Tracker.allocateMemory, Account.step, Account.fault, ha, if_true]
      exact h.report _
    · simp only [Tracker.step, Tracker.allocateMemory, Account.step, Account.fault, ha, if_false]
      cases hfind : t.findAddress 0 with
      | none =>
        rw [if_pos (h.full.mp hfind)]
        exact h.report _
      | some i =>
        have hroom : ¬ n ≤ acc.live.keys.card := by
          rw [← h.full, hfind]
          exact Option.some_ne_none i
        rw [if_neg hroom]
        exact h.insert ha (hfresh ha) hfind line
  | free address =>
    by_cases ha : address = 0
    · simp only [Tracker.step, Tracker.freeMemory, Account.step, Account.fault, ha, if_true]
      exact h.report _
    · simp only [Tracker.step, Tracker.freeMemory, Account.step, Account.fault, ha, if_false]
      cases hfind : t.findAddress address with
      | none =>
        rw [if_neg ((h.found ha).mp hfind)]
        exact h.report _
      | some i =>
        have hmem : address ∈ acc.live := (h.mem_live ha).mpr ⟨i, findAddress_some hfind⟩
        rw [if_pos hmem]
        exact h.erase ha hfind

end Steps

theorem Represents.init : Represents (init n) .init := by
  refine ⟨?_, ?_, rfl, 0, rfl, rfl⟩
  · have hnone : entries (MemoryTracker.init n).memory = 0 := by
      simp [entries, used, MemoryTracker.init]
    exact hnone
  · simp [MemoryTracker.init, Account.init]

theorem represents_foldl {t : Tracker n} {acc : Account} {calls : List Call} (h : Represents t acc)
    (hfresh : AllFresh n acc calls) :
    Represents (calls.foldl Tracker.step t) (calls.foldl (Account.step n) acc) := by
  induction calls generalizing t acc with
  | nil => exact h
  | cons c calls ih => exact ih (h.step hfresh.1) hfresh.2

theorem represents_account {calls : List Call} (h : AllFresh n .init calls) :
    Represents (tracked n calls) (account n calls) := represents_foldl .init h

end PsOs.MemoryTracker
