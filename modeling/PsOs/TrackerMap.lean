import PsOs.TrackerRefinement

/-! The table as a map from the addresses in use to the sizes of their blocks. -/

namespace PsOs.MemoryTracker

variable {n : ℕ}

def Tracker.Untracked (t : Tracker n) : Call → Prop
  | .allocate address _ _ => address ≠ 0 → ∀ i, (t.memory i).address ≠ address
  | .free _ => True

def AllUntracked : Tracker n → List Call → Prop
  | _, [] => True
  | t, c :: calls => t.Untracked c ∧ AllUntracked (t.step c) calls

def liveStep (n : ℕ) (live : Blocks) : Call → Blocks
  | .allocate address size _ =>
    if address ≠ 0 ∧ live.keys.card < n then live.insert address size else live
  | .free address => live.erase address

def liveBlocks (n : ℕ) (calls : List Call) : Blocks := calls.foldl (liveStep n) ∅

structure RefinesMap (t : Tracker n) (live : Blocks) : Prop where
  entries : entries t.memory = live.entries
  distinct : ∀ i j, (t.memory i).address ≠ 0 → (t.memory i).address = (t.memory j).address → i = j
  freed : ∀ address, (t.freeMemory address).2 = true ↔ address ≠ 0 ∧ address ∈ live
  total : (t.totalAllocatedMemory - t.totalFreedMemory).toNat = liveSize live % 2 ^ 64

section Represents

variable {t : Tracker n} {acc : Account}

theorem erase_of_notMem {live : Blocks} {address : UInt64} (h : address ∉ live) :
    live.erase address = live := by
  apply Finmap.ext_lookup
  intro a
  by_cases ha : a = address
  · rw [ha, Finmap.lookup_erase, Finmap.lookup_eq_none.mpr h]
  · exact Finmap.lookup_erase_ne ha

theorem Represents.zero_notMem (h : Represents t acc) : (0 : UInt64) ∉ acc.live := by
  rw [mem_iff_entries, ← h.live]
  rintro ⟨e, he, hzero⟩
  obtain ⟨i, hi, rfl⟩ := Multiset.mem_map.mp he
  exact (Finset.mem_filter.mp (Finset.mem_val.mp hi)).2 hzero

theorem Represents.fresh (h : Represents t acc) {c : Call} (hc : t.Untracked c) : c.Fresh acc := by
  cases c with
  | allocate address size line =>
    intro ha hlive
    obtain ⟨i, hi⟩ := (h.mem_live ha).mp hlive
    exact hc ha i hi
  | free address => trivial

theorem Represents.live_step (h : Represents t acc) (c : Call) :
    (acc.step n c).live = liveStep n acc.live c := by
  cases c with
  | allocate address size line =>
    by_cases ha : address = 0
    · simp [Account.step, Account.fault, liveStep, ha]
    · by_cases hfull : n ≤ acc.live.keys.card
      · simp [Account.step, Account.fault, liveStep, ha, hfull, Nat.not_lt.mpr hfull]
      · simp [Account.step, Account.fault, liveStep, ha, hfull, Nat.not_le.mp hfull, Account.apply]
  | free address =>
    by_cases ha : address = 0
    · have hzero := erase_of_notMem h.zero_notMem
      simp only [Account.step, Account.fault, liveStep, ha, if_true, hzero]
    · by_cases hmem : address ∈ acc.live
      · simp only [Account.step, Account.fault, liveStep, ha, hmem, if_true, if_false,
          Account.apply]
      · simp only [Account.step, Account.fault, liveStep, ha, hmem, if_false, erase_of_notMem hmem]

theorem Represents.distinct (h : Represents t acc) {i j : Fin n} (hi : (t.memory i).address ≠ 0)
    (hij : (t.memory i).address = (t.memory j).address) : i = j := by
  have hkeys : ((used t.memory).val.map fun i => (t.memory i).address).Nodup := by
    have hnodup := Multiset.nodup_keys.mpr acc.live.nodupKeys
    rwa [Multiset.keys, ← h.live, MemoryTracker.entries, Multiset.map_map] at hnodup
  have hmem : ∀ {k : Fin n}, (t.memory k).address ≠ 0 → k ∈ (used t.memory).val := by
    intro k hk
    exact Finset.mem_val.mpr (Finset.mem_filter.mpr ⟨Finset.mem_univ _, hk⟩)
  apply Multiset.inj_on_of_nodup_map hkeys i (hmem hi) j _ hij
  apply hmem
  rwa [← hij]

theorem Represents.freed_iff (h : Represents t acc) (address : UInt64) :
    (t.freeMemory address).2 = true ↔ address ≠ 0 ∧ address ∈ acc.live := by
  by_cases ha : address = 0
  · simp [Tracker.freeMemory, ha]
  · have hfound := h.found ha
    cases hfind : t.findAddress address with
    | none => simp [Tracker.freeMemory, ha, hfind, hfound.mp hfind]
    | some i =>
      have hlive : address ∈ acc.live := by
        by_contra hnot
        rw [hfound.mpr hnot] at hfind
        cases hfind
      simp [Tracker.freeMemory, ha, hfind, hlive]

theorem Represents.total (h : Represents t acc) :
    (t.totalAllocatedMemory - t.totalFreedMemory).toNat = liveSize acc.live % 2 ^ 64 := by
  obtain ⟨freed, hsum, hfreed⟩ := h.freed
  have hallocated := h.allocated
  rw [UInt64.toNat_sub, hallocated, hfreed, hsum]
  omega

theorem Represents.refinesMap (h : Represents t acc) : RefinesMap t acc.live :=
  ⟨h.live, fun _ _ hi hij => h.distinct hi hij, h.freed_iff, h.total⟩

theorem refinesMap_foldl {calls : List Call} (h : Represents t acc) (hcalls : AllUntracked t calls) :
    RefinesMap (calls.foldl Tracker.step t) (calls.foldl (liveStep n) acc.live) := by
  induction calls generalizing t acc with
  | nil => exact h.refinesMap
  | cons c calls ih =>
    have hstep := h.step (h.fresh hcalls.1)
    have hrest := ih hstep hcalls.2
    rwa [h.live_step c] at hrest

end Represents

theorem tracked_refinesMap {calls : List Call} (h : AllUntracked (init n) calls) :
    RefinesMap (tracked n calls) (liveBlocks n calls) := refinesMap_foldl .init h

theorem tracked_refinesMap_oneSlot :
    RefinesMap (tracked 1 [.allocate 16 8 1, .allocate 32 4 2, .free 16])
      (liveBlocks 1 [.allocate 16 8 1, .allocate 32 4 2, .free 16]) := by
  apply tracked_refinesMap
  refine ⟨?_, ?_, trivial, trivial⟩
  · intro _ i
    exact (by decide : (0 : UInt64) ≠ 16)
  · intro _ i
    have hslot : ((init 1).step (.allocate 16 8 1)).memory i = ⟨16, 8, 1⟩ := by
      rw [Subsingleton.elim i 0]
      rfl
    rw [hslot]
    decide

end PsOs.MemoryTracker
