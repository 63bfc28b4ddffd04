import PsOs.RingBufferInvariant

namespace PsOs.RingBuffer

open TransitionSystems

def Hits (a : Args) (p c : Child) (m n : ℕ) : Prop :=
  ∃ s, Reachable (step a) (init a) s ∧ s.producer = p ∧ s.consumer = c ∧ s.sem1 = m ∧ s.sem2 = n

section

variable {a : Args} {p c : Child} {i : UInt64} {m n : ℕ}

theorem producer_enters (hi : i ≤ a.K) (h : Hits a ⟨i, .test⟩ c m (n + 1)) :
    Hits a ⟨i, .access⟩ c m n := by
  obtain ⟨s, hs, hp, rfl, rfl, hn⟩ := h
  let t : State := { s with producer := ⟨i, .wait⟩ }
  have ht : step a s .producer = some t := by
    simp [step, stepProducer, hp, Child.testLoop, Child.goto, hi, t]
  have hu : step a t .producer = some { t with sem2 := n, producer := ⟨i, .access⟩ } := by
    simp [step, stepProducer, semWait, Child.goto, t, hn]
  exact ⟨_, (hs.tail ht).tail hu, rfl, rfl, rfl, rfl⟩

theorem producer_leaves (hm : m < SEM_VALUE_MAX) (h : Hits a ⟨i, .access⟩ c m n) :
    Hits a ⟨i + 1, .test⟩ c (m + 1) n := by
  obtain ⟨s, hs, hp, rfl, rfl, rfl⟩ := h
  let t : State := { s with
    buffer := Function.update s.buffer (i % a.L) (i * a.N), producer := ⟨i, .post⟩ }
  have ht : step a s .producer = some t := by
    simp [step, stepProducer, hp, Child.goto, t]
  have hu : step a t .producer = some { t with sem1 := s.sem1 + 1, producer := ⟨i + 1, .test⟩ } := by
    simp [step, stepProducer, semPost_eq hm, Child.next, t]
  exact ⟨_, (hs.tail ht).tail hu, rfl, rfl, rfl, rfl⟩

theorem consumer_enters (hi : i ≤ a.K) (h : Hits a p ⟨i, .test⟩ (m + 1) n) :
    Hits a p ⟨i, .access⟩ m n := by
  obtain ⟨s, hs, rfl, hc, hm, rfl⟩ := h
  let t : State := { s with consumer := ⟨i, .wait⟩ }
  have ht : step a s .consumer = some t := by
    simp [step, stepConsumer, hc, Child.testLoop, Child.goto, hi, t]
  have hu : step a t .consumer = some { t with sem1 := m, consumer := ⟨i, .access⟩ } := by
    simp [step, stepConsumer, semWait, Child.goto, t, hm]
  exact ⟨_, (hs.tail ht).tail hu, rfl, rfl, rfl, rfl⟩

theorem consumer_leaves (hn : n < SEM_VALUE_MAX) (h : Hits a p ⟨i, .access⟩ m n) :
    Hits a p ⟨i + 1, .test⟩ m (n + 1) := by
  obtain ⟨s, hs, rfl, hc, rfl, rfl⟩ := h
  let t : State := { s with result := s.result + s.buffer (i % a.L), consumer := ⟨i, .post⟩ }
  have ht : step a s .consumer = some t := by
    simp [step, stepConsumer, hc, Child.goto, t]
  have hu : step a t .consumer = some { t with sem2 := s.sem2 + 1, consumer := ⟨i + 1, .test⟩ } := by
    simp [step, stepConsumer, semPost_eq hn, Child.next, t]
  exact ⟨_, (hs.tail ht).tail hu, rfl, rfl, rfl, rfl⟩

end

theorem le_of_full_range {a : Args} (hK : ¬ a.K.toNat < 2 ^ 64 - 1) (i : UInt64) : i ≤ a.K := by
  rw [UInt64.le_iff_toNat_le]
  have := i.toNat_lt
  omega

theorem hits_level {a : Args} (hv : a.Valid) (hK : ¬ a.K.toNat < 2 ^ 64 - 1) (C : ℕ) :
    Hits a ⟨UInt64.ofNat (C + 1), .test⟩ ⟨UInt64.ofNat (C + 1), .test⟩ 0 a.L.toNat := by
  obtain ⟨-, hL, hmax⟩ := hv
  induction C with
  | zero => exact ⟨init a, Reachable.refl, rfl, rfl, rfl, rfl⟩
  | succ C ih =>
    obtain ⟨n, hn⟩ : ∃ n, a.L.toNat = n + 1 := ⟨a.L.toNat - 1, by omega⟩
    rw [hn] at ih hmax ⊢
    have hput := producer_leaves (by omega) (producer_enters (le_of_full_range hK _) ih)
    have hget := consumer_leaves (by omega) (consumer_enters (le_of_full_range hK _) hput)
    simpa only [ofNat_succ] using hget

theorem hits_ahead {a : Args} (hv : a.Valid) (hK : ¬ a.K.toNat < 2 ^ 64 - 1) (C : ℕ) {d : ℕ}
    (hd : d ≤ a.L.toNat) :
    Hits a ⟨UInt64.ofNat (C + d + 1), .test⟩ ⟨UInt64.ofNat (C + 1), .test⟩ d (a.L.toNat - d) := by
  induction d with
  | zero => exact hits_level hv hK C
  | succ d ih =>
    obtain ⟨n, hn⟩ : ∃ n, a.L.toNat - d = n + 1 := ⟨a.L.toNat - d - 1, by omega⟩
    have h := ih (by omega)
    rw [hn] at h
    have hput := producer_leaves (by have := hv.2.2; omega)
      (producer_enters (le_of_full_range hK _) h)
    rw [ofNat_succ] at hput
    have hrest : a.L.toNat - (d + 1) = n := by omega
    rw [hrest]
    exact hput

/-- Iteration 2^64 of the producer is `i = 0`: it uses the slot of an iteration that the
consumer, fewer than `L` iterations behind, has not finished. -/
theorem exists_incorrect {a : Args} (hv : a.Valid) (hw : ¬ a.NoWrap) :
    ∃ s, Reachable (step a) (init a) s ∧ ¬ Correct a s := by
  obtain ⟨hK, hdvd⟩ := not_or.mp hw
  have hL := hv.2.1
  let r := 2 ^ 64 % a.L.toNat
  have hr : r < a.L.toNat := Nat.mod_lt _ hL
  have hr0 : 0 < r := Nat.pos_of_ne_zero fun h => hdvd (Nat.dvd_of_mod_eq_zero h)
  have hLlt := a.L.toNat_lt
  -- the consumer is at iteration `2 ^ 64 - r`, whose slot is 0, and the producer `r` ahead
  have hahead := hits_ahead hv hK (2 ^ 64 - r - 1) hr.le
  obtain ⟨n, hn⟩ : ∃ n, a.L.toNat - r = n + 1 := ⟨a.L.toNat - r - 1, by omega⟩
  obtain ⟨m, hm⟩ : ∃ m, r = m + 1 := ⟨r - 1, by omega⟩
  have hprod : 2 ^ 64 - r - 1 + r + 1 = 2 ^ 64 := by omega
  have hcons : 2 ^ 64 - r - 1 + 1 = 2 ^ 64 - r := by omega
  rw [hprod, hcons, hn] at hahead
  have hp := producer_enters (le_of_full_range hK _) hahead
  rw [hm] at hp
  have hboth := consumer_enters (le_of_full_range hK _) hp
  obtain ⟨s, hs, hsp, hsc, -, -⟩ := hboth
  refine ⟨s, hs, fun h => h.exclusive ⟨.inl (by rw [hsp]), .inl (by rw [hsc]), ?_⟩⟩
  rw [hsp, hsc]
  apply UInt64.toNat_inj.mp
  have hslot : (2 ^ 64 - r) % a.L.toNat = 0 := Nat.sub_mod_eq_zero_of_mod_eq (Nat.mod_mod _ _).symm
  simp only [UInt64.toNat_mod, UInt64.toNat_ofNat']
  rw [← hm, Nat.mod_eq_of_lt (show 2 ^ 64 - r < 2 ^ 64 by omega), hslot]
  simp

theorem correct_iff (a : Args) (hv : a.Valid) :
    (∀ s, Reachable (step a) (init a) s → Correct a s) ↔
      a.K.toNat < 2 ^ 64 - 1 ∨ a.L.toNat ∣ 2 ^ 64 := by
  constructor
  · intro h
    by_contra hw
    obtain ⟨s, hs, hbad⟩ := exists_incorrect hv hw
    exact hbad (h s hs)
  · intro hw s hs
    obtain ⟨P, C, hinv⟩ := reachable_inv hv hw hs
    exact hinv.correct hw

theorem correct_iff_small :
    Args.Valid ⟨32044, 3042, 3040⟩ ∧
      ((∀ s, Reachable (step ⟨32044, 3042, 3040⟩) (init ⟨32044, 3042, 3040⟩) s →
        Correct ⟨32044, 3042, 3040⟩ s) ↔
        (3042 : UInt64).toNat < 2 ^ 64 - 1 ∨ (3040 : UInt64).toNat ∣ 2 ^ 64) :=
  have hv : Args.Valid ⟨32044, 3042, 3040⟩ := by unfold Args.Valid; decide
  ⟨hv, correct_iff _ hv⟩

/-- `./task3 1 -1 3`: `K` becomes 2^64 - 1 and passes the test `K <= 0`. -/
theorem incorrect_of_minus_one :
    Args.Valid ⟨1, -1, 3⟩ ∧
      ¬ ∀ s, Reachable (step ⟨1, -1, 3⟩) (init ⟨1, -1, 3⟩) s → Correct ⟨1, -1, 3⟩ s := by
  have hv : Args.Valid ⟨1, -1, 3⟩ := by unfold Args.Valid; decide
  refine ⟨hv, fun h => ?_⟩
  obtain ⟨s, hs, hbad⟩ := exists_incorrect hv (by unfold Args.NoWrap; decide)
  exact hbad (h s hs)

end PsOs.RingBuffer
