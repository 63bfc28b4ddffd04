import Mathlib.Data.Nat.ModEq
import PsOs.RingBuffer

namespace PsOs.RingBuffer

open TransitionSystems

/-- The loop counters stay in step with the slots: no counter wraps, or the slots repeat with
a period that divides the range of the counter. -/
def Args.NoWrap (a : Args) : Prop := a.K.toNat < 2 ^ 64 - 1 ∨ a.L.toNat ∣ 2 ^ 64

def Child.held (c : Child) : ℕ := if c.pc = .access ∨ c.pc = .post then 1 else 0

def Child.accessed (c : Child) : ℕ := if c.pc = .post then 1 else 0

section Marks

variable {c : Child}

@[simp] theorem held_access : (c.goto .access).held = 1 := rfl
@[simp] theorem held_next : c.next.held = 0 := rfl
@[simp] theorem accessed_access : (c.goto .access).accessed = 0 := rfl
@[simp] theorem accessed_post : (c.goto .post).accessed = 1 := rfl
@[simp] theorem accessed_next : c.next.accessed = 0 := rfl

@[simp] theorem held_testLoop (K : UInt64) : (c.testLoop K).held = 0 := by
  unfold Child.testLoop
  split <;> rfl

@[simp] theorem accessed_testLoop (K : UInt64) : (c.testLoop K).accessed = 0 := by
  unfold Child.testLoop
  split <;> rfl

theorem held_of_inside (h : c.Inside) : c.held = 1 := if_pos h

end Marks

structure Child.Completed (K : UInt64) (c : Child) (n : ℕ) : Prop where
  counter : c.i = UInt64.ofNat (n + 1)
  exited : c.pc = .exited → K.toNat < 2 ^ 64 - 1 ∧ n = K.toNat
  bound : K.toNat < 2 ^ 64 - 1 → n ≤ K.toNat
  inLoop : K.toNat < 2 ^ 64 - 1 → c.pc = .wait ∨ c.pc = .access ∨ c.pc = .post → n < K.toNat

theorem Child.Completed.goto {K : UInt64} {c : Child} {n : ℕ} (h : c.Completed K n) {pc : Pc}
    (hpc : c.pc = .wait ∨ c.pc = .access ∨ c.pc = .post) (hne : pc ≠ .exited) :
    (c.goto pc).Completed K n :=
  ⟨h.counter, fun he => absurd he hne, h.bound, fun hK _ => h.inLoop hK hpc⟩

theorem Child.Completed.testLoop {K : UInt64} {c : Child} {n : ℕ} (h : c.Completed K n) :
    (c.testLoop K).Completed K n := by
  have hi : K.toNat < 2 ^ 64 - 1 → (c.i ≤ K ↔ n < K.toNat) := by
    intro hK
    have := h.bound hK
    rw [h.counter, UInt64.le_iff_toNat_le, toNat_ofNat_of_lt (by omega)]
    omega
  refine ⟨h.counter, ?_, h.bound, ?_⟩
  · intro he
    by_cases hle : c.i ≤ K
    · simp [Child.testLoop, Child.goto, hle] at he
    · have hK : K.toNat < 2 ^ 64 - 1 := by
        rw [UInt64.le_iff_toNat_le] at hle
        have := c.i.toNat_lt
        omega
      have := h.bound hK
      have := mt (hi hK).mpr hle
      exact ⟨hK, by omega⟩
  · intro hK hloop
    by_cases hle : c.i ≤ K
    · exact (hi hK).mp hle
    · simp [Child.testLoop, Child.goto, hle] at hloop

theorem Child.Completed.next {K : UInt64} {c : Child} {n : ℕ} (h : c.Completed K n)
    (hpc : c.pc = .post) : c.next.Completed K (n + 1) := by
  refine ⟨?_, ?_, ?_, ?_⟩
  · change c.i + 1 = _
    rw [h.counter, ofNat_succ]
  · intro he
    cases he
  · intro hK
    have := h.inLoop hK (.inr (.inr hpc))
    omega
  · intro _ hloop
    simp [Child.next] at hloop

structure Inv (a : Args) (s : State) (P C : ℕ) : Prop where
  producer : s.producer.Completed a.K P
  consumer : s.consumer.Completed a.K C
  free : s.sem2 + P + s.producer.held = a.L.toNat + C
  full : s.sem1 + C + s.consumer.held = P
  slots : ∀ k, C < k → k ≤ P + s.producer.accessed →
    s.buffer (UInt64.ofNat k % a.L) = UInt64.ofNat k * a.N
  result : s.result = total a.N (C + s.consumer.accessed)

theorem inv_init (a : Args) : Inv a (init a) 0 0 := by
  refine ⟨⟨rfl, ?_, ?_, ?_⟩, ⟨rfl, ?_, ?_, ?_⟩, ?_, ?_, ?_, ?_⟩
  all_goals simp [init, Child.held, Child.accessed, total]
  omega

theorem slot_ne {a : Args} (hw : a.NoWrap) {m n : ℕ} (hlt : m < n) (hclose : n - m < a.L.toNat)
    (hn : a.K.toNat < 2 ^ 64 - 1 → n ≤ a.K.toNat) :
    UInt64.ofNat n % a.L ≠ UInt64.ofNat m % a.L := by
  intro h
  have hmod := congrArg UInt64.toNat h
  simp only [UInt64.toNat_mod, UInt64.toNat_ofNat'] at hmod
  have hL : m % a.L.toNat = n % a.L.toNat := by
    rcases hw with hK | hdvd
    · have := hn hK
      rw [Nat.mod_eq_of_lt (show n < 2 ^ 64 by omega),
        Nat.mod_eq_of_lt (show m < 2 ^ 64 by omega)] at hmod
      exact hmod.symm
    · rw [Nat.mod_mod_of_dvd _ hdvd, Nat.mod_mod_of_dvd _ hdvd] at hmod
      exact hmod.symm
  have hdvd := (Nat.modEq_iff_dvd' hlt.le).mp hL
  have := Nat.le_of_dvd (by omega) hdvd
  omega

theorem semWait_eq_some {v w : ℕ} : semWait v = some w ↔ v = w + 1 := by
  unfold semWait
  split <;> simp <;> omega

theorem semPost_eq {v : ℕ} (h : v < SEM_VALUE_MAX) : semPost v = v + 1 := by
  simp [semPost, h]

theorem inv_stepProducer {a : Args} (hv : a.Valid) (hw : a.NoWrap) {s t : State} {P C : ℕ}
    (h : Inv a s P C) (hs : stepProducer a s = some t) : ∃ P', Inv a t P' C := by
  obtain ⟨-, hL, hmax⟩ := hv
  have hfree := h.free
  have hfull := h.full
  have hslots := h.slots
  cases hpc : s.producer.pc with
  | test =>
    simp only [stepProducer, hpc, Option.some.injEq] at hs
    subst hs
    have hheld : s.producer.held = 0 := by simp [Child.held, hpc]
    have hacc : s.producer.accessed = 0 := by simp [Child.accessed, hpc]
    refine ⟨P, h.producer.testLoop, h.consumer, ?_, hfull, ?_, h.result⟩
    · simpa [hheld] using hfree
    · simpa [hacc] using hslots
  | wait =>
    simp only [stepProducer, hpc, Option.map_eq_some_iff, semWait_eq_some] at hs
    obtain ⟨v, hv, rfl⟩ := hs
    have hheld : s.producer.held = 0 := by simp [Child.held, hpc]
    have hacc : s.producer.accessed = 0 := by simp [Child.accessed, hpc]
    refine ⟨P, h.producer.goto (by simp [hpc]) (by simp), h.consumer, ?_, hfull, ?_, h.result⟩
    · simp only [held_access]
      omega
    · simpa [hacc] using hslots
  | access =>
    simp only [stepProducer, hpc, Option.some.injEq] at hs
    subst hs
    have hheld : s.producer.held = 1 := held_of_inside (.inl hpc)
    refine ⟨P, h.producer.goto (by simp [hpc]) (by simp), h.consumer, ?_, hfull, ?_, h.result⟩
    · rwa [hheld] at hfree
    · intro k hCk hkP
      rw [accessed_post] at hkP
      change Function.update s.buffer (s.producer.i % a.L) (s.producer.i * a.N) _ = _
      rw [h.producer.counter]
      by_cases hk : k = P + 1
      · simp only [hk, Function.update_self]
      · have hbound : a.K.toNat < 2 ^ 64 - 1 → P + 1 ≤ a.K.toNat :=
          fun hK => h.producer.inLoop hK (by simp [hpc])
        -- a slot that the consumer has still to read is not the one written now
        rw [Function.update_of_ne (slot_ne hw (by omega) (by omega) hbound).symm]
        exact hslots k hCk (by omega)
  | post =>
    simp only [stepProducer, hpc, Option.some.injEq] at hs
    subst hs
    have hheld : s.producer.held = 1 := held_of_inside (.inr hpc)
    have hacc : s.producer.accessed = 1 := by simp [Child.accessed, hpc]
    refine ⟨P + 1, h.producer.next hpc, h.consumer, ?_, ?_, ?_, h.result⟩
    · simp only [held_next]
      omega
    · change semPost s.sem1 + C + s.consumer.held = P + 1
      rw [semPost_eq (by omega)]
      omega
    · simpa [hacc] using hslots
  | exited => simp [stepProducer, hpc] at hs

theorem consumer_reads {a : Args} {s : State} {P C : ℕ} (h : Inv a s P C)
    (hpc : s.consumer.pc = .access) :
    s.buffer (s.consumer.i % a.L) = s.consumer.i * a.N := by
  have hfull := h.full
  rw [held_of_inside (.inl hpc)] at hfull
  rw [h.consumer.counter]
  exact h.slots (C + 1) (by omega) (by omega)

theorem inv_stepConsumer {a : Args} (hv : a.Valid) {s t : State} {P C : ℕ}
    (h : Inv a s P C) (hs : stepConsumer a s = some t) : ∃ C', Inv a t P C' := by
  obtain ⟨-, hL, hmax⟩ := hv
  have hfree := h.free
  have hfull := h.full
  have hres := h.result
  cases hpc : s.consumer.pc with
  | test =>
    simp only [stepConsumer, hpc, Option.some.injEq] at hs
    subst hs
    have hheld : s.consumer.held = 0 := by simp [Child.held, hpc]
    have hacc : s.consumer.accessed = 0 := by simp [Child.accessed, hpc]
    refine ⟨C, h.producer, h.consumer.testLoop, hfree, ?_, h.slots, ?_⟩
    · simpa [hheld] using hfull
    · simpa [hacc] using hres
  | wait =>
    simp only [stepConsumer, hpc, Option.map_eq_some_iff, semWait_eq_some] at hs
    obtain ⟨v, hv, rfl⟩ := hs
    have hheld : s.consumer.held = 0 := by simp [Child.held, hpc]
    have hacc : s.consumer.accessed = 0 := by simp [Child.accessed, hpc]
    refine ⟨C, h.producer, h.consumer.goto (by simp [hpc]) (by simp), hfree, ?_, h.slots, ?_⟩
    · simp only [held_access]
      omega
    · simpa [hacc] using hres
  | access =>
    simp only [stepConsumer, hpc, Option.some.injEq] at hs
    subst hs
    have hheld : s.consumer.held = 1 := held_of_inside (.inl hpc)
    have hacc : s.consumer.accessed = 0 := by simp [Child.accessed, hpc]
    refine ⟨C, h.producer, h.consumer.goto (by simp [hpc]) (by simp), hfree, ?_, h.slots, ?_⟩
    · rwa [hheld] at hfull
    · change s.result + s.buffer (s.consumer.i % a.L) = total a.N (C + 1)
      rw [consumer_reads h hpc, hres, h.consumer.counter, hacc, total, add_zero]
  | post =>
    simp only [stepConsumer, hpc, Option.some.injEq] at hs
    subst hs
    have hheld : s.consumer.held = 1 := held_of_inside (.inr hpc)
    have hacc : s.consumer.accessed = 1 := by simp [Child.accessed, hpc]
    refine ⟨C + 1, h.producer, h.consumer.next hpc, ?_, ?_, ?_, ?_⟩
    · change semPost s.sem2 + P + s.producer.held = a.L.toNat + (C + 1)
      rw [semPost_eq (by omega)]
      omega
    · simp only [held_next]
      omega
    · exact fun k hCk hkP => h.slots k (by omega) hkP
    · simpa [hacc] using hres
  | exited => simp [stepConsumer, hpc] at hs

theorem inv_step {a : Args} (hv : a.Valid) (hw : a.NoWrap) {s t : State} {P C : ℕ}
    (h : Inv a s P C) {act : Action} (ht : step a s act = some t) : ∃ P' C', Inv a t P' C' := by
  cases act with
  | producer =>
    obtain ⟨P', h'⟩ := inv_stepProducer hv hw h ht
    exact ⟨P', C, h'⟩
  | consumer =>
    obtain ⟨C', h'⟩ := inv_stepConsumer hv h ht
    exact ⟨P, C', h'⟩

theorem reachable_inv {a : Args} (hv : a.Valid) (hw : a.NoWrap) {s : State}
    (h : Reachable (step a) (init a) s) : ∃ P C, Inv a s P C := by
  apply Reachable.invariant (fun s => ∃ P C, Inv a s P C) h ⟨0, 0, inv_init a⟩
  rintro s act t ⟨P, C, hinv⟩ ht
  exact inv_step hv hw hinv ht

theorem Inv.correct {a : Args} (hw : a.NoWrap) {s : State} {P C : ℕ} (h : Inv a s P C) :
    Correct a s := by
  refine ⟨consumer_reads h, ?_, ?_⟩
  · rintro ⟨hp, hc, hslot⟩
    have hfree := h.free
    have hfull := h.full
    rw [held_of_inside hp] at hfree
    rw [held_of_inside hc] at hfull
    rw [h.producer.counter, h.consumer.counter] at hslot
    have hbound : a.K.toNat < 2 ^ 64 - 1 → P + 1 ≤ a.K.toNat :=
      fun hK => h.producer.inLoop hK (.inr hp)
    exact slot_ne hw (by omega) (by omega) hbound hslot
  · intro hp hc fuel hfuel
    obtain ⟨hK, hC⟩ := h.consumer.exited hc
    have hres := h.result
    simp only [Child.accessed, hc, reduceCtorEq, if_false, add_zero, hC] at hres
    rw [hres]
    exact validateResult_total (by omega) hfuel

end PsOs.RingBuffer
