import PsOs.RingBufferWrap

namespace PsOs.RingBuffer

open TransitionSystems

variable {a : Args} {s t : State}

def Child.exited (c : Child) : Bool := c.pc = .exited

/-- `bound` limits the length of all runs from `s`: no schedule keeps the children from exiting,
so the two calls of `wait` in the parent return. -/
structure Completes (a : Args) (s : State) : Prop where
  progress : ¬ (s.producer.exited = true ∧ s.consumer.exited = true) →
    ∃ act, (step a s act).isSome = true
  bounded : ∃ bound, ∀ acts t, run (step a) s acts = some t → acts.length ≤ bound
  completion : ∃ t, Reachable (step a) s t ∧ t.producer.exited = true ∧ t.consumer.exited = true
  semaphores : s.producer.exited = true → s.consumer.exited = true →
    s.sem1 = 0 ∧ s.sem2 = a.L.toNat

def Child.remaining (K : UInt64) (c : Child) : ℕ :=
  match c.pc with
  | .test => 4 * (K.toNat + 1 - c.i.toNat) + 1
  | .wait => 4 * (K.toNat + 1 - c.i.toNat)
  | .access => 4 * (K.toNat + 1 - c.i.toNat) - 1
  | .post => 4 * (K.toNat + 1 - c.i.toNat) - 2
  | .exited => 0

def remaining (a : Args) (s : State) : ℕ := s.producer.remaining a.K + s.consumer.remaining a.K

inductive ChildMove (K : UInt64) (c : Child) : Child → Prop
  | test (hpc : c.pc = .test) : ChildMove K c (c.testLoop K)
  | wait (hpc : c.pc = .wait) : ChildMove K c (c.goto .access)
  | access (hpc : c.pc = .access) : ChildMove K c (c.goto .post)
  | post (hpc : c.pc = .post) : ChildMove K c c.next

theorem stepProducer_move (h : stepProducer a s = some t) :
    ChildMove a.K s.producer t.producer ∧ t.consumer = s.consumer := by
  cases hpc : s.producer.pc <;> simp only [stepProducer, hpc] at h
  case test =>
    cases h
    exact ⟨.test hpc, rfl⟩
  case wait =>
    obtain ⟨v, -, rfl⟩ := Option.map_eq_some_iff.mp h
    exact ⟨.wait hpc, rfl⟩
  case access =>
    cases h
    exact ⟨.access hpc, rfl⟩
  case post =>
    cases h
    exact ⟨.post hpc, rfl⟩
  case exited => cases h

theorem stepConsumer_move (h : stepConsumer a s = some t) :
    ChildMove a.K s.consumer t.consumer ∧ t.producer = s.producer := by
  cases hpc : s.consumer.pc <;> simp only [stepConsumer, hpc] at h
  case test =>
    cases h
    exact ⟨.test hpc, rfl⟩
  case wait =>
    obtain ⟨v, -, rfl⟩ := Option.map_eq_some_iff.mp h
    exact ⟨.wait hpc, rfl⟩
  case access =>
    cases h
    exact ⟨.access hpc, rfl⟩
  case post =>
    cases h
    exact ⟨.post hpc, rfl⟩
  case exited => cases h

section Remaining

variable {K : UInt64} {c c' : Child} {n : ℕ}

theorem Child.Completed.counter_toNat (h : c.Completed K n) (hK : K.toNat < 2 ^ 64 - 1) :
    c.i.toNat = n + 1 := by
  have := h.bound hK
  rw [h.counter, toNat_ofNat_of_lt (by omega)]

theorem ChildMove.remaining_lt (hm : ChildMove K c c') (h : c.Completed K n)
    (hK : K.toNat < 2 ^ 64 - 1) : c'.remaining K < c.remaining K := by
  have hi := h.counter_toNat hK
  cases hm with
  | test hpc =>
    unfold Child.testLoop
    split <;> simp [Child.remaining, Child.goto, hpc]
  | wait hpc =>
    have hn := h.inLoop hK (.inl hpc)
    simp only [Child.remaining, hpc, Child.goto, hi]
    omega
  | access hpc =>
    have hn := h.inLoop hK (.inr (.inl hpc))
    simp only [Child.remaining, hpc, Child.goto, hi]
    omega
  | post hpc =>
    have hn := h.inLoop hK (.inr (.inr hpc))
    have hnext := (h.next hpc).counter_toNat hK
    simp only [Child.next] at hnext
    simp only [Child.remaining, hpc, Child.next, hnext, hi]
    omega

end Remaining

theorem remaining_lt (hK : a.K.toNat < 2 ^ 64 - 1) {P C : ℕ} (h : Inv a s P C) {act : Action}
    (ht : step a s act = some t) : remaining a t < remaining a s := by
  unfold remaining
  cases act with
  | producer =>
    obtain ⟨hm, hconsumer⟩ := stepProducer_move ht
    rw [hconsumer]
    exact Nat.add_lt_add_right (hm.remaining_lt h.producer hK) _
  | consumer =>
    obtain ⟨hm, hproducer⟩ := stepConsumer_move ht
    rw [hproducer]
    exact Nat.add_lt_add_left (hm.remaining_lt h.consumer hK) _

section Waiting

theorem stepProducer_isSome (hexited : s.producer.exited = false)
    (hwait : s.producer.pc = .wait → 0 < s.sem2) : (stepProducer a s).isSome = true := by
  unfold stepProducer
  cases hpc : s.producer.pc with
  | wait => simp [semWait, hwait hpc]
  | exited => simp [Child.exited, hpc] at hexited
  | _ => rfl

theorem stepConsumer_isSome (hexited : s.consumer.exited = false)
    (hwait : s.consumer.pc = .wait → 0 < s.sem1) : (stepConsumer a s).isSome = true := by
  unfold stepConsumer
  cases hpc : s.consumer.pc with
  | wait => simp [semWait, hwait hpc]
  | exited => simp [Child.exited, hpc] at hexited
  | _ => rfl

theorem Child.Completed.stopped {K : UInt64} {c : Child} {n sem : ℕ} (h : c.Completed K n)
    (hK : K.toNat < 2 ^ 64 - 1) (hstop : ¬ (c.exited = false ∧ (c.pc = .wait → 0 < sem))) :
    c.held = 0 ∧ (c.exited = true ∧ n = K.toNat ∨ sem = 0 ∧ n < K.toNat) := by
  cases hpc : c.pc <;> simp only [Child.exited, hpc] at hstop
  case wait =>
    have hsem : sem = 0 := by simpa using hstop
    exact ⟨by simp [Child.held, hpc], .inr ⟨hsem, h.inLoop hK (.inl hpc)⟩⟩
  case exited =>
    exact ⟨by simp [Child.held, hpc], .inl ⟨by simp [Child.exited, hpc], (h.exited hpc).2⟩⟩
  all_goals simp at hstop

theorem Inv.progress (hv : a.Valid) (hK : a.K.toNat < 2 ^ 64 - 1) {P C : ℕ} (h : Inv a s P C)
    (hrunning : ¬ (s.producer.exited = true ∧ s.consumer.exited = true)) :
    ∃ act, (step a s act).isSome = true := by
  have hL := hv.2.1
  have hfree := h.free
  have hfull := h.full
  by_cases hp : s.producer.exited = false ∧ (s.producer.pc = .wait → 0 < s.sem2)
  · exact ⟨.producer, stepProducer_isSome hp.1 hp.2⟩
  by_cases hc : s.consumer.exited = false ∧ (s.consumer.pc = .wait → 0 < s.sem1)
  · exact ⟨.consumer, stepConsumer_isSome hc.1 hc.2⟩
  obtain ⟨hpheld, hp⟩ := h.producer.stopped hK hp
  obtain ⟨hcheld, hc⟩ := h.consumer.stopped hK hc
  exfalso
  rcases hp with ⟨hpexited, hP⟩ | ⟨hsem2, hP⟩
  · rcases hc with ⟨hcexited, -⟩ | ⟨hsem1, hC⟩
    · exact hrunning ⟨hpexited, hcexited⟩
    · omega
  · rcases hc with ⟨-, hC⟩ | ⟨hsem1, hC⟩ <;> omega

theorem Inv.semaphores {P C : ℕ} (h : Inv a s P C) (hp : s.producer.exited = true)
    (hc : s.consumer.exited = true) : s.sem1 = 0 ∧ s.sem2 = a.L.toNat := by
  have hppc : s.producer.pc = .exited := of_decide_eq_true hp
  have hcpc : s.consumer.pc = .exited := of_decide_eq_true hc
  have hfree := h.free
  have hfull := h.full
  have hP := (h.producer.exited hppc).2
  have hC := (h.consumer.exited hcpc).2
  have hpheld : s.producer.held = 0 := by simp [Child.held, hppc]
  have hcheld : s.consumer.held = 0 := by simp [Child.held, hcpc]
  omega

end Waiting

theorem Inv.completes (hv : a.Valid) (hK : a.K.toNat < 2 ^ 64 - 1) {P C : ℕ} (h : Inv a s P C) :
    Completes a s := by
  have hkeep : ∀ s act t, (∃ P C, Inv a s P C) → step a s act = some t → ∃ P C, Inv a t P C := by
    rintro s act t ⟨P, C, hinv⟩ ht
    exact inv_step hv (.inl hK) hinv ht
  have hdec : ∀ s act t, (∃ P C, Inv a s P C) → step a s act = some t →
      remaining a t < remaining a s := by
    rintro s act t ⟨P, C, hinv⟩ ht
    exact remaining_lt hK hinv ht
  refine ⟨h.progress hv hK, ⟨remaining a s, ?_⟩, ?_, h.semaphores⟩
  · intro acts t ht
    exact length_le_of_run hkeep hdec ⟨P, C, h⟩ ht
  · obtain ⟨t, ht, ⟨P', C', hinv⟩, hend⟩ := exists_terminal hkeep hdec ⟨P, C, h⟩
    refine ⟨t, ht, ?_⟩
    by_contra hrunning
    obtain ⟨act, hact⟩ := hinv.progress hv hK hrunning
    rw [hend act] at hact
    cases hact

theorem never_exits (hK : ¬ a.K.toNat < 2 ^ 64 - 1) (h : Reachable (step a) (init a) s) :
    s.producer.exited = false ∧ s.consumer.exited = false := by
  have hchild : ∀ c c' : Child, ChildMove a.K c c' → c'.exited = false := by
    intro c c' hm
    cases hm with
    | test hpc => simp [Child.testLoop, Child.goto, Child.exited, le_of_full_range hK]
    | _ => rfl
  apply h.invariant fun u => u.producer.exited = false ∧ u.consumer.exited = false
  · exact ⟨rfl, rfl⟩
  · intro u act v hu hv
    cases act with
    | producer =>
      obtain ⟨hm, hconsumer⟩ := stepProducer_move hv
      rw [hconsumer]
      exact ⟨hchild _ _ hm, hu.2⟩
    | consumer =>
      obtain ⟨hm, hproducer⟩ := stepConsumer_move hv
      rw [hproducer]
      exact ⟨hu.1, hchild _ _ hm⟩

theorem completes_iff (hv : a.Valid) :
    (∀ s, Reachable (step a) (init a) s → Completes a s) ↔ a.K.toNat < 2 ^ 64 - 1 := by
  constructor
  · intro h
    by_contra hK
    obtain ⟨t, ht, hp, -⟩ := (h (init a) .refl).completion
    rw [(never_exits hK ht).1] at hp
    cases hp
  · intro hK s hs
    obtain ⟨P, C, hinv⟩ := reachable_inv hv (.inl hK) hs
    exact hinv.completes hv hK

theorem completes_small : Args.Valid ⟨32044, 3042, 3040⟩ ∧
    ((∀ s, Reachable (step ⟨32044, 3042, 3040⟩) (init ⟨32044, 3042, 3040⟩) s →
      Completes ⟨32044, 3042, 3040⟩ s) ↔ (3042 : UInt64).toNat < 2 ^ 64 - 1) :=
  have hv : Args.Valid ⟨32044, 3042, 3040⟩ := by unfold Args.Valid; decide
  ⟨hv, completes_iff hv⟩

theorem minus_one_never_ends : Args.Valid ⟨1, -1, 3⟩ ∧
    ∀ s, Reachable (step ⟨1, -1, 3⟩) (init ⟨1, -1, 3⟩) s →
      s.producer.exited = false ∧ s.consumer.exited = false ∧ ¬ Completes ⟨1, -1, 3⟩ s := by
  refine ⟨by unfold Args.Valid; decide, fun s hs => ?_⟩
  have hout := fun t (ht : Reachable (step ⟨1, -1, 3⟩) (init ⟨1, -1, 3⟩) t) =>
    never_exits (by decide) ht
  refine ⟨(hout s hs).1, (hout s hs).2, fun h => ?_⟩
  obtain ⟨t, ht, hp, -⟩ := h.completion
  rw [(hout t (ReachableBy.trans hs ht)).1] at hp
  cases hp

end PsOs.RingBuffer
