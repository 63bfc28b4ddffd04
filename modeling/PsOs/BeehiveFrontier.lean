import PsOs.BeehiveField

namespace PsOs.Beehive

open Grid Threads TransitionSystems

variable {N : ℕ} {dim : FieldGeometry}

def Bee.Carries (b : Bee) (p : ℕ) : Prop :=
  match b.pc with
  | .unlockPop pos | .lockField pos | .readNectar pos | .clearNectar pos => pos = p
  | _ => False

def ToExamine (dim : FieldGeometry) (hasNectar : ℕ → Bool) (pos k p : ℕ) : Prop :=
  hasNectar pos = false ∧ ∃ j : Fin 4, k ≤ j ∧ calculatePositions pos dim j = p

def Bee.Examines (dim : FieldGeometry) (hasNectar : ℕ → Bool) (b : Bee) (p : ℕ) : Prop :=
  match b.pc with
  | .collect pos => ToExamine dim hasNectar pos 0 p
  | .examine pos k => ToExamine dim hasNectar pos k p
  | .push pos k | .inPush pos k => ToExamine dim hasNectar pos k p
  | _ => False

def Pending (dim : FieldGeometry) (h : Hive N) (f : Fin N → Bee) (p : ℕ) : Prop :=
  (p : ℤ) ∈ h.queue ∨ ∃ i, (f i).Carries p ∨ (f i).Examines dim h.hasNectar p

/-- Next to a harvested cell, or the seed if nothing has been harvested. -/
def Frontier (dim : FieldGeometry) (hasNectar : ℕ → Bool) (p : ℕ) : Prop :=
  (∃ q < dim.size, hasNectar q = false ∧ Adjacent dim.width p q) ∨
    (∀ q < dim.size, hasNectar q = true) ∧ p = seed dim

def Bee.InField (dim : FieldGeometry) (b : Bee) : Prop :=
  match b.pc with
  | .unlockPop pos | .lockField pos | .readNectar pos | .clearNectar pos | .collect pos
  | .examine pos _ => pos < dim.size
  | .push pos k | .inPush pos k => pos < dim.size ∧ calculatePositions pos dim k ≠ errorValue
  | _ => True

def Bee.AtField (b : Bee) : Prop :=
  match b.pc with
  | .readNectar _ | .clearNectar _ | .collect _ | .examine _ _ | .push _ _ | .inPush _ _
  | .unlockField => True
  | _ => False

structure FieldInv (dim : FieldGeometry) (s : State N) : Prop where
  queued : ∀ v ∈ s.shared.queue, ∃ p < dim.size, v = (p : ℤ)
  bees : ∀ i, (s.locals i).InField dim
  field : Guards s.shared.fieldMutex Bee.AtField s.locals
  frontier : ∀ p < dim.size, s.shared.hasNectar p = true → Frontier dim s.shared.hasNectar p →
    Pending dim s.shared s.locals p

theorem FieldInv.init (hv : dim.Valid) : FieldInv dim (init dim N) := by
  have hseed := hv.seed_lt
  have hlt := hv.size_lt
  have hqueue : asInt (seed dim) = seed dim := asInt_cast (by omega)
  refine ⟨?_, fun i => trivial, fun i h => h.elim, ?_⟩
  · intro v hv
    simp only [Beehive.init, hqueue, List.mem_singleton] at hv
    exact ⟨_, hseed, hv⟩
  · rintro p hp - (⟨q, hq, hharvested, -⟩ | ⟨-, rfl⟩)
    · rw [hv.init_hasNectar hq] at hharvested
      cases hharvested
    · left
      simp [Beehive.init, hqueue]

section Moves

variable {s t : State N} {i : Fin N} {h' : Hive N} {b' : Bee}

theorem queued_move (hv : dim.Valid) (h : FieldInv dim s)
    (hm : Move dim i s.shared (s.locals i) h' b') : ∀ v ∈ h'.queue, ∃ p < dim.size, v = (p : ℤ) := by
  have hlt := hv.size_lt
  cases hm with
  | popped value queue hpc hq =>
    intro v hmem
    exact h.queued v (by rw [hq]; exact List.mem_cons_of_mem _ hmem)
  | pushed pos k hpc =>
    have hb := h.bees i
    simp only [Bee.InField, hpc] at hb
    have hentry := (hv.adjacent_entry hb.1 hb.2).1
    intro v hmem
    rcases List.mem_append.mp hmem with hmem | hmem
    · exact h.queued v hmem
    · rw [List.mem_singleton, asInt_cast (by omega)] at hmem
      exact ⟨_, hentry, hmem⟩
  | _ => exact h.queued

theorem inField_move (hv : dim.Valid) (h : FieldInv dim s)
    (hm : Move dim i s.shared (s.locals i) h' b') : b'.InField dim := by
  have hb := h.bees i
  unfold Bee.InField at hb
  cases hm with
  | popped value queue hpc hq =>
    obtain ⟨p, hp, hval⟩ := h.queued value (by simp [hq])
    have hlt := hv.size_lt
    simp only [Bee.InField, Bee.goto, hval]
    rwa [asSize_cast (by omega)]
  | leave stop gen hpc hgen =>
    rcases leave_pc i s.shared.serial (s.locals i) stop with hp | hp | hp <;>
      simp [Bee.InField, hp]
  | unlockPop pos hpc | lockField pos hpc | hasNectar pos hpc | clearNectar pos hpc
  | collect pos hpc | skip pos k hpc | push pos k hpc =>
    simp only [hpc] at hb
    exact hb
  | report pos k hpc hk =>
    simp only [hpc] at hb
    exact ⟨hb, hk⟩
  | pushed pos k hpc =>
    simp only [hpc] at hb
    exact hb.1
  | _ => trivial

theorem guards_move (h : FieldInv dim s) (hm : Move dim i s.shared (s.locals i) h' b') :
    Guards h'.fieldMutex Bee.AtField (Function.update s.locals i b') := by
  cases hm with
  | lockField pos hpc hfree =>
    have hfield := h.field
    rw [hfree] at hfield
    exact hfield.acquire
  | unlockField hpc =>
    exact h.field.release (by simp [Bee.AtField, hpc]) (by simp [Bee.AtField, Bee.goto])
  | leave stop gen hpc hgen =>
    apply h.field.stay
    rcases leave_pc i s.shared.serial (s.locals i) stop with hp | hp | hp <;>
      simp [Bee.AtField, hp]
  | _ =>
    apply h.field.stay
    simp [Bee.AtField, Bee.goto, *]

theorem hasNectar_move (hm : Move dim i s.shared (s.locals i) h' b') {q : ℕ}
    (hq : s.shared.hasNectar q = false) : h'.hasNectar q = false := by
  cases hm with
  | clearNectar pos hpc =>
    by_cases hqp : q = pos
    · simp [hqp]
    · simpa [hqp] using hq
  | _ => exact hq

theorem Bee.Examines.mono {b : Bee} {hasNectar hasNectar' : ℕ → Bool} {p : ℕ}
    (h : b.Examines dim hasNectar p) (hle : ∀ q, hasNectar q = false → hasNectar' q = false) :
    b.Examines dim hasNectar' p := by
  unfold Bee.Examines ToExamine at h ⊢
  cases hpc : b.pc <;> simp only [hpc] at h ⊢
  all_goals exact h.imp_left (hle _)

theorem bee_move (hm : Move dim i s.shared (s.locals i) h' b') (hv : dim.Valid) {p : ℕ}
    (hp : p < dim.size) (hn : h'.hasNectar p = true)
    (hb : (s.locals i).Carries p ∨ (s.locals i).Examines dim s.shared.hasNectar p) :
    (p : ℤ) ∈ h'.queue ∨ b'.Carries p ∨ b'.Examines dim h'.hasNectar p := by
  unfold Bee.Carries Bee.Examines at hb
  cases hm with
  | unlockPop pos hpc | lockField pos hpc | hasNectar pos hpc =>
    simp only [hpc, or_false] at hb
    exact .inr (.inl hb)
  | noNectar pos hpc hempty =>
    simp only [hpc, or_false] at hb
    rw [← hb, hempty] at hn
    cases hn
  | clearNectar pos hpc =>
    simp only [hpc, or_false] at hb
    simp [hb] at hn
  | collect pos hpc | report pos k hpc | push pos k hpc =>
    simp only [hpc, false_or] at hb
    exact .inr (.inr hb)
  | skip pos k hpc hk =>
    simp only [hpc, false_or] at hb
    obtain ⟨hharvested, j, hkj, rfl⟩ := hb
    -- the entry skipped is outside of the field or has no nectar, so it is not the one of `p`
    have hjk : j ≠ k := by
      rintro rfl
      rcases hk with herr | hempty
      · exact hv.ne_errorValue hp herr
      · rw [hempty] at hn
        cases hn
    exact .inr (.inr ⟨hharvested, j, by omega, rfl⟩)
  | pushed pos k hpc =>
    simp only [hpc, false_or] at hb
    obtain ⟨hharvested, j, hkj, rfl⟩ := hb
    by_cases hjk : j = k
    · subst hjk
      have := hv.size_lt
      left
      simp [asInt_cast (n := calculatePositions pos dim j) (by omega)]
    · exact .inr (.inr ⟨hharvested, j, by omega, rfl⟩)
  | examined pos k hpc hk =>
    simp only [hpc, false_or] at hb
    obtain ⟨-, j, hkj, -⟩ := hb
    omega
  | _ => simp only [*, or_self] at hb

theorem pending_move (hm : Move dim i s.shared (s.locals i) h' b') (hv : dim.Valid) {p : ℕ}
    (hp : p < dim.size) (hn : h'.hasNectar p = true) (h : Pending dim s.shared s.locals p) :
    Pending dim h' (Function.update s.locals i b') p := by
  have hself : (p : ℤ) ∈ h'.queue ∨ b'.Carries p ∨ b'.Examines dim h'.hasNectar p →
      Pending dim h' (Function.update s.locals i b') p :=
    Or.imp_right fun hb => ⟨i, by rwa [Function.update_self]⟩
  rcases h with hqueue | ⟨j, hj⟩
  · apply hself
    cases hm with
    | popped value queue hpc hq =>
      rw [hq] at hqueue
      rcases List.mem_cons.mp hqueue with rfl | hqueue
      · have := hv.size_lt
        exact .inr (.inl (asSize_cast (by omega)))
      · exact .inl hqueue
    | pushed pos k hpc => exact .inl (List.mem_append_left _ hqueue)
    | _ => exact .inl hqueue
  · by_cases hji : j = i
    · subst hji
      exact hself (bee_move hm hv hp hn hj)
    · refine .inr ⟨j, ?_⟩
      rw [Function.update_of_ne hji]
      exact hj.imp_right fun hex => hex.mono fun _ => hasNectar_move hm

theorem frontier_move (hm : Move dim i s.shared (s.locals i) h' b') (hv : dim.Valid)
    (h : FieldInv dim s) {p : ℕ} (hp : p < dim.size) (hn : h'.hasNectar p = true)
    (hf : Frontier dim h'.hasNectar p) : Pending dim h' (Function.update s.locals i b') p := by
  have hn' : s.shared.hasNectar p = true := by
    rw [← Bool.not_eq_false]
    intro hfalse
    rw [hasNectar_move hm hfalse] at hn
    cases hn
  by_cases hold : Frontier dim s.shared.hasNectar p
  · exact pending_move hm hv hp hn (h.frontier p hp hn' hold)
  · -- only a harvest makes the frontier larger
    cases hm with
    | clearNectar pos hpc =>
      have hpos : pos < dim.size := by
        have hb := h.bees i
        simpa only [Bee.InField, hpc] using hb
      have hadj : Adjacent dim.width pos p := by
        rcases hf with ⟨q, hq, hharvested, hadj⟩ | ⟨hall, -⟩
        · by_cases hqp : q = pos
          · rw [← hqp]
            exact hadj.symm
          · exact absurd (.inl ⟨q, hq, by simpa [hqp] using hharvested, hadj⟩) hold
        · simpa using hall pos hpos
      obtain ⟨k, hk⟩ := hv.exists_entry hpos hp hadj
      refine .inr ⟨i, .inr ?_⟩
      rw [Function.update_self]
      exact ⟨by simp, k, Nat.zero_le _, hk⟩
    | _ => exact absurd hf hold

end Moves

theorem FieldInv.step {s t : State N} {a : Action N} (hv : dim.Valid) (h : FieldInv dim s)
    (ht : step dim s a = some t) : FieldInv dim t := by
  obtain ⟨i, h', b', hm, rfl⟩ | ⟨-, main, flag, -, rfl⟩ := step_cases ht
  · refine ⟨queued_move hv h hm, fun j => ?_, guards_move h hm,
      fun p hp hn hf => frontier_move hm hv h hp hn hf⟩
    by_cases hji : j = i
    · subst hji
      simpa only [Function.update_self] using inField_move hv h hm
    · simpa only [Function.update_of_ne hji] using h.bees j
  · exact ⟨h.queued, h.bees, h.field, h.frontier⟩

structure NoSourceLost (dim : FieldGeometry) (s : State N) : Prop where
  queued : ∀ v ∈ s.shared.queue, 0 ≤ v ∧ v < dim.size
  carried : ∀ i p, (s.locals i).Carries p → p < dim.size
  frontier : ∀ p < dim.size, s.shared.hasNectar p = true → Frontier dim s.shared.hasNectar p →
    Pending dim s.shared s.locals p
  exhausted : s.shared.queue = [] → (∀ i p, ¬ (s.locals i).Carries p) →
    s.shared.fieldMutex = none → ∀ p < dim.size, s.shared.hasNectar p = false

theorem harvested_of_not_pending {h : Hive N} {f : Fin N → Bee} (hv : dim.Valid)
    (hfrontier : ∀ p < dim.size, h.hasNectar p = true → Frontier dim h.hasNectar p →
      Pending dim h f p)
    (hnone : ∀ p, ¬ Pending dim h f p) : ∀ p < dim.size, h.hasNectar p = false := by
  have hclosed : ∀ p q, p < dim.size → q < dim.size → Adjacent dim.width p q →
      h.hasNectar p = false → h.hasNectar q = false := by
    intro p q hp hq hadj hharvested
    rw [← Bool.not_eq_true]
    intro hn
    exact hnone q (hfrontier q hq hn (.inl ⟨p, hp, hharvested, hadj.symm⟩))
  obtain ⟨q, hq, hharvested⟩ : ∃ q < dim.size, h.hasNectar q = false := by
    by_contra hall
    push Not at hall
    simp only [Bool.not_eq_false] at hall
    exact hnone _ (hfrontier _ hv.seed_lt (hall _ hv.seed_lt) (.inr ⟨hall, rfl⟩))
  exact fun p hp => connected hv.width_pos hclosed hq hharvested hp

theorem FieldInv.noSourceLost {s : State N} (hv : dim.Valid) (h : FieldInv dim s) :
    NoSourceLost dim s := by
  refine ⟨fun v hmem => ?_, fun i p hcar => ?_, h.frontier, fun hqueue hcar hfree => ?_⟩
  · obtain ⟨p, hp, rfl⟩ := h.queued v hmem
    omega
  · have hb := h.bees i
    unfold Bee.Carries at hcar
    unfold Bee.InField at hb
    cases hpc : (s.locals i).pc <;> simp only [hpc] at hb hcar
    all_goals rwa [← hcar]
  · refine harvested_of_not_pending hv h.frontier fun p hp => ?_
    rcases hp with hmem | ⟨i, hc | hex⟩
    · rw [hqueue] at hmem
      cases hmem
    · exact hcar i p hc
    · have hat : (s.locals i).AtField := by
        unfold Bee.Examines at hex
        unfold Bee.AtField
        cases hpc : (s.locals i).pc <;> simp only [hpc] at hex ⊢
      rw [h.field i hat] at hfree
      cases hfree

theorem noSourceLost_of_reachable {width height : ℕ} (hw : 1 ≤ width) (hh : 1 ≤ height)
    (hsize : width * height < 2 ^ 31) {s : State N}
    (h : Reachable (step (globalField width height)) (init (globalField width height) N) s) :
    NoSourceLost (globalField width height) s := by
  have hv := globalField_valid hw hh hsize
  exact (Reachable.invariant (FieldInv _) h (.init hv) fun _ _ _ hs => hs.step hv).noSourceLost hv

theorem noSourceLost_afterPush : ∃ s : State 2, s.shared.queue = [0] ∧
    NoSourceLost (globalField 2 1) s := by
  obtain ⟨s, hs, hp⟩ := exists_reachable_of_run (step (globalField 2 1))
    (init (globalField 2 1) 2) (turns 0 16 0) (fun s => decide (s.shared.queue = [0]))
    (by decide +kernel)
  exact ⟨s, of_decide_eq_true hp, noSourceLost_of_reachable (by decide)
    (by decide) (by decide) hs⟩

end PsOs.Beehive
