import PsOs.BeehiveAccounting

namespace PsOs.Beehive

open Threads TransitionSystems

variable {N : ℕ} {dim : FieldGeometry}

def Bee.Working (b : Bee) : Prop :=
  match b.pc with
  | .guard | .left | .arrive _ | .await _ _ | .bear | .storeTerminate | .storeDestroyed => False
  | _ => True

def BearAttack (s t : State N) : Prop :=
  ∃ i, (s.locals i).pc = .bear ∧ (t.locals i).pc = .storeTerminate

structure Quiet (s : State N) : Prop where
  idle : ∀ i, ¬ (s.locals i).Working
  stopped : s.shared.mustTerminate = true ∨ ∃ i, (s.locals i).pc = .storeTerminate

section Quiet

variable {s t : State N}

theorem BarrierInv.between (h : BarrierInv s) {i : Fin N} (hi : (s.locals i).pc.offset = 1)
    (hactive : (s.locals i).pc.waiting = false) (j : Fin N) : (s.locals j).pc.offset ≠ 0 := by
  intro hj
  have hphasei := h.phase i
  have hphasej := h.phase j
  have hnot : (s.locals j).pc.waiting = false := by
    cases hpc : (s.locals j).pc with
    | await stop gen => cases stop <;> simp [hpc, Pc.offset] at hj
    | _ => rfl
  simp only [hactive, hnot, Bool.false_eq_true, false_and, or_false] at hphasei hphasej
  omega

theorem offset_of_working {b : Bee} (h : b.Working) : b.pc.offset = 0 := by
  unfold Bee.Working at h
  cases hpc : b.pc <;> simp only [hpc] at h <;> rfl

theorem BarrierInv.storing (h : BarrierInv s) {i : Fin N} (hi : (s.locals i).pc = .storeTerminate)
    (j : Fin N) : (s.locals j).pc.offset ≠ 0 :=
  h.between (i := i) (by rw [hi]; rfl) (by rw [hi]; rfl) j

theorem Quiet.of_attack (h : BarrierInv t) (hattack : BearAttack s t) : Quiet t := by
  obtain ⟨i, -, hi⟩ := hattack
  exact ⟨fun j hj => h.storing hi j (offset_of_working hj), .inr ⟨i, hi⟩⟩

theorem Quiet.move {i : Fin N} {h' : Hive N} {b' : Bee} (h : Quiet s) (hb : BarrierInv s)
    (hm : Move dim i s.shared (s.locals i) h' b') :
    ¬ b'.Working ∧ h'.hasNectar = s.shared.hasNectar ∧ h'.harvests = s.shared.harvests ∧
      (s.shared.mustTerminate = true → h'.mustTerminate = true) := by
  have hidle := h.idle i
  unfold Bee.Working at hidle
  cases hm with
  | enter hpc hflag =>
    rcases h.stopped with hstop | ⟨j, hj⟩
    · rw [hflag] at hstop
      cases hstop
    · exact absurd (by rw [hpc]; rfl) (hb.storing hj i)
  | leave stop gen hpc hgen =>
    refine ⟨?_, rfl, rfl, id⟩
    rcases leave_pc i s.shared.serial (s.locals i) stop with hp | hp | hp <;>
      simp [Bee.Working, hp]
  | exit hpc | arrive stop serial hpc | repelled hpc | destroyed hpc | storeDestroyed hpc =>
    exact ⟨fun hw => hw, rfl, rfl, id⟩
  | storeTerminate hpc => exact ⟨fun hw => hw, rfl, rfl, fun _ => rfl⟩
  | _ => simp only [*, not_true_eq_false] at hidle

theorem Quiet.step {a : Action N} (h : Quiet s) (hb : BarrierInv s) (ht : step dim s a = some t) :
    Quiet t ∧ t.shared.hasNectar = s.shared.hasNectar ∧ t.shared.harvests = s.shared.harvests := by
  obtain ⟨i, h', b', hm, rfl⟩ | ⟨-, main, flag, hflag, rfl⟩ := step_cases ht
  · obtain ⟨hidle, hcells, hharvests, hmono⟩ := h.move hb hm
    refine ⟨⟨?_, ?_⟩, hcells, hharvests⟩
    · apply (Function.forall_update_iff s.locals fun _ b => ¬ b.Working).mpr
      exact ⟨hidle, fun j _ => h.idle j⟩
    · rcases h.stopped with hstop | ⟨j, hj⟩
      · exact .inl (hmono hstop)
      · by_cases hji : j = i
        · subst hji
          left
          cases hm <;> simp_all
        · refine .inr ⟨j, ?_⟩
          simpa only [Function.update_of_ne hji] using hj
  · refine ⟨⟨h.idle, h.stopped.imp_left fun hstop => ?_⟩, rfl, rfl⟩
    rcases hflag with rfl | ⟨-, rfl⟩
    · exact hstop
    · rfl

theorem Quiet.frozen (h : Quiet s) (hb : BarrierInv s) (hst : Reachable (Beehive.step dim) s t) :
    t.shared.hasNectar = s.shared.hasNectar ∧ t.shared.harvests = s.shared.harvests := by
  have hinv : BarrierInv t ∧ Quiet t ∧ t.shared.hasNectar = s.shared.hasNectar ∧
      t.shared.harvests = s.shared.harvests := by
    apply hst.invariant fun u => BarrierInv u ∧ Quiet u ∧
      u.shared.hasNectar = s.shared.hasNectar ∧ u.shared.harvests = s.shared.harvests
    · exact ⟨hb, h, rfl, rfl⟩
    · rintro u a v ⟨hbu, hu, hcells, hharvests⟩ huv
      obtain ⟨hv, hcells', hharvests'⟩ := hu.step hbu huv
      exact ⟨hbu.step huv, hv, hcells'.trans hcells, hharvests'.trans hharvests⟩
  exact hinv.2.2

end Quiet

def AttackedAt (dim : FieldGeometry) (s t : State N) : Prop :=
  ∃ r a, Reachable (step dim) (init dim N) r ∧ step dim r a = some s ∧ BearAttack r s ∧
    Reachable (step dim) s t

def Struck (s : State N) : Prop :=
  s.shared.beehiveDestroyed = true ∨
    ∃ i, (s.locals i).pc = .storeTerminate ∨ (s.locals i).pc = .storeDestroyed

section Attack

variable {s t : State N}

theorem struck_or_attack {a : Action N} (ht : step dim s a = some t) (hstruck : Struck t) :
    Struck s ∨ BearAttack s t := by
  obtain ⟨i, h', b', hm, rfl⟩ | ⟨-, main, flag, -, rfl⟩ := step_cases ht
  · have hold : (b'.pc = .storeTerminate ∨ b'.pc = .storeDestroyed) →
        Struck s ∨ (s.locals i).pc = .bear ∧ b'.pc = .storeTerminate := by
      intro hb
      cases hm with
      | destroyed hpc => exact .inr ⟨hpc, rfl⟩
      | storeTerminate hpc => exact .inl (.inr ⟨i, .inl hpc⟩)
      | leave stop gen hpc hgen =>
        rcases leave_pc i s.shared.serial (s.locals i) stop with hp | hp | hp <;> simp [hp] at hb
      | _ => simp [Bee.goto] at hb
    rcases hstruck with hdestroyed | ⟨j, hj⟩
    · cases hm with
      | storeDestroyed hpc => exact .inl (.inr ⟨i, .inr hpc⟩)
      | _ => exact .inl (.inl hdestroyed)
    · by_cases hji : j = i
      · subst hji
        simp only [Function.update_self] at hj
        apply (hold hj).imp_right
        rintro ⟨hbear, hstore⟩
        exact ⟨j, hbear, by simpa only [Function.update_self] using hstore⟩
      · simp only [Function.update_of_ne hji] at hj
        exact .inl (.inr ⟨j, hj⟩)
  · exact .inl hstruck

theorem exists_attackedAt (h : Reachable (step dim) (init dim N) t) (hstruck : Struck t) :
    ∃ s, AttackedAt dim s t := by
  induction h with
  | refl =>
    rcases hstruck with hdestroyed | ⟨i, hi⟩
    · cases hdestroyed
    · rcases hi with hi | hi <;> cases hi
  | tail hr _ ht ih =>
    rcases struck_or_attack ht hstruck with hold | hattack
    · obtain ⟨s, r, a, hr', hs, hattack, hst⟩ := ih hold
      exact ⟨s, r, a, hr', hs, hattack, Reachable.tail hst ht⟩
    · exact ⟨_, _, _, hr, ht, hattack, .refl⟩

theorem AttackedAt.frozen (hN : 1 ≤ N) (h : AttackedAt dim s t) :
    t.shared.hasNectar = s.shared.hasNectar ∧ t.shared.harvests = s.shared.harvests := by
  obtain ⟨r, a, hr, hs, hattack, hst⟩ := h
  have hb : BarrierInv s :=
    (Reachable.invariant BarrierInv hr (.init hN) fun _ _ _ hu => hu.step).step hs
  exact (Quiet.of_attack hb hattack).frozen hb hst

end Attack

def AllLeft (s : State N) : Prop := ∀ i, (s.locals i).pc = .left

def Settled (dim : FieldGeometry) (h : Hive N) : Prop :=
  dim.numberFlowers ≤ h.collected ∨ h.beehiveDestroyed = true

def MainOk (dim : FieldGeometry) (s : State N) : Prop :=
  match s.shared.main with
  | .readCount | .readDestroyed => True
  | .storeTerminate => Settled dim s.shared
  | .join k => Settled dim s.shared ∧ ∀ i : Fin N, i < k → (s.locals i).pc = .left
  | .report => Settled dim s.shared ∧ AllLeft s
  | .printCount destroyed =>
    Settled dim s.shared ∧ AllLeft s ∧ destroyed = s.shared.beehiveDestroyed
  | .finished destroyed count =>
    Settled dim s.shared ∧ AllLeft s ∧ destroyed = s.shared.beehiveDestroyed ∧
      count = s.shared.collected

section MainOk

variable {s t : State N}

theorem settled_move {i : Fin N} {h h' : Hive N} {b b' : Bee} (hm : Move dim i h b h' b')
    (hs : Settled dim h) : Settled dim h' := by
  cases hm with
  | collect pos hpc => exact hs.imp_left Nat.le_succ_of_le
  | storeDestroyed hpc => exact .inr rfl
  | _ => exact hs

theorem not_left_of_move {i : Fin N} {h h' : Hive N} {b b' : Bee} (hm : Move dim i h b h' b') :
    b.pc ≠ .left := by
  intro hleft
  cases hm <;> simp_all

theorem mainOk_bee {i : Fin N} {h' : Hive N} {b' : Bee}
    (hm : Move dim i s.shared (s.locals i) h' b') (h : MainOk dim s) :
    MainOk dim ⟨h', Function.update s.locals i b'⟩ := by
  have hleft := not_left_of_move hm
  have hmain : h'.main = s.shared.main := by cases hm <;> rfl
  unfold MainOk at h ⊢
  simp only [hmain]
  cases hpc : s.shared.main <;> simp only [hpc] at h ⊢
  case storeTerminate => exact settled_move hm h
  case join k =>
    refine ⟨settled_move hm h.1, fun j hj => ?_⟩
    have hji : j ≠ i := by
      rintro rfl
      exact hleft (h.2 j hj)
    rw [Function.update_of_ne hji]
    exact h.2 j hj
  case report => exact absurd (h.2 i) hleft
  case printCount => exact absurd (h.2.1 i) hleft
  case finished => exact absurd (h.2.1 i) hleft

theorem mainOk_main {h' : Hive N} (hm : stepMain dim s = some h') (h : MainOk dim s) :
    MainOk dim ⟨h', s.locals⟩ := by
  unfold MainOk at h
  unfold stepMain at hm
  cases hpc : s.shared.main <;> simp only [hpc] at h hm
  case readCount =>
    cases hm
    by_cases hlt : s.shared.collected < dim.numberFlowers
    · simp [MainOk, hlt]
    · simp only [MainOk, hlt, if_false]
      exact .inl (Nat.le_of_not_lt hlt)
  case readDestroyed =>
    cases hm
    cases hd : s.shared.beehiveDestroyed with
    | true => simp [MainOk, Settled]
    | false => simp [MainOk]
  case storeTerminate =>
    cases hm
    exact ⟨h, fun i hi => absurd hi (Nat.not_lt_zero _)⟩
  case join k =>
    split at hm
    · split at hm <;> cases hm
      refine ⟨h.1, fun i hi => ?_⟩
      rcases Nat.lt_succ_iff_lt_or_eq.mp hi with hlt | heq
      · exact h.2 i hlt
      · subst heq
        assumption
    · cases hm
      exact ⟨h.1, fun i => h.2 i (by omega)⟩
  case report =>
    cases hm
    exact ⟨h.1, h.2, rfl⟩
  case printCount =>
    cases hm
    exact ⟨h.1, h.2.1, h.2.2, rfl⟩
  case finished => cases hm

theorem MainOk.step {a : Action N} (h : MainOk dim s) (ht : step dim s a = some t) :
    MainOk dim t := by
  cases a with
  | bee turn =>
    obtain ⟨h', b', hm, rfl⟩ := Config.move_eq_some.mp ht
    exact mainOk_bee (stepBee_move hm) h
  | main =>
    obtain ⟨h', hm, rfl⟩ := Option.map_eq_some_iff.mp ht
    exact mainOk_main hm h

end MainOk

structure Accounting (dim : FieldGeometry) (s : State N) : Prop where
  counted : s.shared.fieldMutex = none →
    s.shared.collected = (harvestedCells dim s.shared.hasNectar).card
  once : s.shared.harvests.Nodup
  harvested : ∀ p, p ∈ s.shared.harvests ↔ p < dim.size ∧ s.shared.hasNectar p = false
  frozen : s.shared.beehiveDestroyed = true → ∀ t, Reachable (step dim) s t →
    t.shared.harvests = s.shared.harvests
  success : ∀ count, s.shared.main = .finished false count →
    count = dim.numberFlowers ∧ ∀ p < dim.size, s.shared.hasNectar p = false
  defeat : ∀ count, s.shared.main = .finished true count →
    (∃ r, AttackedAt dim r s) ∧
      ∀ r, AttackedAt dim r s → count = (harvestedCells dim r.shared.hasNectar).card

theorem accounting_of_reachable {width height : ℕ} (hN : 1 ≤ N) (hw : 1 ≤ width) (hh : 1 ≤ height)
    (hsize : width * height < 2 ^ 31) {s : State N}
    (h : Reachable (step (globalField width height)) (init (globalField width height) N) s) :
    Accounting (globalField width height) s := by
  have hv := globalField_valid hw hh hsize
  have hacc := Reachable.invariant (AccountInv _) h (.init hv) fun _ _ _ hu => hu.step hv
  have hmain := Reachable.invariant (MainOk _) h trivial fun _ _ _ hu => hu.step
  unfold MainOk at hmain
  refine ⟨hacc.collected_eq, hacc.once, hacc.harvested, fun hd t hst => ?_, fun count hpc => ?_,
    fun count hpc => ?_⟩
  · obtain ⟨r, u, a, hu, hr, hattack, hrs⟩ := exists_attackedAt h (.inl hd)
    have hbefore := AttackedAt.frozen hN ⟨u, a, hu, hr, hattack, hrs⟩
    have hafter := AttackedAt.frozen hN ⟨u, a, hu, hr, hattack, hrs.trans hst⟩
    exact hafter.2.trans hbefore.2.symm
  · simp only [hpc] at hmain
    obtain ⟨hsettled, hleft, hd, rfl⟩ := hmain
    have hcount := hacc.collected_eq (hacc.free_of_left hleft)
    have hle : (harvestedCells (globalField width height) s.shared.hasNectar).card ≤
        (globalField width height).size := card_harvestedCells_le _
    have hge := hsettled.resolve_right (by simp [← hd])
    have hflowers : (globalField width height).numberFlowers = (globalField width height).size := by
      rw [globalField_eq hw hh hsize]
      rfl
    exact ⟨by omega, fun p hp => all_harvested (by omega) hp⟩
  · simp only [hpc] at hmain
    obtain ⟨-, hleft, hd, rfl⟩ := hmain
    refine ⟨exists_attackedAt h (.inl hd.symm), fun r hr => ?_⟩
    rw [← (hr.frozen hN).1]
    exact hacc.collected_eq (hacc.free_of_left hleft)

theorem accounting_afterSuccess : ∃ s : State 1, s.shared.main = .finished false 1 ∧
    Accounting (globalField 1 1) s := by
  obtain ⟨s, hs, hp⟩ := exists_reachable_of_run (step (globalField 1 1))
    (init (globalField 1 1) 1) (turns 0 11 0 ++ mainSteps 2 ++ turns 0 12 0 ++ mainSteps 4)
    (fun s => decide (s.shared.main = .finished false 1)) (by decide +kernel)
  exact ⟨s, of_decide_eq_true hp, accounting_of_reachable (by decide) (by decide) (by decide)
    (by decide) hs⟩

end PsOs.Beehive
