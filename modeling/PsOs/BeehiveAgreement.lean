import PsOs.BeehiveMoves

namespace PsOs.Beehive

open Threads TransitionSystems

variable {N : ℕ} {dim : FieldGeometry}

def Pc.offset : Pc → ℕ
  | .await .first _ | .bear | .storeTerminate | .storeDestroyed | .arrive .second => 1
  | .await .second _ => 2
  | _ => 0

def Pc.waiting : Pc → Bool
  | .await _ _ => true
  | _ => false

def Bee.place (b : Bee) : Place := ⟨2 * b.rounds + b.pc.offset, b.pc.waiting⟩

def Bee.entered (b : Bee) : ℕ :=
  match b.pc with
  | .guard | .left => b.rounds
  | _ => b.rounds + 1

structure BarrierInv (s : State N) : Prop where
  sync : Synced Bee.place s.shared.barrier s.locals
  awaits : ∀ i stop gen, (s.locals i).pc = .await stop gen →
    gen + 1 = (s.locals i).place.arrivals

section Barrier

variable {s t : State N}

theorem BarrierInv.init (hN : 1 ≤ N) : BarrierInv (init dim N) := by
  have : Nonempty (Fin N) := ⟨⟨0, hN⟩⟩
  exact ⟨.init fun _ => rfl, fun i stop gen h => by cases h⟩

theorem leave_place {i : Fin N} {serial : Option (Fin N)} {b : Bee} {stop : Stop} {gen : ℕ}
    (hpc : b.pc = .await stop gen) :
    (b.leave i serial stop).place = ⟨b.place.arrivals, false⟩ := by
  cases stop with
  | first =>
    simp only [Bee.leave, Bee.goto, Bee.place, hpc]
    split <;> simp [Pc.offset, Pc.waiting]
  | second =>
    simp only [Bee.leave, Bee.place, hpc, Pc.offset, Pc.waiting, Nat.mul_add]

theorem arrive_place {b : Bee} {stop : Stop} (gen : ℕ) (hpc : b.pc = .arrive stop) :
    (b.goto (.await stop gen)).place = ⟨b.place.arrivals + 1, true⟩ := by
  cases stop <;> simp only [Bee.place, Bee.goto, Pc.offset, Pc.waiting, hpc]

theorem sync_move (h : BarrierInv s) {i : Fin N} {h' : Hive N} {b' : Bee}
    (hm : Move dim i s.shared (s.locals i) h' b') :
    Synced Bee.place h'.barrier (Function.update s.locals i b') := by
  cases hm with
  | arrive stop serial hpc =>
    have hsync := h.sync.arrive (i := i) (by simp [Bee.place, Pc.waiting, hpc])
      (arrive_place s.shared.barrier.generation hpc)
    simpa [Hive.arrive] using hsync
  | leave stop gen hpc hlt =>
    have := h.awaits i stop gen hpc
    exact h.sync.leave (by omega) (leave_place hpc)
  | _ =>
    apply h.sync.stay
    simp [Bee.place, Bee.goto, Pc.waiting, Pc.offset, *]

theorem awaits_move (h : BarrierInv s) {i : Fin N} {h' : Hive N} {b' : Bee}
    (hm : Move dim i s.shared (s.locals i) h' b') {stop : Stop} {gen : ℕ}
    (hpc' : b'.pc = .await stop gen) : gen + 1 = b'.place.arrivals := by
  cases hm with
  | arrive stop' serial hpc =>
    have harr := h.sync.active i (by simp [Bee.place, Pc.waiting, hpc])
    rw [arrive_place _ hpc]
    cases hpc'
    exact congrArg (· + 1) harr.symm
  | leave stop' gen' hpc hlt =>
    rcases leave_pc i s.shared.serial (s.locals i) stop' with hp | hp | hp <;> simp [hp] at hpc'
  | _ => cases hpc'

theorem BarrierInv.step {a : Action N} (h : BarrierInv s) (ht : step dim s a = some t) :
    BarrierInv t := by
  obtain ⟨i, h', b', hm, rfl⟩ | ⟨-, main, flag, -, rfl⟩ := step_cases ht
  · refine ⟨sync_move h hm, fun j stop gen hpc => ?_⟩
    by_cases hji : j = i
    · subst hji
      simp only [Function.update_self] at hpc ⊢
      exact awaits_move h hm hpc
    · simp only [Function.update_of_ne hji] at hpc ⊢
      exact h.awaits j stop gen hpc
  · exact ⟨h.sync, h.awaits⟩

theorem BarrierInv.phase (h : BarrierInv s) (i : Fin N) :
    2 * (s.locals i).rounds + (s.locals i).pc.offset = s.shared.barrier.generation ∨
      (s.locals i).pc.waiting = true ∧
        2 * (s.locals i).rounds + (s.locals i).pc.offset = s.shared.barrier.generation + 1 :=
  h.sync.phase i

end Barrier

structure Agreement (s : State N) : Prop where
  rounds : ∀ i j, (s.locals i).pc = .left → (s.locals j).entered ≤ (s.locals i).rounds
  released : ∀ i j stop gen, (s.locals i).pc = .left → (s.locals j).pc = .await stop gen →
    gen < s.shared.barrier.generation

/-- `main` sets the flag first only while all bees have entered the same number of iterations. -/
def StoresTogether (s : State N) (a : Action N) : Prop :=
  a = .main → s.shared.main = .storeTerminate →
    s.shared.mustTerminate = true ∨ ∀ i j, (s.locals i).entered = (s.locals j).entered

instance (s : State N) (a : Action N) : Decidable (StoresTogether s a) :=
  match a with
  | .bee _ => .isTrue fun h => by cases h
  | .main => decidable_of_iff (s.shared.main = .storeTerminate → s.shared.mustTerminate = true ∨
      ∀ i j, (s.locals i).entered = (s.locals j).entered) ⟨fun h _ => h, fun h => h rfl⟩

structure FlagInv (s : State N) : Prop where
  barrier : BarrierInv s
  left : ∀ i, (s.locals i).pc = .left → s.shared.mustTerminate = true
  together : s.shared.mustTerminate = true →
    ∀ i j, (s.locals i).entered = (s.locals j).entered

section Flag

variable {s t : State N}

theorem entered_move {i : Fin N} {h' : Hive N} {b' : Bee}
    (hm : Move dim i s.shared (s.locals i) h' b') (hflag : s.shared.mustTerminate = true) :
    b'.entered = (s.locals i).entered := by
  cases hm with
  | enter hpc hfalse =>
    rw [hflag] at hfalse
    cases hfalse
  | leave stop gen hpc hlt =>
    cases stop with
    | first =>
      by_cases hs : s.shared.serial = some i <;>
        simp [Bee.leave, Bee.goto, Bee.entered, hpc, hs]
    | second => simp only [Bee.leave, Bee.entered, hpc]
  | _ => simp only [Bee.entered, Bee.goto, *]

theorem flag_mono {i : Fin N} {h' : Hive N} {b' : Bee}
    (hm : Move dim i s.shared (s.locals i) h' b') (hflag : s.shared.mustTerminate = true) :
    h'.mustTerminate = true := by
  cases hm with
  | storeTerminate hpc => rfl
  | _ => exact hflag

theorem together_of_storeTerminate (h : BarrierInv s) {i : Fin N}
    (hpc : (s.locals i).pc = .storeTerminate) (j k : Fin N) :
    (s.locals j).entered = (s.locals k).entered := by
  have hi := h.phase i
  simp only [hpc, Pc.offset, Pc.waiting, Bool.false_eq_true, false_and, or_false] at hi
  have hentered : ∀ l, (s.locals l).entered = (s.locals i).rounds + 1 := by
    intro l
    have hl := h.phase l
    cases hpcl : (s.locals l).pc with
    | arrive stop | await stop gen =>
      cases stop <;> simp only [hpcl, Pc.offset, Pc.waiting, Bool.false_eq_true, false_and,
        or_false, true_and] at hl <;> simp only [Bee.entered, hpcl] <;> omega
    | _ =>
      simp only [hpcl, Pc.offset, Pc.waiting, Bool.false_eq_true, false_and, or_false] at hl
      simp only [Bee.entered, hpcl]
      omega
  rw [hentered j, hentered k]

theorem flag_move {i : Fin N} {h' : Hive N} {b' : Bee}
    (hm : Move dim i s.shared (s.locals i) h' b') :
    h'.mustTerminate = s.shared.mustTerminate ∨ (s.locals i).pc = .storeTerminate := by
  cases hm with
  | storeTerminate hpc => exact .inr hpc
  | _ => exact .inl rfl

theorem FlagInv.init (hN : 1 ≤ N) : FlagInv (init dim N) := by
  refine ⟨.init hN, fun i h => ?_, fun _ i j => rfl⟩
  cases h

theorem left_move {i : Fin N} {h' : Hive N} {b' : Bee}
    (hm : Move dim i s.shared (s.locals i) h' b') (hpc' : b'.pc = .left) :
    s.shared.mustTerminate = true := by
  cases hm with
  | exit hpc hflag => exact hflag
  | leave stop gen hpc hlt =>
    rcases leave_pc i s.shared.serial (s.locals i) stop with hp | hp | hp <;> simp [hp] at hpc'
  | _ => cases hpc'

theorem FlagInv.step {a : Action N} (h : FlagInv s) (hok : StoresTogether s a)
    (ht : step dim s a = some t) : FlagInv t := by
  have hbarrier := h.barrier.step ht
  obtain ⟨i, h', b', hm, rfl⟩ | ⟨ha, main, flag, hflag, rfl⟩ := step_cases ht
  · refine ⟨hbarrier, fun j hj => ?_, fun htrue j k => ?_⟩
    · apply flag_mono hm
      by_cases hji : j = i
      · subst hji
        simp only [Function.update_self] at hj
        exact left_move hm hj
      · simp only [Function.update_of_ne hji] at hj
        exact h.left j hj
    · -- a flag set earlier stops all entries; the serial bee sets it between the barriers
      rcases flag_move hm with hsame | hpc
      · rw [hsame] at htrue
        have he := field_update Bee.entered (entered_move hm htrue)
        rw [he j, he k]
        exact h.together htrue j k
      · have he : b'.entered = (s.locals i).entered := by
          cases hm <;> simp_all [Bee.entered, Bee.goto]
        rw [field_update Bee.entered he j, field_update Bee.entered he k]
        exact together_of_storeTerminate h.barrier hpc j k
  · refine ⟨hbarrier, fun j hj => ?_, fun htrue j k => ?_⟩
    · have htrue := h.left j hj
      rcases hflag with rfl | ⟨-, rfl⟩
      · exact htrue
      · rfl
    · rcases hflag with rfl | ⟨hpc, -⟩
      · exact h.together htrue j k
      · rcases hok ha hpc with htrue | hsame
        · exact h.together htrue j k
        · exact hsame j k

theorem FlagInv.agreement (h : FlagInv s) : Agreement s := by
  have hrounds : ∀ i j, (s.locals i).pc = .left →
      (s.locals j).entered = (s.locals i).rounds := by
    intro i j hi
    rw [h.together (h.left i hi) j i]
    simp only [Bee.entered, hi]
  refine ⟨fun i j hi => (hrounds i j hi).le, fun i j stop gen hi hj => ?_⟩
  have hphase := h.barrier.phase i
  have hphasej := h.barrier.phase j
  have hawait := h.barrier.awaits j stop gen hj
  have heq := hrounds i j hi
  simp only [hi, Pc.offset, Pc.waiting, Bool.false_eq_true, false_and, or_false] at hphase
  cases stop <;> simp only [Bee.place, Bee.entered, hj, Pc.offset] at heq hphasej hawait <;> omega

def Behind (i j : Fin N) (s : State N) : Prop :=
  s.shared.mustTerminate = true ∧ (s.locals j).entered < (s.locals i).entered

theorem behind_step {a : Action N} {i j : Fin N} (h : Behind i j s) (ht : step dim s a = some t) :
    Behind i j t := by
  obtain ⟨hflag, hlt⟩ := h
  obtain ⟨k, h', b', hm, rfl⟩ | ⟨-, main, flag, hkept, rfl⟩ := step_cases ht
  · have hentered := field_update Bee.entered (entered_move hm hflag)
    refine ⟨flag_mono hm hflag, ?_⟩
    rw [hentered i, hentered j]
    exact hlt
  · refine ⟨?_, hlt⟩
    rcases hkept with rfl | ⟨-, rfl⟩
    · exact hflag
    · rfl

theorem Behind.left {i j : Fin N} (h : Behind i j s) (hpc : (s.locals j).pc = .left) :
    (s.locals j).rounds < (s.locals i).entered := by
  have hlt := h.2
  simpa only [Bee.entered, hpc] using hlt

theorem Behind.reachable {i j : Fin N} (h : Behind i j s) (ht : Reachable (step dim) s t) :
    Behind i j t :=
  ht.invariant (Behind i j) h fun _ _ _ hs hstep => behind_step hs hstep

theorem BarrierInv.behind (h : BarrierInv s) {i j : Fin N}
    (hlt : (s.locals j).entered < (s.locals i).entered) (hj : (s.locals j).pc ≠ .left) :
    (s.locals j).pc = .guard ∨
      ∃ gen, (s.locals j).pc = .await .second gen ∧ gen < s.shared.barrier.generation := by
  have hphasej := h.phase j
  have hi : (s.locals i).entered ≤ (s.locals i).rounds + 1 ∧
      ((s.locals i).pc.waiting = true → 1 ≤ (s.locals i).pc.offset) := by
    cases hpc : (s.locals i).pc with
    | await stop gen => cases stop <;> simp [Bee.entered, hpc, Pc.offset]
    | _ => simp [Bee.entered, hpc, Pc.waiting]
  -- `i` has arrived once more only if it waits
  have hphasei := (h.phase i).imp_right (And.imp_left hi.2)
  have hentered := hi.1
  generalize (s.locals i).entered = entered at hentered hlt
  cases hpc : (s.locals j).pc with
  | guard => exact .inl rfl
  | left => exact absurd hpc hj
  | await stop gen =>
    have hawait := h.awaits j stop gen hpc
    cases stop <;> simp only [Bee.entered, Bee.place, hpc, Pc.offset, Pc.waiting] at hlt hphasej hawait
    · omega
    · exact .inr ⟨gen, rfl, by omega⟩
  | arrive stop =>
    cases stop <;> simp only [Bee.entered, hpc, Pc.offset, Pc.waiting, Bool.false_eq_true,
      false_and, or_false] at hlt hphasej <;> omega
  | _ =>
    simp only [Bee.entered, hpc, Pc.offset, Pc.waiting, Bool.false_eq_true, false_and,
      or_false] at hlt hphasej
    omega

theorem leaves_of_guard {j : Fin N} (hflag : s.shared.mustTerminate = true)
    (hpc : (s.locals j).pc = .guard) :
    ∃ u, Reachable (step dim) s u ∧ (u.locals j).pc = .left := by
  have hstep : step dim s (.bee ⟨j, 0, 0, j⟩) =
      some ⟨s.shared, Function.update s.locals j ((s.locals j).goto .left)⟩ :=
    Config.move_eq_some.mpr ⟨_, _, by simp only [stepBee, hpc, hflag, if_true], rfl⟩
  refine ⟨_, Reachable.refl.tail hstep, ?_⟩
  simp only [Function.update_self]
  rfl

theorem Behind.leaves {i j : Fin N} (h : Behind i j s) (hbarrier : BarrierInv s) :
    ∃ u, Reachable (step dim) s u ∧ (u.locals j).pc = .left := by
  by_cases hleft : (s.locals j).pc = .left
  · exact ⟨s, .refl, hleft⟩
  · rcases hbarrier.behind h.2 hleft with hpc | ⟨gen, hpc, hgen⟩
    · exact leaves_of_guard h.1 hpc
    · have hstep : step dim s (.bee ⟨j, 0, 0, j⟩) =
          some ⟨s.shared, Function.update s.locals j ⟨.guard, (s.locals j).rounds + 1⟩⟩ :=
        Config.move_eq_some.mpr ⟨_, _, by simp only [stepBee, hpc, hgen, if_true]; rfl, rfl⟩
      let t : State N := ⟨s.shared, Function.update s.locals j ⟨.guard, (s.locals j).rounds + 1⟩⟩
      have hguard : (t.locals j).pc = .guard := by simp only [t, Function.update_self]
      have hleaves : ∃ u, Reachable (step dim) t u ∧ (u.locals j).pc = .left :=
        leaves_of_guard h.1 hguard
      obtain ⟨u, hu, hpcu⟩ := hleaves
      exact ⟨u, (Reachable.refl.tail hstep).trans hu, hpcu⟩

theorem behind_of_split {a : Action N} (hbad : ¬ StoresTogether s a)
    (ht : step dim s a = some t) : ∃ i j, Behind i j t := by
  simp only [StoresTogether, Classical.not_imp, not_or, not_forall] at hbad
  obtain ⟨rfl, hpc, hflag, i, j, hne⟩ := hbad
  simp only [step, stepMain, hpc, Option.map_some, Option.some.injEq] at ht
  subst ht
  rcases Nat.lt_or_gt_of_ne hne with hlt | hlt
  · exact ⟨j, i, rfl, hlt⟩
  · exact ⟨i, j, rfl, hlt⟩

end Flag

theorem agreement_of_storesTogether (hN : 1 ≤ N) {s : State N}
    (h : ReachableBy (step dim) StoresTogether (init dim N) s) :
    Agreement s ∧ ∀ a t, ¬ StoresTogether s a → step dim s a = some t →
      ∃ i j, (t.locals j).entered < (t.locals i).entered ∧
        (∀ u, Reachable (step dim) t u → (u.locals j).pc = .left → ¬ Agreement u) ∧
        ∃ u, Reachable (step dim) t u ∧ ¬ Agreement u := by
  have hinv : FlagInv s := h.invariant FlagInv (.init hN) fun _ _ _ hs hok ht => hs.step hok ht
  refine ⟨hinv.agreement, fun a t hbad ht => ?_⟩
  obtain ⟨i, j, hbehind⟩ := behind_of_split hbad ht
  have hbreaks : ∀ u, Reachable (step dim) t u → (u.locals j).pc = .left → ¬ Agreement u := by
    intro u hu hpc hagree
    have hlt := (hbehind.reachable hu).left hpc
    have hle := hagree.rounds j i hpc
    omega
  obtain ⟨u, hu, hpc⟩ := hbehind.leaves (hinv.barrier.step ht)
  exact ⟨i, j, hbehind.2, hbreaks, u, hu, hbreaks u hu hpc⟩

theorem agreement_twoBees : ∃ s : State 2, s.shared.main = .join 0 ∧ Agreement s ∧
    ∀ a t, ¬ StoresTogether s a → step (globalField 1 1) s a = some t →
      ∃ i j, (t.locals j).entered < (t.locals i).entered ∧
        (∀ u, Reachable (step (globalField 1 1)) t u → (u.locals j).pc = .left → ¬ Agreement u) ∧
        ∃ u, Reachable (step (globalField 1 1)) t u ∧ ¬ Agreement u := by
  obtain ⟨s, hs, hp⟩ := exists_reachableBy_of_run (step (globalField 1 1))
    (fun s a => decide (StoresTogether s a)) (init (globalField 1 1) 2)
    (turns 0 11 0 ++ turns 1 1 0 ++ mainSteps 2) (fun s => decide (s.shared.main = .join 0))
    (by decide +kernel)
  exact ⟨s, of_decide_eq_true hp, agreement_of_storesTogether (by decide)
    (hs.mono fun _ _ => of_decide_eq_true)⟩

/-- Bee 0 has harvested the only flower when `main` sets the flag and bee 1 leaves at once. -/
theorem waits_for_bee_that_left : ∃ s : State 2,
    Reachable (step (globalField 1 1)) (init (globalField 1 1) 2) s ∧
      (s.locals 1).pc = .left ∧ (s.locals 1).rounds < (s.locals 0).entered ∧
      ∀ a, step (globalField 1 1) s a = none := by
  obtain ⟨s, hs, hp⟩ := exists_reachable_of_run (step (globalField 1 1))
    (init (globalField 1 1) 2) (turns 0 11 0 ++ mainSteps 2 ++ turns 1 1 0 ++ turns 0 7 0)
    (fun s => decide ((s.locals 1).pc = .left ∧ (s.locals 1).rounds < (s.locals 0).entered ∧
      (s.locals 0).pc = .await .first 0 ∧ s.shared.barrier.generation = 0 ∧
      s.shared.main = .join 0)) (by decide +kernel)
  obtain ⟨h₁, hlt, h₀, hgen, hmain⟩ := of_decide_eq_true hp
  refine ⟨s, hs, h₁, hlt, fun a => ?_⟩
  cases a with
  | main => simp [step, stepMain, hmain, h₀]
  | bee turn =>
    obtain ⟨bee, attack, success, serial⟩ := turn
    simp only [step, Config.move, Option.map_eq_none_iff]
    have hbee : bee = 0 ∨ bee = 1 := by omega
    rcases hbee with rfl | rfl
    · simp [stepBee, h₀, hgen]
    · simp [stepBee, h₁]

end PsOs.Beehive
