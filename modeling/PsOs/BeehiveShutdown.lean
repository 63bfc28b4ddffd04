import PsOs.BeehiveQueueAccess
import PsOs.BeehiveSummary

namespace PsOs.Beehive

open Grid Threads TransitionSystems

variable {N : ℕ} {dim : FieldGeometry} {s t : State N}

def Blocked (dim : FieldGeometry) (s : State N) : Prop := ∀ a, step dim s a = none

def MainPc.closed : MainPc → Bool
  | .readCount | .readDestroyed | .storeTerminate => false
  | .join _ | .report | .printCount _ | .finished _ _ => true

def Pc.remaining : Pc → ℕ
  | .left => 0
  | .guard => 1
  | .await .second _ => 2
  | .arrive .second => 3
  | .storeDestroyed => 4
  | .storeTerminate => 5
  | .bear => 6
  | .await .first _ => 7
  | .arrive .first => 8
  | .unlockField | .unlockIdle => 9
  | .examine _ k => 10 + 3 * (4 - k)
  | .push _ k => 9 + 3 * (4 - k)
  | .inPush _ k => 8 + 3 * (4 - k)
  | .collect _ => 23
  | .clearNectar _ => 24
  | .readNectar _ => 25
  | .lockField _ => 26
  | .unlockPop _ => 27
  | .inPop => 28
  | .pop => 29
  | .inIsEmpty => 30
  | .isEmpty => 31
  | .lockQueue => 32

def MainPc.remaining (N : ℕ) : MainPc → ℕ
  | .join i => N - i + 3
  | .report => 2
  | .printCount _ => 1
  | _ => 0

def remaining (s : State N) : ℕ := s.shared.main.remaining N + ∑ i, (s.locals i).pc.remaining

structure Sound (dim : FieldGeometry) (s : State N) : Prop where
  flag : FlagInv s
  account : AccountInv dim s
  main : MainOk dim s
  queue : Guards s.shared.queueMutex Bee.AtQueue s.locals
  held : Held s.shared.queueMutex Bee.AtQueue s.locals
  popping : ∀ i, (s.locals i).pc = .pop ∨ (s.locals i).pc = .inPop → s.shared.queue ≠ []
  closed : s.shared.main.closed = true → s.shared.mustTerminate = true

section Moves

variable {i : Fin N} {h' : Hive N} {b' : Bee}

theorem queueHeld_move (h : Held s.shared.queueMutex Bee.AtQueue s.locals)
    (hm : Move dim i s.shared (s.locals i) h' b') :
    Held h'.queueMutex Bee.AtQueue (Function.update s.locals i b') := by
  cases hm with
  | lockQueue hpc hfree => exact Held.acquire trivial
  | unlockIdle hpc | unlockPop pos hpc => exact Held.none
  | isEmpty hpc | empty hpc hq | nonempty hpc hq | pop hpc | popped value queue hpc hq =>
    exact h.stay fun _ => trivial
  | _ => exact h.stay fun hat => by simp [Bee.AtQueue, *] at hat

theorem popping_move (h : Sound dim s) (hm : Move dim i s.shared (s.locals i) h' b') {j : Fin N}
    (hj : (Function.update s.locals i b' j).pc = .pop ∨ (Function.update s.locals i b' j).pc = .inPop) :
    h'.queue ≠ [] := by
  by_cases hji : j = i
  · subst hji
    rw [Function.update_self] at hj
    cases hm with
    | nonempty hpc hq => exact hq
    | pop hpc => exact h.popping j (.inl hpc)
    | leave stop gen hpc hgen =>
      obtain hp | hp | hp := leave_pc j s.shared.serial (s.locals j) stop <;> simp [hp] at hj
    | _ => simp [Bee.goto] at hj
  · rw [Function.update_of_ne hji] at hj
    have hne := h.popping j hj
    cases hm with
    | popped value queue hpc hq =>
      have hat : (s.locals j).AtQueue := by
        obtain hj | hj := hj <;> simp [Bee.AtQueue, hj]
      exact absurd (h.queue.exclusive hat (by simp [Bee.AtQueue, hpc])) hji
    | pushed pos k hpc => simp
    | _ => exact hne

theorem remaining_move (hm : Move dim i s.shared (s.locals i) h' b')
    (hflag : s.shared.mustTerminate = true) : b'.pc.remaining < (s.locals i).pc.remaining := by
  cases hm with
  | enter hpc hfalse =>
    rw [hflag] at hfalse
    cases hfalse
  | leave stop gen hpc hgen =>
    cases stop with
    | first =>
      rw [hpc]
      simp only [Bee.leave, Bee.goto]
      split <;> simp [Pc.remaining]
    | second => simp [hpc, Bee.leave, Pc.remaining]
  | skip pos k hpc hk | report pos k hpc hk hn | push pos k hpc | pushed pos k hpc =>
    have hlt := k.isLt
    simp only [hpc, Bee.goto, Pc.remaining]
    omega
  | examined pos k hpc hk =>
    simp only [hpc, Bee.goto, Pc.remaining]
    omega
  | arrive stop serial hpc => cases stop <;> simp [hpc, Bee.goto, Pc.remaining]
  | _ => simp [Bee.goto, Pc.remaining, *]

theorem remaining_main (hclosed : s.shared.main.closed = true) (hm : stepMain dim s = some h') :
    h'.main.remaining N < s.shared.main.remaining N ∧ h'.main.closed = true := by
  unfold stepMain at hm
  cases hpc : s.shared.main <;> simp only [hpc] at hm
  case join k =>
    split at hm
    · split at hm <;> cases hm
      exact ⟨by simp only [MainPc.remaining]; omega, rfl⟩
    · cases hm
      exact ⟨by simp [MainPc.remaining], rfl⟩
  case report | printCount =>
    cases hm
    exact ⟨by simp [MainPc.remaining], rfl⟩
  case finished => cases hm
  all_goals
    rw [hpc] at hclosed
    cases hclosed

theorem closed_main (hm : stepMain dim s = some h') (hclosed : h'.main.closed = true)
    (hold : s.shared.main.closed = true → s.shared.mustTerminate = true) :
    h'.mustTerminate = true := by
  unfold stepMain at hm
  cases hpc : s.shared.main <;> simp only [hpc] at hm hold
  case storeTerminate =>
    cases hm
    rfl
  case join k =>
    split at hm
    · split at hm <;> cases hm
      exact hold rfl
    · cases hm
      exact hold rfl
  case report | printCount =>
    cases hm
    exact hold rfl
  case finished => cases hm
  all_goals
    cases hm
    split at hclosed <;> cases hclosed

end Moves

namespace Sound

theorem init (hN : 1 ≤ N) (hv : dim.Valid) : Sound dim (init dim N) := by
  refine ⟨.init hN, .init hv, trivial, fun i hat => hat.elim, Held.none, fun i hi => ?_, fun h => ?_⟩
  · obtain hi | hi := hi <;> cases hi
  · cases h

theorem step (hv : dim.Valid) {a : Action N} (h : Sound dim s) (hok : StoresTogether s a)
    (ht : step dim s a = some t) : Sound dim t := by
  have hflag := h.flag.step hok ht
  have haccount := h.account.step hv ht
  have hmain := h.main.step ht
  cases a with
  | bee turn =>
    obtain ⟨h', b', hstep, rfl⟩ := Config.move_eq_some.mp ht
    have hm := stepBee_move hstep
    refine ⟨hflag, haccount, hmain, queueGuards_move h.queue hm, queueHeld_move h.held hm,
      fun j => popping_move h hm, fun hclosed => ?_⟩
    cases hm with
    | storeTerminate hpc => rfl
    | _ => exact h.closed hclosed
  | main =>
    obtain ⟨h', hm, rfl⟩ := Option.map_eq_some_iff.mp ht
    have hclosed := fun hc => closed_main hm hc h.closed
    have hsame := stepMain_eq hm
    refine ⟨hflag, haccount, hmain, ?_, ?_, fun j hj => ?_, hclosed⟩
    · rw [hsame]
      exact h.queue
    · rw [hsame]
      exact h.held
    · rw [hsame]
      exact h.popping j hj

theorem queue_free (h : Sound dim s) (hblocked : Blocked dim s) : s.shared.queueMutex = none := by
  cases hmutex : s.shared.queueMutex with
  | none => rfl
  | some i =>
    have hat := h.held i hmutex
    have hnone := hblocked (.bee ⟨i, 0, 0, i⟩)
    have hpopping := h.popping i
    simp only [Beehive.step, Config.move, Option.map_eq_none_iff] at hnone
    cases hpc : (s.locals i).pc <;> simp only [Bee.AtQueue, hpc] at hat
    case inPop =>
      cases hq : s.shared.queue with
      | nil => exact absurd hq (hpopping (.inr hpc))
      | cons value queue => simp [stepBee, hpc, hq] at hnone
    all_goals simp [stepBee, hpc] at hnone

theorem field_free (h : Sound dim s) (hblocked : Blocked dim s) : s.shared.fieldMutex = none := by
  cases hmutex : s.shared.fieldMutex with
  | none => rfl
  | some i =>
    have hat := h.account.held i hmutex
    have hnone := hblocked (.bee ⟨i, 0, 0, i⟩)
    simp only [Beehive.step, Config.move, Option.map_eq_none_iff] at hnone
    cases hpc : (s.locals i).pc <;> simp only [Bee.AtField, hpc] at hat
    all_goals simp [stepBee, hpc] at hnone

theorem waits (h : Sound dim s) (hblocked : Blocked dim s) (i : Fin N) :
    (s.locals i).pc = .left ∨
      ∃ stop gen, (s.locals i).pc = .await stop gen ∧ s.shared.barrier.generation ≤ gen := by
  have hqueue := h.queue_free hblocked
  have hfield := h.field_free hblocked
  have hnone := hblocked (.bee ⟨i, 0, 0, i⟩)
  have hpopping := h.popping i
  simp only [Beehive.step, Config.move, Option.map_eq_none_iff] at hnone
  cases hpc : (s.locals i).pc
  case left => exact .inl rfl
  case await stop gen =>
    refine .inr ⟨stop, gen, rfl, ?_⟩
    by_contra hlt
    simp [stepBee, hpc, Nat.lt_of_not_le hlt] at hnone
  case inPop =>
    cases hq : s.shared.queue with
    | nil => exact absurd hq (hpopping (.inr hpc))
    | cons value queue => simp [stepBee, hpc, hq] at hnone
  case lockQueue => simp [stepBee, hpc, hqueue, acquire] at hnone
  case lockField => simp [stepBee, hpc, hfield, acquire] at hnone
  all_goals simp [stepBee, hpc] at hnone

theorem allLeft_of_blocked (h : Sound dim s) (hblocked : Blocked dim s) : AllLeft s := by
  have hnobody : ∀ i, (s.locals i).pc = .left → AllLeft s := by
    intro i hi j
    obtain hj | ⟨stop, gen, hj, hgen⟩ := h.waits hblocked j
    · exact hj
    · have hreleased := h.flag.agreement.released i j stop gen hi hj
      omega
  obtain ⟨i, harrivals⟩ := h.flag.barrier.sync.exists_unblocked
  obtain hi | ⟨stop, gen, hi, hgen⟩ := h.waits hblocked i
  · exact hnobody i hi
  · have hawaits := h.flag.barrier.awaits i stop gen hi
    omega

theorem finished_of_blocked (h : Sound dim s) (hblocked : Blocked dim s) :
    ∃ destroyed count, s.shared.main = .finished destroyed count := by
  have hleft := h.allLeft_of_blocked hblocked
  have hnone := hblocked .main
  simp only [Beehive.step, Option.map_eq_none_iff] at hnone
  cases hpc : s.shared.main <;> simp only [stepMain, hpc] at hnone
  case finished destroyed count => exact ⟨destroyed, count, rfl⟩
  case join k =>
    split at hnone
    · simp [hleft _] at hnone
    · cases hnone
  all_goals cases hnone

theorem storesTogether (h : Sound dim s) (hclosed : s.shared.main.closed = true) (a : Action N) :
    StoresTogether s a := fun _ _ => .inl (h.closed hclosed)

theorem closed_step {a : Action N} (hclosed : s.shared.main.closed = true)
    (ht : Beehive.step dim s a = some t) : t.shared.main.closed = true := by
  cases a with
  | bee turn =>
    obtain ⟨h', b', hstep, rfl⟩ := Config.move_eq_some.mp ht
    have hsame : h'.main = s.shared.main := by cases stepBee_move hstep <;> rfl
    rwa [hsame]
  | main =>
    obtain ⟨h', hm, rfl⟩ := Option.map_eq_some_iff.mp ht
    exact (remaining_main hclosed hm).2

theorem remaining_lt {a : Action N} (h : Sound dim s) (hclosed : s.shared.main.closed = true)
    (ht : Beehive.step dim s a = some t) : remaining t < remaining s := by
  cases a with
  | bee turn =>
    obtain ⟨h', b', hstep, rfl⟩ := Config.move_eq_some.mp ht
    have hm := stepBee_move hstep
    have hsame : h'.main = s.shared.main := by cases hm <;> rfl
    have hlt := remaining_move hm (h.closed hclosed)
    have hsum := sum_update (fun b : Bee => b.pc.remaining) s.locals turn.bee b'
    simp only [remaining, hsame]
    omega
  | main =>
    obtain ⟨h', hm, rfl⟩ := Option.map_eq_some_iff.mp ht
    have hlt := (remaining_main hclosed hm).1
    simp only [remaining]
    omega

end Sound

theorem remaining_le (s : State N) : remaining s ≤ 33 * N + 3 := by
  have hmain : s.shared.main.remaining N ≤ N + 3 := by
    cases s.shared.main <;> simp only [MainPc.remaining] <;> omega
  have hbee : ∀ i, (s.locals i).pc.remaining ≤ 0 + 32 := by
    intro i
    cases (s.locals i).pc with
    | arrive stop | await stop gen => cases stop <;> simp [Pc.remaining]
    | examine | push | inPush =>
      simp only [Pc.remaining]
      omega
    | _ => simp [Pc.remaining]
  have hsum := sum_le_sum_add (fun k : ℕ => k) hbee
  simp only [Finset.sum_const_zero, Fintype.card_fin] at hsum
  unfold remaining
  omega

/-- While `main` sets the flag only between the iterations, nobody waits for ever, and once it has
set the flag everybody leaves. -/
theorem finishes_of_storesTogether {width height : ℕ} (hN : 1 ≤ N) (hw : 1 ≤ width)
    (hh : 1 ≤ height) (hsize : width * height < 2 ^ 31) {s : State N}
    (h : ReachableBy (step (globalField width height)) StoresTogether
      (init (globalField width height) N) s) :
    (Blocked (globalField width height) s →
      (∃ destroyed count, s.shared.main = .finished destroyed count) ∧ AllLeft s) ∧
    (s.shared.main.closed = true → ∀ as t, run (step (globalField width height)) s as = some t →
      as.length ≤ 33 * N + 3 ∧ (Blocked (globalField width height) t →
        (∃ destroyed count, t.shared.main = .finished destroyed count) ∧ AllLeft t)) := by
  have hv := globalField_valid hw hh hsize
  have hsound : Sound (globalField width height) s :=
    h.invariant (Sound _) (.init hN hv) fun _ _ _ hu hok hstep => hu.step hv hok hstep
  let Inv : State N → Prop := fun u =>
    Sound (globalField width height) u ∧ u.shared.main.closed = true
  have hkeep : ∀ u a v, Inv u → step (globalField width height) u a = some v → Inv v := by
    rintro u a v ⟨hu, hclosed⟩ huv
    exact ⟨hu.step hv (hu.storesTogether hclosed a) huv, Sound.closed_step hclosed huv⟩
  refine ⟨fun hb => ⟨hsound.finished_of_blocked hb, hsound.allLeft_of_blocked hb⟩,
    fun hclosed as t hrun => ?_⟩
  have hlength := length_le_of_run hkeep (fun u a v hu huv => hu.1.remaining_lt hu.2 huv)
    ⟨hsound, hclosed⟩ hrun
  obtain ⟨ht, -⟩ := (reachable_of_run hrun).invariant Inv ⟨hsound, hclosed⟩ hkeep
  exact ⟨hlength.trans (remaining_le s),
    fun hb => ⟨ht.finished_of_blocked hb, ht.allLeft_of_blocked hb⟩⟩

theorem finishes_oneBee : ∃ s : State 1, s.shared.main = .join 0 ∧
    ∀ as t, run (step (globalField 1 1)) s as = some t → as.length ≤ 36 ∧
      (Blocked (globalField 1 1) t →
        (∃ destroyed count, t.shared.main = .finished destroyed count) ∧ AllLeft t) := by
  obtain ⟨s, hs, hp⟩ := exists_reachableBy_of_run (step (globalField 1 1))
    (fun s a => decide (StoresTogether s a)) (init (globalField 1 1) 1)
    (turns 0 11 0 ++ mainSteps 2) (fun s => decide (s.shared.main = .join 0)) (by decide +kernel)
  have hmain : s.shared.main = .join 0 := of_decide_eq_true hp
  have hfinishes := finishes_of_storesTogether (by decide) (by decide) (by decide) (by decide)
    (hs.mono fun _ _ => of_decide_eq_true)
  exact ⟨s, hmain, hfinishes.2 (by rw [hmain]; rfl)⟩

end PsOs.Beehive
