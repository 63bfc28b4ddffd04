import PsOs.ProducerWakeups

namespace PsOs.ProducerConsumer

open Threads TransitionSystems

variable {c n : ℕ} {s t : State c}

def Action.isSpurious : Action c → Bool
  | .spurious _ => true
  | _ => false

def ConsumerPc.remaining : ConsumerPc → ℕ
  | .unborn | .poll => 4
  | .lock | .relock => 3
  | .check => 2
  | .wait | .pop | .print => 1
  | .unlock _ => 5
  | .test _ => 4
  | .sleep | .exited | .aborted => 0

def elementCost (c : ℕ) : ℕ := 10 + 3 * c

def joinCost (c i : ℕ) : ℕ := c - i + 1

def pillsCost (c i : ℕ) : ℕ := (c - i) * elementCost c + 3 * c + 2 + joinCost c 0

def valuesCost (n c i : ℕ) : ℕ := (n - i) * elementCost c + 1 + pillsCost c 0

def Element.restCost (n c : ℕ) : Element → ℕ
  | .value i => valuesCost n c (i + 1)
  | .pill i => pillsCost c (i + 1)

def MainPc.remaining (n c : ℕ) : MainPc → ℕ
  | .create i => c - i + 1 + valuesCost n c 0
  | .values i => valuesCost n c i
  | .pills i => pillsCost c i
  | .lock element => 9 + 3 * c + element.restCost n c
  | .push element => 8 + 3 * c + element.restCost n c
  | .signal element => 2 + 3 * c + element.restCost n c
  | .unlock element => 1 + element.restCost n c
  | .broadcast => 3 * c + 1 + joinCost c 0
  | .join i _ => joinCost c i
  | .finished _ | .failed | .overrun => 0

def remaining (n : ℕ) (s : State c) : ℕ :=
  s.shared.main.remaining n c + 5 * s.shared.queue.length + ∑ i, (s.locals i).pc.remaining

section Moves

theorem valuesCost_succ {i : ℕ} (h : i < n) :
    valuesCost n c i = valuesCost n c (i + 1) + elementCost c := by
  have hsub : n - i = n - (i + 1) + 1 := by omega
  rw [valuesCost, valuesCost, hsub, Nat.succ_mul]
  omega

theorem pillsCost_succ {i : ℕ} (h : i < c) : pillsCost c i = pillsCost c (i + 1) + elementCost c := by
  have hsub : c - i = c - (i + 1) + 1 := by omega
  rw [pillsCost, pillsCost, hsub, Nat.succ_mul]
  omega

theorem sum_wake_le (woken : Finset (Fin c)) (locals : Fin c → Consumer) :
    ∑ i, (wake woken locals i).pc.remaining ≤ ∑ i, (locals i).pc.remaining + 3 * c := by
  have hone : ∀ i, (wake woken locals i).pc.remaining ≤ (locals i).pc.remaining + 3 := by
    intro i
    unfold wake
    split
    · exact Nat.le_add_left _ _
    · exact Nat.le_add_right _ _
  simpa using sum_le_sum_add (fun consumer : Consumer => consumer.pc.remaining) hone

theorem sum_remaining {locals : Fin c → Consumer} {i : Fin c} {consumer' : Consumer}
    {pc : ConsumerPc} (hpc : (locals i).pc = pc) :
    ∑ j, (Function.update locals i consumer' j).pc.remaining + pc.remaining =
      ∑ j, (locals j).pc.remaining + consumer'.pc.remaining := by
  rw [← hpc]
  exact sum_update (fun consumer : Consumer => consumer.pc.remaining) locals i consumer'

theorem Element.restCost_next (element : Element) :
    element.next.remaining n c = element.restCost n c := by
  cases element <;> rfl

theorem MainMove.remaining_lt (hm : MainMove .task3 n s t)
    (hunborn : ∀ k, s.shared.main = .create k → ∀ i : Fin c, k ≤ i → (s.locals i).pc = .unborn) :
    remaining n t < remaining n s := by
  cases hm with
  | create i hpc hn =>
    have hsum : ∑ j, (Function.update s.locals i ((s.locals i).goto Task.task3.entry) j).pc.remaining +
        4 = ∑ j, (s.locals j).pc.remaining + 3 := sum_remaining (hunborn i hpc i (Nat.le_refl _))
    have hi := i.isLt
    simp only [remaining, Server.goto, hpc, MainPc.remaining]
    omega
  | createOverrun i hpc hi hn | failed i hpc hi =>
    simp only [remaining, Server.goto, hpc, MainPc.remaining]
    omega
  | created i hpc hi =>
    simp only [remaining, Server.goto, hpc, MainPc.remaining]
    omega
  | value i hpc hi =>
    have hcost := valuesCost_succ (c := c) hi
    simp only [remaining, Server.goto, hpc, MainPc.remaining, Element.restCost, elementCost] at hcost ⊢
    omega
  | valuesDone i hpc hi =>
    simp only [remaining, Server.goto, hpc, MainPc.remaining, valuesCost]
    omega
  | pill i hpc hi =>
    have hcost := pillsCost_succ hi
    simp only [remaining, Server.goto, hpc, MainPc.remaining, Element.restCost, elementCost] at hcost ⊢
    omega
  | pillsDone i hpc hi =>
    simp only [remaining, Server.goto, Task.closing, hpc, MainPc.remaining, pillsCost]
    omega
  | lock element hpc hfree =>
    simp only [remaining, hpc, MainPc.remaining]
    omega
  | push element hpc =>
    simp only [remaining, Server.goto, Server.myqueue_push, Task.pushed, hpc, MainPc.remaining,
      List.length_append, List.length_singleton]
    omega
  | signal element woken hpc hwoken =>
    have hwake := sum_wake_le woken s.locals
    simp only [remaining, Server.goto, hpc, MainPc.remaining]
    omega
  | unlock element hpc =>
    have hcur : (MainPc.unlock element).remaining n c = 1 + element.restCost n c := rfl
    simp only [remaining, hpc, element.restCost_next, hcur]
    omega
  | broadcast hpc =>
    have hwake := sum_wake_le Finset.univ s.locals
    simp only [remaining, Server.goto, hpc, MainPc.remaining]
    omega
  | joinOverrun i sum hpc hi hn =>
    simp only [remaining, Server.goto, hpc, MainPc.remaining, joinCost]
    omega
  | join i sum hpc hexited =>
    have hi := i.isLt
    simp only [remaining, Server.goto, hpc, MainPc.remaining, joinCost]
    omega
  | joined i sum hpc hi =>
    simp only [remaining, Server.goto, hpc, MainPc.remaining, joinCost]
    omega

theorem ConsumerMove.remaining_lt {i : Fin c} {srv srv' : Server c} {consumer consumer' : Consumer}
    (hm : ConsumerMove .task3 i srv consumer srv' consumer') (hpoll : consumer.pc ≠ .poll) :
    consumer'.pc.remaining + 5 * srv'.queue.length < consumer.pc.remaining + 5 * srv.queue.length := by
  cases hm with
  | poll pc hpc hnext => exact absurd hpc hpoll
  | lock hpc hfree =>
    rcases hpc with hpc | hpc <;> simp [hpc, Consumer.goto, ConsumerPc.remaining]
  | pass hpc hq htask => cases htask
  | pop value queue hpc hq =>
    simp only [hpc, hq, Consumer.goto, ConsumerPc.remaining, List.length_cons]
    omega
  | starve hpc | find hpc | wait hpc | abort hpc | unlock temp hpc | pill hpc | add temp hpc
  | print hpc => simp [hpc, Consumer.goto, ConsumerPc.remaining]

theorem ConsumerMove.remaining_update_lt {i : Fin c} {srv' : Server c} {consumer' : Consumer}
    (hm : ConsumerMove .task3 i s.shared (s.locals i) srv' consumer')
    (hpoll : (s.locals i).pc ≠ .poll) :
    remaining n ⟨srv', Function.update s.locals i consumer'⟩ < remaining n s := by
  have hlt := hm.remaining_lt hpoll
  have hsum := @sum_remaining _ _ _ consumer' _ (rfl : (s.locals i).pc = _)
  simp only [remaining, hm.frame.1]
  omega

theorem step_moves {a : Action c} (ha : a.isSpurious = false) (ht : step .task3 n s a = some t) :
    MainMove .task3 n s t ∨ ∃ i srv' consumer',
      ConsumerMove .task3 i s.shared (s.locals i) srv' consumer' ∧
        t = ⟨srv', Function.update s.locals i consumer'⟩ := by
  cases a with
  | main => exact .inl (stepMain_move ht)
  | createFails =>
    simp only [step] at ht
    split at ht
    · split at ht <;> cases ht
      exact .inl (.failed _ ‹_› ‹_›)
    · cases ht
  | signal woken =>
    simp only [step, stepSignal] at ht
    split at ht
    · split at ht <;> cases ht
      exact .inl (.signal _ woken ‹_› ‹_›)
    · cases ht
  | consumer i empty =>
    simp only [step] at ht
    split at ht
    · cases ht
    · obtain ⟨srv', consumer', hm, rfl⟩ := Config.move_eq_some.mp ht
      exact .inr ⟨i, srv', consumer', stepConsumer_move hm, rfl⟩
  | spurious => cases ha

theorem wake_poll {woken : Finset (Fin c)} {locals : Fin c → Consumer} {i : Fin c}
    (h : (wake woken locals i).pc = .poll) : (locals i).pc = .poll := by
  unfold wake at h
  split at h
  · cases h
  · exact h

theorem MainMove.poll {i : Fin c} (hm : MainMove .task3 n s t) (hi : (t.locals i).pc = .poll) :
    (s.locals i).pc = .poll := by
  cases hm with
  | create j hpc =>
    obtain ⟨rfl, hpc'⟩ | ⟨-, hpc'⟩ := pc_update hi
    · cases hpc'
    · exact hpc'
  | signal element woken hpc hwoken | broadcast hpc => exact wake_poll hi
  | _ => exact hi

end Moves

structure Sound (n : ℕ) (s : State c) : Prop where
  fits : c ≤ n
  inside : s.shared.main ≠ .overrun
  inv : Inv n s
  wakeups : Wakeups s
  awaited : ∀ i, (s.locals i).pc ≠ .poll

namespace Sound

theorem init (hcn : c ≤ n) : Sound n (init c) :=
  ⟨hcn, nofun, Inv.init, Wakeups.init, fun _ => nofun⟩

theorem step {a : Action c} (h : Sound n s) (ht : step .task3 n s a = some t) : Sound n t := by
  refine ⟨h.fits, inside_step h.fits h.inside ht, h.inv.step ht, h.wakeups.step h.fits h.inv ht,
    fun i hi => ?_⟩
  have hold := h.awaited i
  cases step_move ht with
  | main hm => exact hold (hm.poll hi)
  | consumer j hm =>
    obtain ⟨rfl, hpc⟩ | ⟨-, hpc⟩ := pc_update hi
    · cases hm with
      | poll pc hpoll => exact hold hpoll
      | _ => cases hpc
    · exact hold hpc
  | spurious j hpc =>
    obtain ⟨rfl, hpc'⟩ | ⟨-, hpc'⟩ := pc_update hi
    · cases hpc'
    · exact hold hpc'

theorem remaining_lt {a : Action c} (h : Sound n s) (ha : a.isSpurious = false)
    (ht : ProducerConsumer.step .task3 n s a = some t) : remaining n t < remaining n s := by
  obtain hm | ⟨i, srv', consumer', hm, rfl⟩ := step_moves ha ht
  · exact hm.remaining_lt h.inv.unborn
  · exact hm.remaining_update_lt (h.awaited i)

theorem remaining_le {a : Action c} (ha : a.isSpurious = true)
    (ht : ProducerConsumer.step .task3 n s a = some t) : remaining n t ≤ remaining n s + 3 := by
  cases a with
  | spurious i =>
    simp only [ProducerConsumer.step] at ht
    split at ht
    case isTrue hpc =>
      cases ht
      have hsum : ∑ j, (Function.update s.locals i ((s.locals i).goto .relock) j).pc.remaining + 0 =
          ∑ j, (s.locals j).pc.remaining + 3 := sum_remaining hpc
      simp only [remaining]
      omega
    case isFalse => cases ht
  | _ => cases ha

theorem exited_of_stuck (h : Sound n s) (hmain : s.shared.main ≠ .failed)
    (hstuck : ∀ a : Action c, a.isSpurious = false → ProducerConsumer.step .task3 n s a = none) (i : Fin c) :
    (s.locals i).pc = .exited := by
  have hruns : ∀ owner, ¬ Runs n s owner := by
    intro owner hrun
    cases owner with
    | main =>
      obtain ⟨a, t, ha, ht⟩ := hrun
      have hfalse : a.isSpurious = false := by
        obtain rfl | ⟨woken, rfl⟩ := ha <;> rfl
      rw [hstuck a hfalse] at ht
      cases ht
    | consumer i =>
      obtain ⟨empty, t, ht⟩ := hrun
      rw [hstuck _ rfl] at ht
      cases ht
  have hrunnable : ∀ owner, ¬ Runnable n s owner := by
    rintro owner (hrun | ⟨-, holder, -, hrun⟩)
    · exact hruns owner hrun
    · exact hruns holder hrun
  by_contra hi
  obtain ⟨j, hj⟩ | ⟨hj, -⟩ := h.wakeups.progress h.inv ⟨hmain, h.inside⟩ ⟨i, hi⟩
  · exact hrunnable _ hj
  · exact hrunnable _ hj

theorem finished_of_stuck (h : Sound n s) (hmain : s.shared.main ≠ .failed)
    (hstuck : ∀ a : Action c, a.isSpurious = false → ProducerConsumer.step .task3 n s a = none) :
    ∃ sum, s.shared.main = .finished sum := by
  have hexited := h.exited_of_stuck hmain hstuck
  have hnone := hstuck .main rfl
  have hnosignal := hstuck (.signal Finset.univ) rfl
  simp only [ProducerConsumer.step] at hnone hnosignal
  have hfree : s.shared.main.inSection = false → s.shared.mutex = none := by
    intro hout
    cases hmutex : s.shared.mutex with
    | none => rfl
    | some owner =>
      have hin := h.wakeups.held owner hmutex
      cases owner with
      | main => exact absurd (hout.symm.trans hin) Bool.false_ne_true
      | consumer i => simp [sections, hexited i, ConsumerPc.inSection] at hin
  cases hpc : s.shared.main
  case finished sum => exact ⟨sum, rfl⟩
  case failed => exact absurd hpc hmain
  case overrun => exact absurd hpc h.inside
  case signal element => simp [stepSignal, hpc] at hnosignal
  case lock element => simp [stepMain, hpc, hfree (by rw [hpc]; rfl), acquire] at hnone
  case create k =>
    simp only [stepMain, hpc] at hnone
    split at hnone
    · split at hnone <;> cases hnone
    · cases hnone
  case values k | pills k | push element | unlock element | broadcast =>
    simp only [stepMain, hpc] at hnone
    cases hnone
  case join k sum =>
    simp only [stepMain, hpc, hexited, if_true] at hnone
    split at hnone
    · split at hnone <;> cases hnone
    · cases hnone

end Sound

/-- `task3` ends under every schedule with finitely many spurious wakeups. -/
theorem completes_of_run (hc : 0 < c) (hcn : c ≤ n) {as : List (Action c)}
    (hrun : run (step .task3 n) (init c) as = some t) :
    as.countP (!Action.isSpurious ·) ≤
        (n + c) * (10 + 3 * c) + 9 * c + 5 + 3 * as.countP Action.isSpurious ∧
      ((∀ a : Action c, a.isSpurious = false → step .task3 n t a = none) →
        t.shared.main = .failed ∨ t.shared.main = .finished (n % 2)) := by
  have hsound : Sound n t := (reachable_of_run hrun).invariant (Sound n) (Sound.init hcn)
    fun _ _ _ hs ht => hs.step ht
  constructor
  · have hcount := countP_le_of_run (p := fun a : Action c => !a.isSpurious)
      (fun _ _ _ hs ht => Sound.step hs ht)
      (fun _ _ _ hs ha ht => hs.remaining_lt (by simpa using ha) ht)
      (fun _ _ _ _ ha ht => Sound.remaining_le (by simpa using ha) ht) (Sound.init hcn) hrun
    simp only [Bool.not_not] at hcount
    change _ ≤ _ + 3 * as.countP fun a => a.isSpurious
    have hinit : remaining n (init c) = (n + c) * (10 + 3 * c) + 9 * c + 5 := by
      simp [remaining, init, MainPc.remaining, ConsumerPc.remaining, valuesCost, pillsCost, joinCost,
        elementCost]
      ring
    omega
  · intro hstuck
    by_cases hmain : t.shared.main = .failed
    · exact .inl hmain
    · obtain ⟨sum, hsum⟩ := hsound.finished_of_stuck hmain hstuck
      rw [hsum, (hsound.inv.printed hc hsum).2]
      exact .inr rfl

theorem completes_wakeOnce : ∃ t : State 1, run (step .task3 1) (init 1) wakeOnce = some t ∧
    wakeOnce.countP (!Action.isSpurious ·) ≤ 40 ∧
      (t.shared.main = .failed ∨ t.shared.main = .finished 1) := by
  have hrun : (run (step .task3 1) (init 1) wakeOnce).any
      (fun t => decide (t.shared.main = .finished 1 ∧ ∀ i, (t.locals i).pc = .exited)) = true := by
    decide +kernel
  obtain ⟨t, ht, hp⟩ := (Option.any_eq_true _ _).mp hrun
  obtain ⟨hmain, hexited⟩ := of_decide_eq_true hp
  have hcompletes := completes_of_run Nat.one_pos (Nat.le_refl 1) ht
  refine ⟨t, ht, hcompletes.1, hcompletes.2 fun a ha => ?_⟩
  cases a with
  | main | createFails => simp [step, stepMain, hmain]
  | signal woken => simp [step, stepSignal, hmain]
  | consumer i empty => simp [step, hmain, stepConsumer, hexited, Config.move]
  | spurious => cases ha

end PsOs.ProducerConsumer
