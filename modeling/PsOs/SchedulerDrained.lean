import PsOs.SchedulerQueue

namespace PsOs.SchedulerQueue

open CStrings Comparators PriorityQueues Scheduler Threads TransitionSystems

variable {ι κ : Type} [DecidableEq ι] [DecidableEq κ]

section Progress

variable {qsort : Qsort Int64} {jobs : ι → Job} {s t : System ι κ} {i : ι} {k : κ}

def ServicePc.remaining : ServicePc → ℕ
  | .gets => 6
  | .mqOpen _ => 5
  | .mqSend _ => 4
  | .exited _ | .overflowed => 0

def SchedulerPc.remaining : SchedulerPc ι → ℕ
  | .absent => 0
  | .test => 2
  | .receive => 1
  | .handle _ => 3

/-- A message in the queue costs less than the service that has still to send it. -/
def remaining [Fintype ι] [Fintype κ] (s : System ι κ) : ℕ :=
  ∑ i, (s.services i).remaining + 3 * (s.queue.getD []).length + ∑ k, (s.schedulers k).pc.remaining

def Action.isStep : Action ι κ → Bool
  | .service _ | .scheduler _ => true
  | .start _ _ _ | .interrupt _ _ => false

section Measure

variable [Fintype ι] [Fintype κ]

omit [DecidableEq κ] in
theorem remaining_goto (pc' : ServicePc) {pc : ServicePc} (hpc : s.services i = pc) :
    remaining (s.goto i pc') + pc.remaining = remaining s + pc'.remaining := by
  have hsum := sum_update ServicePc.remaining s.services i pc'
  rw [hpc] at hsum
  simp only [remaining, System.goto]
  omega

omit [DecidableEq ι] in
theorem remaining_set {p : Process ι} {pc pc' : SchedulerPc ι} (hpc : (s.schedulers k).pc = pc)
    (hp : p.pc = pc') : remaining (s.set k p) + pc.remaining = remaining s + pc'.remaining := by
  have hsum := sum_update (fun p : Process ι => p.pc.remaining) s.schedulers k p
  rw [hpc, hp] at hsum
  simp only [remaining, System.set]
  omega

omit [DecidableEq κ] in
theorem goto_lt {pc pc' : ServicePc} (hpc : s.services i = pc) (hlt : pc'.remaining < pc.remaining) :
    remaining (s.goto i pc') < remaining s := by
  have hsum := remaining_goto pc' hpc
  omega

omit [DecidableEq ι] in
theorem set_lt {p : Process ι} {pc : SchedulerPc ι} (hpc : (s.schedulers k).pc = pc)
    (hlt : p.pc.remaining < pc.remaining) : remaining (s.set k p) < remaining s := by
  have hsum := remaining_set hpc (rfl : p.pc = p.pc)
  omega

omit [DecidableEq κ] in
theorem stepService_lt (ht : stepService jobs s i = some t) : remaining t < remaining s := by
  cases hpc : s.services i <;> simp only [stepService, hpc] at ht
  case gets =>
    cases hinput : (jobs i).input with
    | none =>
      simp only [hinput] at ht
      cases ht
      exact goto_lt hpc (by simp [ServicePc.remaining])
    | some line =>
      simp only [hinput] at ht
      cases ht
      apply goto_lt hpc
      split <;> simp [ServicePc.remaining]
  case mqOpen buffer =>
    cases ht
    apply goto_lt hpc
    split <;> simp [ServicePc.remaining]
  case mqSend buffer =>
    obtain ⟨queue, hqueue, ht⟩ := Option.bind_eq_some_iff.mp ht
    split at ht
    case isTrue =>
      cases ht
      exact goto_lt hpc (by simp [ServicePc.remaining])
    case isFalse =>
      split at ht
      case isFalse => cases ht
      case isTrue =>
        cases ht
        let message : Message ι := ⟨i, (jobs i).prio, buffer.toList⟩
        let sent : System ι κ := { s with
          queue := some (enqueue Message.prio message queue)
          events := s.events ++ [Event.sent message] }
        have hsent : remaining sent = remaining s + 3 := by
          simp only [sent, remaining, hqueue, Option.getD_some, (enqueue_perm _ _ _).length_eq,
            List.length_cons]
          omega
        have hsum := remaining_goto (.exited true) (show sent.services i = _ from hpc)
        simp only [ServicePc.remaining] at hsum
        change remaining (sent.goto i _) < _
        omega
  all_goals cases ht

omit [DecidableEq ι] in
theorem stepScheduler_lt (ht : stepScheduler qsort s k = some t) : remaining t < remaining s := by
  cases hpc : (s.schedulers k).pc <;> simp only [stepScheduler, hpc] at ht
  case absent => cases ht
  case test =>
    cases ht
    apply set_lt hpc
    dsimp only
    split <;> simp [SchedulerPc.remaining]
  case receive =>
    split at ht
    case h_1 message queue hqueue =>
      cases ht
      let taken : System ι κ := { s with
        queue := some queue
        events := s.events ++ [Event.received k message] }
      have htaken : remaining taken + 3 = remaining s := by
        simp only [taken, remaining, hqueue, Option.getD_some, List.length_cons]
        omega
      have hsum := remaining_set (p := { s.schedulers k with
        pc := .handle message
        buffer := (s.schedulers k).buffer.receive message.bytes })
          (show (taken.schedulers k).pc = _ from hpc) rfl
      simp only [SchedulerPc.remaining] at hsum
      change remaining (taken.set k _) < _
      omega
    case h_2 => cases ht
  case handle message =>
    obtain ⟨⟨o, buffer⟩, -, rfl⟩ := Option.map_eq_some_iff.mp ht
    exact set_lt hpc (by simp [SchedulerPc.remaining])

theorem step_lt {a : Action ι κ} (ha : a.isStep = true) (ht : step qsort jobs s a = some t) :
    remaining t < remaining s := by
  cases a with
  | service i => exact stepService_lt ht
  | scheduler k => exact stepScheduler_lt ht
  | start => cases ha
  | interrupt => cases ha

theorem step_le {a : Action ι κ} (ha : a.isStep = false) (ht : step qsort jobs s a = some t) :
    remaining t ≤ remaining s + 2 := by
  have hset : ∀ (s : System ι κ) k (p : Process ι), p.pc.remaining ≤ (s.schedulers k).pc.remaining + 2 →
      remaining (s.set k p) ≤ remaining s + 2 := by
    intro s k p hle
    have hsum := remaining_set (s := s) (k := k) rfl (rfl : p.pc = p.pc)
    omega
  cases a with
  | service => cases ha
  | scheduler => cases ha
  | start k numbers mesgText =>
    simp only [step, stepStart] at ht
    split at ht <;> cases ht
    exact hset { s with queue := some (s.queue.getD []) } _ _ (by simp [SchedulerPc.remaining])
  | interrupt k inCall =>
    simp only [step, stepInterrupt] at ht
    split at ht <;> cases ht
    case h_2 hpc => exact hset _ _ _ (by simp [SchedulerPc.remaining])
    case h_4 => exact hset _ _ _ (Nat.le_add_right _ _)

end Measure

theorem Inv.drained (h : Inv jobs s) (hshort : ∀ i, ∀ line ∈ (jobs i).input, line.length < MSG_SIZE)
    (hservices : ∀ i, SchedulerQueue.stepService jobs s i = none)
    (hschedulers : ∀ k, SchedulerQueue.stepScheduler qsort s k = none)
    (halive : (s.schedulers k).pc ≠ .absent) :
    s.queue = some [] ∧ (∀ i, ∃ success, s.services i = .exited success) ∧
      ∀ k, (s.schedulers k).pc.current = [] := by
  have hcurrent : ∀ k, (s.schedulers k).pc = .absent ∨ (s.schedulers k).pc = .receive := by
    intro k
    have hstep := hschedulers k
    have hbuffer := (h.schedulers k).buffer
    cases hpc : (s.schedulers k).pc with
    | absent => exact .inl rfl
    | receive => exact .inr rfl
    | test => simp [SchedulerQueue.stepScheduler, hpc] at hstep
    | handle message =>
      rw [hpc] at hbuffer
      obtain ⟨hended, saved, hsaved⟩ := hbuffer
      obtain ⟨saved', hhandle⟩ := @handle_received qsort _ hended saved
      simp [SchedulerQueue.stepScheduler, hpc, hsaved, hhandle] at hstep
  have hqueue : s.queue = some [] := by
    obtain ⟨queue, hqueue⟩ := Option.isSome_iff_exists.mp (h.opened k halive)
    have hstep := hschedulers k
    cases queue with
    | nil => exact hqueue
    | cons message queue =>
      simp [SchedulerQueue.stepScheduler, (hcurrent k).resolve_left halive, hqueue] at hstep
  refine ⟨hqueue, fun i => ?_, fun k => ?_⟩
  · have hstep := hservices i
    have hfilled := h.services.filled i
    cases hpc : s.services i with
    | gets => cases hinput : (jobs i).input <;> simp [SchedulerQueue.stepService, hpc, hinput] at hstep
    | mqOpen buffer => simp [SchedulerQueue.stepService, hpc] at hstep
    | mqSend buffer =>
      by_cases hprio : MQ_PRIO_MAX ≤ (jobs i).prio <;>
        simp [SchedulerQueue.stepService, hpc, hqueue, hprio, MAX_MSGS] at hstep
    | exited success => exact ⟨success, rfl⟩
    | overflowed =>
      rw [hpc] at hfilled
      obtain ⟨line, hline, hlong⟩ := hfilled
      exact absurd (hshort i line hline) (not_lt.mpr hlong)
  · obtain hpc | hpc := hcurrent k <;> rw [hpc] <;> rfl

/-- Runs are as long as the starts and signals make them, and a scheduler that is not interrupted
works on every message that was sent. -/
theorem drains_of_run [Fintype ι] [Fintype κ]
    (hshort : ∀ i, ∀ line ∈ (jobs i).input, line.length < MSG_SIZE) {as : List (Action ι κ)}
    (hrun : run (step qsort jobs) (init ι κ) as = some t) :
    as.countP Action.isStep ≤ 6 * Fintype.card ι + 2 * as.countP (!Action.isStep ·) ∧
      ((∀ i, stepService jobs t i = none) → (∀ k, stepScheduler qsort t k = none) →
        (∃ k, (t.schedulers k).pc ≠ .absent) →
          (∀ i, ∃ success, t.services i = .exited success) ∧
            (sent t.events).Perm (received t.events) ∧
            ∀ k, receivedBy k t.events = (t.schedulers k).log.map Prod.fst) := by
  constructor
  · have hcount := countP_le_of_run (p := Action.isStep) (fun _ _ _ _ _ => trivial)
      (fun _ _ _ _ ha ht => step_lt ha ht) (fun _ _ _ _ ha ht => step_le ha ht) trivial hrun
    have hinit : remaining (init ι κ) = 6 * Fintype.card ι := by
      simp [remaining, init, ServicePc.remaining, SchedulerPc.remaining, mul_comm]
    omega
  · rintro hservices hschedulers ⟨k, halive⟩
    have hinv := inv_of_reachable (reachable_of_run hrun)
    obtain ⟨hqueue, hexited, hcurrent⟩ := hinv.drained hshort hservices hschedulers halive
    refine ⟨hexited, ?_, fun k => ?_⟩
    · obtain ⟨pending, hlegal, hrep⟩ := hinv.legal
      rw [hqueue, Option.getD_some] at hrep
      have hpending : pending = [] := List.perm_nil.mp (hrep ▸ represent_perm _ pending).symm
      have hperm := hlegal.perm
      rwa [hpending, List.append_nil] at hperm
    · rw [(hinv.schedulers k).handled, hcurrent k, List.append_nil]

end Progress

def oneJob : Unit → Job := fun _ => ⟨text "1", some (text "7")⟩

def untilEmpty : List (Action Unit Unit) :=
  [.start () (Vector.replicate _ 0) (Vector.replicate _ 0)] ++ List.replicate 3 (.service ()) ++
    List.replicate 4 (.scheduler ())

theorem drains_oneJob : ∃ t : System Unit Unit,
    run (step (fun _ l => l) oneJob) (init Unit Unit) untilEmpty = some t ∧
      untilEmpty.countP Action.isStep ≤ 6 * 1 + 2 * untilEmpty.countP (!Action.isStep ·) ∧
      (∀ i, ∃ success, t.services i = .exited success) ∧
        (sent t.events).Perm (received t.events) ∧
        ∀ k, receivedBy k t.events = (t.schedulers k).log.map Prod.fst := by
  have hrun : (run (step (fun _ l => l) oneJob) (init Unit Unit) untilEmpty).any (fun t =>
      decide ((stepService oneJob t ()).isNone ∧ (stepScheduler (fun _ l => l) t ()).isNone ∧
        0 < (t.schedulers ()).pc.remaining)) = true := by
    decide +kernel
  obtain ⟨t, ht, hended⟩ := (Option.any_eq_true _ _).mp hrun
  obtain ⟨hservice, hscheduler, halive⟩ := of_decide_eq_true hended
  have hshort : ∀ i, ∀ line ∈ (oneJob i).input, line.length < MSG_SIZE := by
    intro i line hline
    cases hline
    decide
  obtain ⟨hcount, hdrained⟩ := drains_of_run hshort ht
  refine ⟨t, ht, hcount, hdrained ?_ ?_ ⟨(), ?_⟩⟩
  · exact fun _ => Option.isNone_iff_eq_none.mp hservice
  · exact fun _ => Option.isNone_iff_eq_none.mp hscheduler
  · intro habsent
    rw [habsent] at halive
    cases halive

end PsOs.SchedulerQueue
