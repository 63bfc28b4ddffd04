import PsOs.PriorityQueues
import PsOs.SchedulerMessages
import PsOs.Threads
import PsOs.TransitionSystems

/-!
`exercise05/task1/service.c` and `scheduler.c` with the message queue between them: any number of
services and of schedulers, which are started, interrupted and started again.
-/

namespace PsOs.SchedulerQueue

open CStrings Comparators Decimals PriorityQueues Scheduler Threads TransitionSystems

def MAX_MSGS : ℕ := 10

def MQ_PRIO_MAX : ℕ := 32768

structure Job where
  priority : List UInt8
  input : Option (List UInt8)

def Job.prio (job : Job) : ℕ := (atoi job.priority).toUInt32.toNat

structure Message (ι : Type) where
  -- no step depends on it
  sender : ι
  prio : ℕ
  bytes : List UInt8

abbrev Buffer := Vector UInt8 MSG_SIZE

inductive ServicePc where
  | gets
  | mqOpen (buffer : Buffer)
  | mqSend (buffer : Buffer)
  | exited (success : Bool)
  | overflowed

inductive SchedulerPc (ι : Type) where
  | absent
  | test
  | receive
  | handle (message : Message ι)

structure Process (ι : Type) where
  pc : SchedulerPc ι
  should_run : Bool
  buffer : State
  -- what the schedulers of this number have worked on so far
  log : List (Message ι × Outcome)

structure System (ι κ : Type) where
  queue : Option (List (Message ι))
  events : List (Event (Message ι) κ)
  services : ι → ServicePc
  schedulers : κ → Process ι

/-- A signal that comes before `mq_receive` does not interrupt it. -/
inductive Action (ι κ : Type) where
  | service (i : ι)
  | scheduler (k : κ)
  | start (k : κ) (numbers : Vector Int64 MSG_SIZE) (mesgText : Buffer)
  | interrupt (k : κ) (inCall : Bool)

def fill (line : List UInt8) : Buffer := overwrite line (Vector.replicate MSG_SIZE 0)

def init (ι κ : Type) : System ι κ where
  queue := none
  events := []
  services := fun _ => .gets
  schedulers := fun _ => ⟨.absent, false, zeroed none, []⟩

variable {ι κ : Type} [DecidableEq ι] [DecidableEq κ]

namespace System

def goto (s : System ι κ) (i : ι) (pc : ServicePc) : System ι κ :=
  { s with services := Function.update s.services i pc }

def set (s : System ι κ) (k : κ) (p : Process ι) : System ι κ :=
  { s with schedulers := Function.update s.schedulers k p }

end System

def stepService (jobs : ι → Job) (s : System ι κ) (i : ι) : Option (System ι κ) :=
  match s.services i with
  | .gets =>
    match (jobs i).input with
    | none => some (s.goto i (.exited false))
    | some line => some (s.goto i (if line.length < MSG_SIZE then .mqOpen (fill line) else .overflowed))
  | .mqOpen buffer => some (s.goto i (if s.queue.isSome then .mqSend buffer else .exited false))
  | .mqSend buffer =>
    s.queue.bind fun queue =>
      -- a refused message is reported as sent as well
      if MQ_PRIO_MAX ≤ (jobs i).prio then some (s.goto i (.exited true))
      else if queue.length < MAX_MSGS then
        let message : Message ι := ⟨i, (jobs i).prio, buffer.toList⟩
        some ({ s with
          queue := some (enqueue Message.prio message queue)
          events := s.events ++ [Event.sent message] }.goto i (.exited true))
      else none
  | .exited _ | .overflowed => none

def stepScheduler (qsort : Qsort Int64) (s : System ι κ) (k : κ) : Option (System ι κ) :=
  let p := s.schedulers k
  match p.pc with
  | .absent => none
  -- `mq_unlink` is called with `argv[0]`, which leaves the queue where it is
  | .test => some (s.set k { p with pc := if p.should_run then .receive else .absent })
  | .receive =>
    match s.queue with
    | some (message :: queue) =>
      some ({ s with
        queue := some queue
        events := s.events ++ [Event.received k message] }.set k
          { p with pc := .handle message, buffer := p.buffer.receive message.bytes })
    | _ => none
  | .handle message =>
    (State.handle qsort p.buffer).map fun (o, buffer) =>
      s.set k { p with pc := .test, buffer, log := p.log ++ [(message, o)] }

def stepStart (s : System ι κ) (k : κ) (numbers : Vector Int64 MSG_SIZE) (mesgText : Buffer) :
    Option (System ι κ) :=
  match (s.schedulers k).pc with
  | .absent =>
    some ({ s with queue := some (s.queue.getD []) }.set k
      ⟨.test, true, State.start numbers mesgText, (s.schedulers k).log⟩)
  | _ => none

def stepInterrupt (s : System ι κ) (k : κ) (inCall : Bool) : Option (System ι κ) :=
  let p := s.schedulers k
  match p.pc, inCall with
  | .absent, _ => none
  | .receive, true => some (s.set k { p with pc := .test, should_run := false })
  | _, true => none
  | _, false => some (s.set k { p with should_run := false })

def step (qsort : Qsort Int64) (jobs : ι → Job) (s : System ι κ) : Action ι κ → Option (System ι κ)
  | .service i => stepService jobs s i
  | .scheduler k => stepScheduler qsort s k
  | .start k numbers mesgText => stepStart s k numbers mesgText
  | .interrupt k inCall => stepInterrupt s k inCall

def SchedulerPc.current : SchedulerPc ι → List (Message ι)
  | .handle message => [message]
  | _ => []

def Posted (jobs : ι → Job) (message : Message ι) : Prop :=
  ∃ line, (jobs message.sender).input = some line ∧ line.length < MSG_SIZE ∧
    message.prio = (jobs message.sender).prio ∧ message.bytes = (fill line).toList

structure Delivers (jobs : ι → Job) (s : System ι κ) : Prop where
  legal : ∃ pending, Legal Message.prio s.events pending ∧
    s.queue.getD [] = represent Message.prio pending
  capacity : (s.queue.getD []).length ≤ MAX_MSGS
  once : ((sent s.events).map Message.sender).Nodup
  posted : ∀ message ∈ sent s.events, Posted jobs message
  sender : ∀ i, i ∈ (sent s.events).map Message.sender ↔
    s.services i = .exited true ∧ (jobs i).prio < MQ_PRIO_MAX
  handled : ∀ k, receivedBy k s.events =
    (s.schedulers k).log.map Prod.fst ++ (s.schedulers k).pc.current
  outcomes : ∀ k, ∀ e ∈ (s.schedulers k).log, ∃ line, (jobs e.1.sender).input = some line ∧
    e.2 = outcome line

section Fill

variable {line : List UInt8}

theorem fill_toList (h : line.length < MSG_SIZE) :
    (fill line).toList = line ++ List.replicate (MSG_SIZE - line.length) 0 :=
  overwrite_zeros h.le

theorem ended_fill (h : line.length < MSG_SIZE) : Ended (fill line).toList := by
  refine ⟨(Vector.length_toList ..).le, .inr ?_⟩
  rw [fill_toList h, List.mem_append, List.mem_replicate]
  exact .inr ⟨by omega, rfl⟩

theorem outcome_fill (h : line.length < MSG_SIZE) : outcome (fill line).toList = outcome line := by
  rw [outcome, fill_toList h, read_append_zeros, outcome]

omit [DecidableEq ι] in
theorem Posted.ended {jobs : ι → Job} {message : Message ι} (h : Posted jobs message) :
    Ended message.bytes := by
  obtain ⟨line, -, hlen, -, hbytes⟩ := h
  rw [hbytes]
  exact ended_fill hlen

end Fill

section Invariant

variable {qsort : Qsort Int64} {jobs : ι → Job} {s t : System ι κ} {i : ι} {k : κ}

def Filled (jobs : ι → Job) (i : ι) : ServicePc → Prop
  | .mqOpen buffer | .mqSend buffer =>
    ∃ line, (jobs i).input = some line ∧ line.length < MSG_SIZE ∧ buffer = fill line
  | .overflowed => ∃ line, (jobs i).input = some line ∧ MSG_SIZE ≤ line.length
  | _ => True

structure ServicesOk (jobs : ι → Job) (messages : List (Message ι)) (services : ι → ServicePc) :
    Prop where
  once : (messages.map Message.sender).Nodup
  posted : ∀ message ∈ messages, Posted jobs message
  sender : ∀ i, i ∈ messages.map Message.sender ↔
    services i = .exited true ∧ (jobs i).prio < MQ_PRIO_MAX
  filled : ∀ i, Filled jobs i (services i)

def BufferOk : SchedulerPc ι → State → Prop
  | .absent, _ => True
  | .test, buffer | .receive, buffer => ∃ saved, buffer = zeroed saved
  | .handle message, buffer =>
    Ended message.bytes ∧ ∃ saved, buffer = (zeroed saved).receive message.bytes

structure ProcessOk (messages : List (Message ι)) (p : Process ι) : Prop where
  handled : messages = p.log.map Prod.fst ++ p.pc.current
  outcomes : ∀ e ∈ p.log, e.2 = outcome e.1.bytes
  buffer : BufferOk p.pc p.buffer

structure Inv (jobs : ι → Job) (s : System ι κ) : Prop where
  legal : ∃ pending, Legal Message.prio s.events pending ∧
    s.queue.getD [] = represent Message.prio pending
  capacity : (s.queue.getD []).length ≤ MAX_MSGS
  services : ServicesOk jobs (sent s.events) s.services
  schedulers : ∀ k, ProcessOk (receivedBy k s.events) (s.schedulers k)
  opened : ∀ k, (s.schedulers k).pc ≠ .absent → s.queue.isSome
  connected : ∀ i buffer, s.services i = .mqSend buffer → s.queue.isSome

omit [DecidableEq ι] in
theorem inv_init (jobs : ι → Job) : Inv jobs (init ι κ) where
  legal := ⟨[], .nil, rfl⟩
  capacity := Nat.zero_le _
  services := ⟨List.nodup_nil, by simp [init, sent], by simp [init, sent], fun _ => trivial⟩
  schedulers := fun _ => ⟨rfl, by simp [init], trivial⟩
  opened := by simp [init]
  connected := by simp [init]

omit [DecidableEq κ] in
theorem ServicesOk.goto {messages : List (Message ι)} {services : ι → ServicePc}
    (h : ServicesOk jobs messages services) {pc : ServicePc} (hnot : services i ≠ .exited true)
    (hpc : pc = .exited true → MQ_PRIO_MAX ≤ (jobs i).prio) (hfilled : Filled jobs i pc) :
    ServicesOk jobs messages (Function.update services i pc) := by
  refine ⟨h.once, h.posted, fun j => ?_, fun j => ?_⟩
  · rw [h.sender j]
    by_cases hj : j = i
    · subst hj
      rw [Function.update_self]
      constructor
      · exact fun hsent => absurd hsent.1 hnot
      · rintro ⟨hexited, hprio⟩
        exact absurd (hpc hexited) (not_le.mpr hprio)
    · rw [Function.update_of_ne hj]
  · by_cases hj : j = i
    · subst hj
      rwa [Function.update_self]
    · rw [Function.update_of_ne hj]
      exact h.filled j

omit [DecidableEq κ] in
theorem ServicesOk.send {messages : List (Message ι)} {services : ι → ServicePc} {buffer : Buffer}
    (h : ServicesOk jobs messages services) (hpc : services i = .mqSend buffer)
    (hprio : (jobs i).prio < MQ_PRIO_MAX) :
    ServicesOk jobs (messages ++ [⟨i, (jobs i).prio, buffer.toList⟩])
      (Function.update services i (.exited true)) := by
  have hfresh : i ∉ messages.map Message.sender := by
    rw [h.sender i, hpc]
    simp
  have hposted : Posted jobs (⟨i, (jobs i).prio, buffer.toList⟩ : Message ι) := by
    have hfilled := h.filled i
    rw [hpc] at hfilled
    obtain ⟨line, hline, hlen, rfl⟩ := hfilled
    refine ⟨line, hline, hlen, rfl, ?_⟩
    dsimp only
  refine ⟨?_, ?_, fun j => ?_, fun j => ?_⟩
  · rw [List.map_append, List.nodup_append]
    refine ⟨h.once, List.nodup_singleton i, ?_⟩
    intro a ha b hb
    rintro rfl
    rw [List.mem_singleton.mp hb] at ha
    exact hfresh ha
  · intro message hmem
    obtain hmem | hmem := List.mem_append.mp hmem
    · exact h.posted message hmem
    · rwa [List.mem_singleton.mp hmem]
  · rw [List.map_append, List.mem_append, h.sender j]
    by_cases hj : j = i
    · subst hj
      simp [hprio]
    · rw [Function.update_of_ne hj]
      simp [hj]
  · by_cases hj : j = i
    · subst hj
      rw [Function.update_self]
      trivial
    · rw [Function.update_of_ne hj]
      exact h.filled j

theorem Inv.goto (h : Inv jobs s) {pc : ServicePc} (hnot : s.services i ≠ .exited true)
    (hpc : pc = .exited true → MQ_PRIO_MAX ≤ (jobs i).prio) (hfilled : Filled jobs i pc)
    (hopen : ∀ buffer, pc = .mqSend buffer → s.queue.isSome) : Inv jobs (s.goto i pc) where
  legal := h.legal
  capacity := h.capacity
  services := h.services.goto hnot hpc hfilled
  schedulers := h.schedulers
  opened := h.opened
  connected j buffer hj := by
    by_cases hji : j = i
    · subst hji
      exact hopen buffer (by simpa [System.goto] using hj)
    · exact h.connected j buffer (by simpa [System.goto, Function.update_of_ne hji] using hj)

omit [DecidableEq ι] in
theorem Inv.set (h : Inv jobs s) {p : Process ι} (hqueue : s.queue.isSome)
    (hp : ProcessOk (receivedBy k s.events) p) : Inv jobs (s.set k p) where
  legal := h.legal
  capacity := h.capacity
  services := h.services
  schedulers j := by
    change ProcessOk _ (Function.update s.schedulers k p j)
    by_cases hj : j = k
    · subst hj
      rwa [Function.update_self]
    · rw [Function.update_of_ne hj]
      exact h.schedulers j
  opened _ _ := hqueue
  connected := h.connected

theorem Inv.stepService (h : Inv jobs s) (ht : stepService jobs s i = some t) : Inv jobs t := by
  cases hpc : s.services i <;> simp only [SchedulerQueue.stepService, hpc] at ht
  case gets =>
    cases hinput : (jobs i).input with
    | none =>
      simp only [hinput] at ht
      cases ht
      exact h.goto (by simp [hpc]) (by simp) trivial (by simp)
    | some line =>
      simp only [hinput] at ht
      cases ht
      refine h.goto (by simp [hpc]) ?_ ?_ ?_
      · split <;> simp
      · split
        case isTrue hlen => exact ⟨line, hinput, hlen, rfl⟩
        case isFalse hlen => exact ⟨line, hinput, not_lt.mp hlen⟩
      · split <;> simp
  case mqOpen buffer =>
    cases ht
    have hfilled := h.services.filled i
    rw [hpc] at hfilled
    refine h.goto (by simp [hpc]) ?_ ?_ ?_
    · split <;> simp
    · split
      · exact hfilled
      · trivial
    · split
      case isTrue hsome => exact fun _ _ => hsome
      case isFalse => simp
  case mqSend buffer =>
    obtain ⟨queue, hqueue, ht⟩ := Option.bind_eq_some_iff.mp ht
    split at ht
    case isTrue hprio =>
      cases ht
      exact h.goto (by simp [hpc]) (fun _ => hprio) trivial (by simp)
    case isFalse hprio =>
      split at ht
      case isFalse => cases ht
      case isTrue hroom =>
        cases ht
        obtain ⟨pending, hlegal, hrep⟩ := h.legal
        rw [hqueue, Option.getD_some] at hrep
        refine ⟨⟨pending ++ [_], hlegal.sent _, ?_⟩, ?_, ?_, ?_, fun _ _ => rfl, fun _ _ _ => rfl⟩
        · rw [represent_concat, ← hrep]
          rfl
        · change (enqueue _ _ queue).length ≤ _
          rw [(enqueue_perm _ _ _).length_eq]
          exact hroom
        · change ServicesOk jobs (sent (s.events ++ [_])) _
          rw [sent_sent]
          exact h.services.send hpc (not_le.mp hprio)
        · intro k
          change ProcessOk (receivedBy k (s.events ++ [_])) _
          rw [receivedBy_sent]
          exact h.schedulers k
  all_goals cases ht

omit [DecidableEq ι] in
theorem Inv.queue_posted (h : Inv jobs s) {queue : List (Message ι)} (hqueue : s.queue = some queue) :
    ∀ message ∈ queue, Posted jobs message := by
  obtain ⟨pending, hlegal, hrep⟩ := h.legal
  rw [hqueue, Option.getD_some] at hrep
  intro message hmem
  rw [hrep, (represent_perm _ _).mem_iff] at hmem
  apply h.services.posted message
  rw [hlegal.perm.mem_iff]
  exact List.mem_append_right _ hmem

omit [DecidableEq ι] in
theorem Inv.receive (h : Inv jobs s) {message : Message ι} {queue : List (Message ι)}
    (hpc : (s.schedulers k).pc = .receive) (hqueue : s.queue = some (message :: queue)) :
    Inv jobs ({ s with
      queue := some queue
      events := s.events ++ [Event.received k message] }.set k
        { s.schedulers k with
          pc := .handle message
          buffer := (s.schedulers k).buffer.receive message.bytes }) := by
  obtain ⟨pending, hlegal, hrep⟩ := h.legal
  rw [hqueue, Option.getD_some] at hrep
  obtain ⟨rest, htake, hrest⟩ := takes_of_represent hrep.symm
  have hended := (h.queue_posted hqueue message List.mem_cons_self).ended
  obtain ⟨hhandled, houtcomes, hbuffer⟩ := h.schedulers k
  rw [hpc] at hhandled hbuffer
  obtain ⟨saved, hsaved⟩ := hbuffer
  refine ⟨⟨rest, hlegal.received k htake, hrest.symm⟩, ?_, ?_, fun j => ?_, fun _ _ => rfl,
    fun _ _ _ => rfl⟩
  · have hcapacity := h.capacity
    rw [hqueue] at hcapacity
    exact (Nat.le_succ _).trans hcapacity
  · change ServicesOk jobs (sent (s.events ++ [_])) _
    rw [sent_received]
    exact h.services
  · change ProcessOk (receivedBy j (s.events ++ [_])) (Function.update s.schedulers k _ j)
    by_cases hj : j = k
    · subst hj
      rw [receivedBy_self, Function.update_self]
      refine ⟨?_, houtcomes, hended, saved, ?_⟩
      · rw [hhandled]
        simp [SchedulerPc.current]
      · rw [hsaved]
    · rw [receivedBy_of_ne (Ne.symm hj), Function.update_of_ne hj]
      exact h.schedulers j

omit [DecidableEq ι] in
theorem Inv.stepScheduler (h : Inv jobs s) (ht : stepScheduler qsort s k = some t) : Inv jobs t := by
  obtain ⟨hhandled, houtcomes, hbuffer⟩ := h.schedulers k
  cases hpc : (s.schedulers k).pc <;> simp only [SchedulerQueue.stepScheduler, hpc] at ht
  case absent => cases ht
  case test =>
    cases ht
    rw [hpc] at hhandled hbuffer
    refine h.set (h.opened k (by simp [hpc])) ⟨?_, houtcomes, ?_⟩
    · rw [hhandled]
      dsimp only
      split <;> rfl
    · dsimp only
      split
      · exact hbuffer
      · trivial
  case receive =>
    split at ht
    case h_1 message queue hqueue =>
      cases ht
      exact h.receive hpc hqueue
    case h_2 => cases ht
  case handle message =>
    rw [hpc] at hhandled hbuffer
    obtain ⟨hended, saved, hsaved⟩ := hbuffer
    obtain ⟨saved', hhandle⟩ := @handle_received qsort _ hended saved
    rw [hsaved, hhandle, Option.map_some] at ht
    cases ht
    refine h.set (h.opened k (by simp [hpc])) ⟨?_, ?_, saved', rfl⟩
    · rw [hhandled]
      simp [SchedulerPc.current]
    · intro e he
      obtain he | he := List.mem_append.mp he
      · exact houtcomes e he
      · rw [List.mem_singleton.mp he]

omit [DecidableEq ι] in
theorem Inv.stepStart (h : Inv jobs s) {numbers : Vector Int64 MSG_SIZE} {mesgText : Buffer}
    (ht : stepStart s k numbers mesgText = some t) : Inv jobs t := by
  obtain ⟨hhandled, houtcomes, -⟩ := h.schedulers k
  unfold SchedulerQueue.stepStart at ht
  split at ht
  case h_1 hpc =>
    cases ht
    rw [hpc] at hhandled
    have hopen : Inv jobs { s with queue := some (s.queue.getD []) } :=
      ⟨h.legal, h.capacity, h.services, h.schedulers, fun _ _ => rfl, fun _ _ _ => rfl⟩
    refine hopen.set rfl ⟨hhandled, houtcomes, none, ?_⟩
    rw [State.start, clean_eq]
  case h_2 => cases ht

omit [DecidableEq ι] in
theorem Inv.stepInterrupt (h : Inv jobs s) {inCall : Bool} (ht : stepInterrupt s k inCall = some t) :
    Inv jobs t := by
  obtain ⟨hhandled, houtcomes, hbuffer⟩ := h.schedulers k
  simp only [SchedulerQueue.stepInterrupt] at ht
  split at ht
  case h_1 => cases ht
  case h_2 hpc =>
    cases ht
    rw [hpc] at hhandled hbuffer
    exact h.set (h.opened k (by simp [hpc])) ⟨hhandled, houtcomes, hbuffer⟩
  case h_3 => cases ht
  case h_4 hpc =>
    cases ht
    exact h.set (h.opened k hpc) ⟨hhandled, houtcomes, hbuffer⟩

theorem Inv.step (h : Inv jobs s) {a : Action ι κ} (ht : step qsort jobs s a = some t) :
    Inv jobs t := by
  cases a with
  | service i => exact h.stepService ht
  | scheduler k => exact h.stepScheduler ht
  | start k numbers mesgText => exact h.stepStart ht
  | interrupt k inCall => exact h.stepInterrupt ht

theorem inv_of_reachable (h : Reachable (step qsort jobs) (init ι κ) s) : Inv jobs s :=
  h.invariant (Inv jobs) (inv_init jobs) fun _ _ _ hs ht => hs.step ht

omit [DecidableEq ι] in
theorem Inv.delivers (h : Inv jobs s) : Delivers jobs s where
  legal := h.legal
  capacity := h.capacity
  once := h.services.once
  posted := h.services.posted
  sender := h.services.sender
  handled k := (h.schedulers k).handled
  outcomes k e he := by
    have hmem : e.1 ∈ receivedBy k s.events := by
      rw [(h.schedulers k).handled]
      exact List.mem_append_left _ (List.mem_map_of_mem he)
    obtain ⟨pending, hlegal, -⟩ := h.legal
    have hsent : e.1 ∈ sent s.events := by
      rw [hlegal.perm.mem_iff]
      exact List.mem_append_left _ (received_of_receivedBy hmem)
    obtain ⟨line, hline, hlen, -, hbytes⟩ := h.services.posted _ hsent
    refine ⟨line, hline, ?_⟩
    rw [(h.schedulers k).outcomes e he, hbytes, outcome_fill hlen]

end Invariant

/-- Every message is handled once, in the right order and as it was sent. -/
theorem delivers_of_reachable {qsort : Qsort Int64} {jobs : ι → Job} {s : System ι κ}
    (h : Reachable (step qsort jobs) (init ι κ) s) : Delivers jobs s :=
  (inv_of_reachable h).delivers

def twoJobs : Bool → Job
  | false => ⟨text "1", some (text "10 5 4 7 1")⟩
  | true => ⟨text "99", some (text "5 4 3 2 1")⟩

def overtaking : List (Action Bool Unit) :=
  [.start () (Vector.replicate _ 0) (Vector.replicate _ 0)] ++ List.replicate 3 (.service false) ++
    List.replicate 3 (.service true) ++ List.replicate 2 (.scheduler ())

theorem delivers_overtaking : ∃ s : System Bool Unit, Delivers twoJobs s ∧
    (sent s.events).map Message.prio = [1, 99] ∧ (received s.events).map Message.prio = [99] := by
  obtain ⟨s, hs, hp⟩ := exists_reachable_of_run (step (fun _ l => l) twoJobs) (init Bool Unit) overtaking
    (fun s => decide ((sent s.events).map Message.prio = [1, 99] ∧
      (received s.events).map Message.prio = [99])) (by decide +kernel)
  exact ⟨s, delivers_of_reachable hs, of_decide_eq_true hp⟩

end PsOs.SchedulerQueue
