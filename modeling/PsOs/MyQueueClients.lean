import PsOs.HttpServed
import PsOs.MyQueueLocked
import PsOs.ProducerConservation

/-!
`exercise06/task2`, `exercise06/task3` and `exercise08/task3` keep their queue under one mutex. What
their runs do to it is done here on the heap of `myqueue.h`.
-/

namespace PsOs

open LockedObjects TransitionSystems

namespace MyQueue

variable {ω σ α : Type}

def Performs (ops : List (ω × Op × Option ℤ)) (mutex : Option ω) (queue queue' : List ℤ) : Prop :=
  (ops = [] ∧ queue' = queue) ∨
    ∃ i op, ops = [(i, op, (apply op queue).2)] ∧ queue' = (apply op queue).1 ∧ mutex = some i

/-- The operations can be run on the heap, one after the other, and leave it with `queue`. -/
def OnHeap (history : List (ω × Op × Option ℤ)) (queue : List ℤ) : Prop :=
  (∃ m, Replays code myqueue_init history m) ∧
    ∀ m, Replays code myqueue_init history m → Rep m queue

theorem OnHeap.freed {history : List (ω × Op × Option ℤ)} {m : Memory} (h : OnHeap history [])
    (hm : Replays code myqueue_init history m) (a : ℕ) : m.heap a = Option.none :=
  (h.2 m hm).heap_eq_none a

variable {step : σ → α → Option σ} {init t : σ} {queue : σ → List ℤ} {mutex : σ → Option ω}
  {ops : σ → α → List (ω × Op × Option ℤ)}

theorem onHeap_of_performs (Inv : σ → Prop) (h₀ : Inv init)
    (hkeep : ∀ s a t, Inv s → step s a = some t → Inv t)
    (hperforms : ∀ s a t, Inv s → step s a = some t →
      Performs (ops s a) (mutex s) (queue s) (queue t))
    (hempty : queue init = []) {as : List α} (hrun : run step init as = some t) :
    OnHeap (trace step ops init as) (queue t) ∧
      AllSteps step (fun s a => ∀ e ∈ ops s a, mutex s = some e.1) init as := by
  constructor
  · let R : List (ω × Op × Option ℤ) → σ → Prop :=
      fun history s => Inv s ∧ Legal apply [] history (queue s)
    have hstart : R [] init := ⟨h₀, hempty ▸ .nil⟩
    have hlegal : R (trace step ops init as) t := by
      refine trace_invariant R (fun history s a t hs hst => ⟨hkeep s a t hs.1 hst, ?_⟩) hstart hrun
      rcases hperforms s a t hs.1 hst with ⟨hops, hq⟩ | ⟨i, op, hops, hq, -⟩
      · rw [hops, List.append_nil, hq]
        exact hs.2
      · rw [hops, hq]
        exact hs.2.snoc i op
    exact ⟨implements_queue.exists_replays rep_myqueue_init hlegal.2,
      fun m hm => implements_queue.replays rep_myqueue_init hlegal.2 hm⟩
  · apply allSteps_of_invariant Inv hkeep _ h₀
    intro s a t hs hst e he
    rcases hperforms s a t hs hst with ⟨hops, -⟩ | ⟨i, op, hops, -, hi⟩
    · rw [hops] at he
      cases he
    · rw [hops, List.mem_singleton] at he
      rw [he, hi]

end MyQueue

open MyQueue (Performs OnHeap)

namespace ProducerConsumer

variable {c n : ℕ} {task : Task} {s t : State c}

/-- A test that finds the queue empty is an operation of its own; otherwise the pop is. -/
def queueOps (s : State c) : Action c → List (Owner c × MyQueue.Op × Option ℤ)
  | .main =>
    match s.shared.main with
    | .push element => [(.main, .push element.num, none)]
    | _ => []
  | .consumer i _ =>
    match (s.locals i).pc with
    | .check => if s.shared.queue = [] then [(.consumer i, .take, none)] else []
    | .pop => [(.consumer i, .take, s.shared.queue.head?)]
    | _ => []
  | _ => []

theorem performs_main (h : Inv n s) (ht : stepMain task n s = some t) :
    Performs (queueOps s .main) s.shared.mutex s.shared.queue t.shared.queue := by
  cases stepMain_move ht with
  | push element hpc =>
    have hmutex := h.guards .main (by simp [sections, hpc, MainPc.inSection])
    exact .inr ⟨.main, .push element.num, by simp only [queueOps, hpc, MyQueue.apply], rfl, hmutex⟩
  | _ => exact .inl ⟨by simp only [queueOps, *], rfl⟩

theorem performs_consumer (h : Inv n s) {i : Fin c} {empty : Bool} {srv : Server c}
    {consumer : Consumer} (hm : ConsumerMove task i s.shared (s.locals i) srv consumer) :
    Performs (queueOps s (.consumer i empty)) s.shared.mutex s.shared.queue srv.queue := by
  have hmutex : (s.locals i).pc.inSection = true → s.shared.mutex = some (.consumer i) :=
    h.guards (.consumer i)
  cases hm with
  | lock hpc hfree => exact .inl ⟨by rcases hpc with hpc | hpc <;> simp only [queueOps, hpc], rfl⟩
  | pass hpc hq htask | starve hpc hq htask =>
    exact .inr ⟨.consumer i, .take, by simp [queueOps, hpc, hq, MyQueue.apply],
      by rw [hq]; rfl, hmutex (by simp [hpc, ConsumerPc.inSection])⟩
  | find hpc hq => exact .inl ⟨by simp only [queueOps, hpc, if_neg hq], rfl⟩
  | pop value queue hpc hq =>
    exact .inr ⟨.consumer i, .take, by simp only [queueOps, hpc, MyQueue.apply],
      by rw [hq]; rfl, hmutex (by simp [hpc, ConsumerPc.inSection])⟩
  | abort hpc hq => exact absurd hq (h.found i hpc)
  | _ => exact .inl ⟨by simp only [queueOps, *], rfl⟩

theorem performs_step (h : Inv n s) {a : Action c} (ht : step task n s a = some t) :
    Performs (queueOps s a) s.shared.mutex s.shared.queue t.shared.queue := by
  cases a with
  | main => exact performs_main h ht
  | consumer i empty =>
    simp only [step] at ht
    split at ht
    · cases ht
    · obtain ⟨srv', consumer', hm, rfl⟩ := Threads.Config.move_eq_some.mp ht
      exact performs_consumer h (stepConsumer_move hm)
  | createFails =>
    simp only [step] at ht
    split at ht
    · split at ht <;> cases ht
      exact .inl ⟨rfl, rfl⟩
    · cases ht
  | signal woken =>
    simp only [step, stepSignal] at ht
    split at ht
    · split at ht <;> cases ht
      exact .inl ⟨rfl, rfl⟩
    · cases ht
  | spurious i =>
    simp only [step] at ht
    split at ht <;> cases ht
    exact .inl ⟨rfl, rfl⟩

end ProducerConsumer

namespace HttpServer

variable {n : ℕ} {s t : State n}

def queueOps (s : State n) : Action n → List (Owner n × MyQueue.Op × Option ℤ)
  | .main =>
    match s.shared.main with
    | .push fd => [(.main, .push fd, none)]
    | .pushPill i => if i < n then [(.main, .push POISON_PILL, none)] else []
    | _ => []
  | .worker i _ =>
    match s.locals i with
    | .test => if s.shared.queue = [] then [(.worker i, .take, none)] else []
    | .pop => [(.worker i, .take, s.shared.queue.head?)]
    | _ => []
  | _ => []

theorem performs_main (h : QueueGuarded s) (ht : stepMain s = some t) :
    Performs (queueOps s .main) s.shared.mutexQueue s.shared.queue t.shared.queue := by
  cases stepMain_move ht with
  | push fd hpc =>
    have hmutex := h.main_holds (by simp [hpc, MainPc.inSection])
    exact .inr ⟨.main, .push fd, by simp only [queueOps, hpc, MyQueue.apply], rfl, hmutex⟩
  | pushPill k hpc hk =>
    have hmutex := h.main_holds (by simp [hpc, MainPc.inSection])
    exact .inr ⟨.main, .push POISON_PILL, by simp only [queueOps, hpc, if_pos hk, MyQueue.apply], rfl,
      hmutex⟩
  | allPills k hpc hk => exact .inl ⟨by simp only [queueOps, hpc, if_neg hk.not_gt], rfl⟩
  | accepted result hpc => cases result <;> exact .inl ⟨by simp only [queueOps, hpc], rfl⟩
  | _ => exact .inl ⟨by simp only [queueOps, *], rfl⟩

theorem performs_worker (h : QueueGuarded s) {i : Fin n} {request : Request} {srv : Server n}
    {w : Worker} (hm : WorkerMove i s.shared (s.locals i) srv w) :
    Performs (queueOps s (.worker i request)) s.shared.mutexQueue s.shared.queue srv.queue := by
  have hmutex : (s.locals i).inSection = true → s.shared.mutexQueue = some (.worker i) :=
    h.worker_holds
  generalize hw : s.locals i = w₀ at hm hmutex
  cases hm with
  | empty hq =>
    exact .inr ⟨.worker i, .take, by simp [queueOps, hw, hq, MyQueue.apply], by rw [hq]; rfl,
      hmutex rfl⟩
  | nonempty hq => exact .inl ⟨by simp only [queueOps, hw, if_neg hq], rfl⟩
  | pop fd queue hq =>
    exact .inr ⟨.worker i, .take, by simp only [queueOps, hw, MyQueue.apply], by rw [hq]; rfl,
      hmutex rfl⟩
  | serve hhandling hw' hsame =>
    refine .inl ⟨?_, hsame.queue⟩
    simp only [queueOps, hw]
    cases w₀ <;> first | rfl | exact hhandling.elim
  | _ => exact .inl ⟨by simp only [queueOps, hw], rfl⟩

theorem performs_step (h : QueueGuarded s) {a : Action n} (ht : step s a = some t) :
    Performs (queueOps s a) s.shared.mutexQueue s.shared.queue t.shared.queue := by
  cases a with
  | main => exact performs_main h ht
  | worker i request =>
    simp only [step] at ht
    split at ht
    · cases ht
    · obtain ⟨srv', w', hm, rfl⟩ := Threads.Config.move_eq_some.mp ht
      exact performs_worker h (stepWorker_move hm)
  | accept result =>
    simp only [step] at ht
    split at ht <;> cases ht
    cases result <;> exact .inl ⟨rfl, rfl⟩
  | signal woken =>
    simp only [step, stepSignal] at ht
    split at ht <;> cases ht
    exact .inl ⟨rfl, rfl⟩
  | spurious i =>
    simp only [step] at ht
    split at ht <;> cases ht
    exact .inl ⟨rfl, rfl⟩

theorem socketsOnHeap_of_run (hn : 1 ≤ n) {as : List (Action n)} (hrun : run step (init n) as = some t) :
    OnHeap (trace step queueOps (init n) as) t.shared.queue ∧
      AllSteps step (fun s a => ∀ e ∈ queueOps s a, s.shared.mutexQueue = some e.1) (init n) as ∧
      (t.shared.main = .returned true → ∀ m,
        Replays MyQueue.code MyQueue.myqueue_init (trace step queueOps (init n) as) m →
          ∀ a, m.heap a = none) := by
  obtain ⟨hheap, howner⟩ := MyQueue.onHeap_of_performs ServerInv (ServerInv.init : ServerInv (init n))
    (fun _ _ _ hs ht => hs.step hn ht) (fun _ _ _ hs ht => performs_step hs.guarded ht) rfl hrun
  refine ⟨hheap, howner, fun hreturned m hm => ?_⟩
  have hinv := (reachable_of_run hrun).invariant ServerInv .init fun _ _ _ hs ht => hs.step hn ht
  have hq := (hinv.joined hn (.inl hreturned)).1
  exact (hq ▸ hheap).freed hm

theorem onHeap_serveOne : ∃ t : State 1, t.shared.main = .returned true ∧
    ∀ m, Replays MyQueue.code MyQueue.myqueue_init (trace step queueOps (init 1) serveOne) m →
      ∀ a, m.heap a = none := by
  have hrun : (run step (init 1) serveOne).any (fun t => decide (t.shared.main = .returned true)) =
      true := by decide +kernel
  obtain ⟨t, ht, hp⟩ := (Option.any_eq_true _ _).mp hrun
  have hmain := of_decide_eq_true hp
  exact ⟨t, hmain, (socketsOnHeap_of_run (Nat.le_refl 1) ht).2.2 hmain⟩

end HttpServer

end PsOs
