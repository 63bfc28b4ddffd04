import PsOs.HttpMoves
import PsOs.WorkQueues

namespace PsOs.HttpServer

open Threads TransitionSystems WorkQueues

variable {n : ℕ} {s t : State n}

def Worker.inSection : Worker → Bool
  | .test | .wait | .pop | .unlock _ => true
  | _ => false

def MainPc.inSection : MainPc → Bool
  | .push _ | .signal | .unlock | .pushPill _ | .broadcast | .unlockPills => true
  | _ => false

def sections (s : State n) : Owner n → Bool
  | .main => s.shared.main.inSection
  | .worker i => (s.locals i).inSection

def QueueGuarded (s : State n) : Prop := Guards s.shared.mutexQueue (· = true) (sections s)

theorem wake_cases (woken : Finset (Fin n)) (locals : Fin n → Worker) (i : Fin n) :
    (locals i = .sleep ∧ i ∈ woken) ∧ wake woken locals i = .relock ∨
      ¬ (locals i = .sleep ∧ i ∈ woken) ∧ wake woken locals i = locals i := by
  unfold wake
  split
  case isTrue h => exact .inl ⟨h, rfl⟩
  case isFalse h => exact .inr ⟨h, rfl⟩

theorem field_wake {β : Type} (field : Worker → β) (h : field .relock = field .sleep)
    (woken : Finset (Fin n)) (locals : Fin n → Worker) (i : Fin n) :
    field (wake woken locals i) = field (locals i) := by
  obtain ⟨⟨hsleep, -⟩, hwake⟩ | ⟨-, hwake⟩ := wake_cases woken locals i
  · rw [hwake, hsleep, h]
  · rw [hwake]

theorem inSection_wake (woken : Finset (Fin n)) (locals : Fin n → Worker) (i : Fin n) :
    (wake woken locals i).inSection = (locals i).inSection :=
  field_wake Worker.inSection rfl woken locals i

theorem Worker.Handling.not_inSection {w : Worker} (h : w.Handling) : w.inSection = false := by
  cases w <;> first | rfl | cases h

section Sections

variable {srv' : Server n} {i : Fin n} {w' : Worker}

theorem sections_worker (hmain : srv'.main = s.shared.main) :
    sections ⟨srv', Function.update s.locals i w'⟩ =
      Function.update (sections s) (.worker i) w'.inSection := by
  funext owner
  cases owner with
  | main => simp [sections, hmain]
  | worker j =>
    by_cases hji : j = i
    · subst hji
      simp [sections]
    · simp [sections, hji]

theorem sections_main {locals' : Fin n → Worker}
    (hl : ∀ i, (locals' i).inSection = (s.locals i).inSection) :
    sections ⟨srv', locals'⟩ = Function.update (sections s) .main srv'.main.inSection := by
  funext owner
  cases owner <;> simp [sections, hl]

theorem WorkerMove.main_eq {i : Fin n} {srv : Server n} {w : Worker}
    (hm : WorkerMove i srv w srv' w') : srv'.main = srv.main := by
  cases hm with
  | serve hw hw' hsame => exact hsame.main
  | _ => rfl

theorem guarded_worker (h : QueueGuarded s) (hm : WorkerMove i s.shared (s.locals i) srv' w') :
    QueueGuarded ⟨srv', Function.update s.locals i w'⟩ := by
  unfold QueueGuarded at h ⊢
  rw [sections_worker hm.main_eq]
  generalize hw : s.locals i = w at hm
  cases hm with
  | lock hfree | relock hfree =>
    rw [hfree] at h
    exact h.acquire
  | wait | unlock fd => exact h.release (by simp [sections, hw, Worker.inSection]) (by
      simp [Worker.inSection])
  | serve hhandling hw' hsame =>
    rw [hsame.mutexQueue]
    apply h.stay
    rcases hw' with hw' | rfl
    · simp [hw'.not_inSection]
    · simp [Worker.inSection]
  | _ => exact h.stay (by simp [sections, hw, Worker.inSection])

theorem guarded_main (h : QueueGuarded s) (hm : MainMove s t) : QueueGuarded t := by
  unfold QueueGuarded at h ⊢
  cases hm with
  | lock fd hpc hfree | lockPills hpc hfree =>
    rw [sections_main fun _ => rfl]
    rw [hfree] at h
    exact h.acquire
  | unlock hpc | unlockPills hpc =>
    rw [sections_main fun _ => rfl]
    exact h.release (by simp [sections, MainPc.inSection, hpc]) (by simp [MainPc.inSection])
  | signal woken hpc hwoken | broadcast hpc =>
    rw [sections_main (inSection_wake _ _)]
    exact h.stay (by simp [sections, MainPc.inSection, hpc])
  | accepted result hpc =>
    rw [sections_main fun _ => rfl]
    cases result <;> exact h.stay (by simp [accepted, Server.goto, MainPc.inSection])
  | guard pc hpc hnext =>
    rw [sections_main fun _ => rfl]
    apply h.stay
    rcases hnext with rfl | rfl <;> simp [Server.goto, MainPc.inSection]
  | _ =>
    rw [sections_main fun _ => rfl]
    exact h.stay (by simp [sections, Server.goto, MainPc.inSection, *])

theorem QueueGuarded.step {a : Action n} (h : QueueGuarded s) (ht : step s a = some t) :
    QueueGuarded t := by
  rcases step_cases ht with ⟨-, hm⟩ | ⟨i, srv', w', hm, -, rfl⟩ | ⟨i, -, hsleep, rfl⟩
  · exact guarded_main h hm
  · exact guarded_worker h hm
  · unfold QueueGuarded at h ⊢
    rw [sections_worker rfl]
    exact h.stay (by simp [Worker.inSection])

theorem QueueGuarded.main_holds (h : QueueGuarded s) (hmain : s.shared.main.inSection = true) :
    s.shared.mutexQueue = some .main :=
  h .main hmain

theorem QueueGuarded.worker_holds (h : QueueGuarded s) (hw : (s.locals i).inSection = true) :
    s.shared.mutexQueue = some (.worker i) :=
  h (.worker i) hw

theorem QueueGuarded.worker_out (h : QueueGuarded s) (hmain : s.shared.main.inSection = true)
    (i : Fin n) : (s.locals i).inSection = false := by
  rw [← Bool.not_eq_true]
  intro hw
  have hmutex := (h.main_holds hmain).symm.trans (h.worker_holds hw)
  cases hmutex

theorem QueueGuarded.worker_unique (h : QueueGuarded s) {j : Fin n}
    (hi : (s.locals i).inSection = true) (hj : (s.locals j).inSection = true) : i = j := by
  have hmutex := (h.worker_holds hi).symm.trans (h.worker_holds hj)
  cases hmutex
  rfl

end Sections

def Worker.carried : Worker → Option ℤ
  | .unlock fd | .check fd => some fd
  | _ => none

def Worker.consumed : Worker → Bool
  | .unlock fd | .check fd => fd = POISON_PILL
  | .exited => true
  | _ => false

def MainPc.inHand : MainPc → List ℤ
  | .lock fd | .push fd => [fd]
  | _ => []

def MainPc.pills (n : ℕ) : MainPc → ℕ
  | .pushPill k => k
  | .broadcast | .unlockPills | .join _ | .returned true => n
  | _ => 0

def MainPc.closed : MainPc → Bool
  | .lockPills | .pushPill _ | .broadcast | .unlockPills | .join _ | .returned _ => true
  | _ => false

abbrev carriers (fd : ℤ) (locals : Fin n → Worker) : ℕ := tally (fun w => w.carried = some fd) locals

abbrev consumers (locals : Fin n → Worker) : ℕ := tally (fun w => w.consumed = true) locals

structure Ledger (s : State n) : Prop where
  sockets : ∀ fd, fd ≠ POISON_PILL → s.shared.history.accepted.count fd =
    s.shared.history.handled.count fd + s.shared.queue.count fd + carriers fd s.locals +
      s.shared.main.inHand.count fd
  accepted : ∀ fd ∈ s.shared.history.accepted, fd ≠ POISON_PILL
  inHand : ∀ fd ∈ s.shared.main.inHand, fd ≠ POISON_PILL
  handled : ∀ fd ∈ s.shared.history.handled, fd ≠ POISON_PILL
  pills : s.shared.queue.count POISON_PILL + consumers s.locals = s.shared.main.pills n
  pushed : ∀ k, s.shared.main = .pushPill k → k ≤ n
  last : PillsLast POISON_PILL s.shared.queue
  drained : ∀ i, (s.locals i).consumed = true → ∀ v ∈ s.shared.queue, v = POISON_PILL

theorem Ledger.init (n : ℕ) : Ledger (init n) := by
  have hcarriers : ∀ fd, carriers fd (HttpServer.init n).locals = 0 :=
    fun fd => tally_eq_zero_iff.mpr fun i h => by cases h
  have hconsumers : consumers (HttpServer.init n).locals = 0 :=
    tally_eq_zero_iff.mpr fun i => Bool.false_ne_true
  refine ⟨fun fd _ => ?_, ?_, ?_, ?_, ?_, fun k h => (by cases h), .nil, ?_⟩
  · rw [hcarriers]
    rfl
  · simp [HttpServer.init]
  · simp [HttpServer.init, MainPc.inHand]
  · simp [HttpServer.init]
  · rw [hconsumers]
    rfl
  · simp [HttpServer.init]

section WorkerLedger

variable {i : Fin n} {srv srv' : Server n} {w w' : Worker}

theorem Worker.Handling.carried (h : w.Handling) : w.carried = none ∧ w.consumed = false := by
  cases w <;> first | exact ⟨rfl, rfl⟩ | cases h

theorem handling_or_lock (h : w.Handling ∨ w = .lock) : w.carried = none ∧ w.consumed = false := by
  rcases h with h | rfl
  · exact h.carried
  · exact ⟨rfl, rfl⟩

theorem WorkerMove.accepted_eq (hm : WorkerMove i srv w srv' w') :
    srv'.history.accepted = srv.history.accepted := by
  cases hm with
  | serve hw hw' hsame => exact hsame.accepted
  | _ => rfl

theorem WorkerMove.sockets (hm : WorkerMove i srv w srv' w') {fd : ℤ} (hfd : fd ≠ POISON_PILL) :
    srv'.history.handled.count fd + srv'.queue.count fd + (if w'.carried = some fd then 1 else 0) =
      srv.history.handled.count fd + srv.queue.count fd + if w.carried = some fd then 1 else 0 := by
  cases hm with
  | pop fd' queue hq =>
    by_cases heq : fd' = fd
    · simp [hq, heq, Worker.carried, Nat.add_assoc]
    · simp [hq, heq, Worker.carried]
  | pill => simp [Worker.carried, Ne.symm hfd]
  | handle fd' hfd' =>
    by_cases heq : fd' = fd
    · simp only [heq, Worker.carried, List.count_append, List.count_singleton_self, if_true,
        reduceCtorEq, if_false]
      omega
    · simp [heq, Worker.carried]
  | serve hw hw' hsame =>
    rw [hsame.handled, hsame.queue, hw.carried.1, (handling_or_lock hw').1]
  | _ => rfl

theorem WorkerMove.pills (hm : WorkerMove i srv w srv' w') :
    srv'.queue.count POISON_PILL + (if w'.consumed = true then 1 else 0) =
      srv.queue.count POISON_PILL + if w.consumed = true then 1 else 0 := by
  cases hm with
  | pop fd queue hq =>
    by_cases heq : fd = POISON_PILL
    · simp [hq, heq, Worker.consumed]
    · simp [hq, heq, Worker.consumed]
  | pill => simp [Worker.consumed]
  | handle fd hfd => simp [Worker.consumed, hfd]
  | serve hw hw' hsame => rw [hsame.queue, hw.carried.2, (handling_or_lock hw').2]
  | _ => rfl

theorem WorkerMove.queue_suffix (hm : WorkerMove i srv w srv' w') :
    srv'.queue = srv.queue ∧ (w'.consumed = true → w.consumed = true) ∨
      ∃ fd, srv.queue = fd :: srv'.queue ∧ w = .pop ∧ w' = .unlock fd := by
  cases hm with
  | pop fd queue hq => exact .inr ⟨fd, hq, rfl, rfl⟩
  | serve hw hw' hsame =>
    refine .inl ⟨hsame.queue, fun h => ?_⟩
    rw [(handling_or_lock hw').2] at h
    cases h
  | pill => exact .inl ⟨rfl, fun _ => rfl⟩
  | _ => exact .inl ⟨rfl, fun h => by first | exact h | cases h⟩

theorem WorkerMove.handled (hm : WorkerMove i srv w srv' w')
    (h : ∀ fd ∈ srv.history.handled, fd ≠ POISON_PILL) :
    ∀ fd ∈ srv'.history.handled, fd ≠ POISON_PILL := by
  cases hm with
  | handle fd hfd =>
    intro v hv
    rcases List.mem_append.mp hv with hv | hv
    · exact h v hv
    · rw [List.mem_singleton.mp hv]
      exact hfd
  | serve hw hw' hsame =>
    rw [hsame.handled]
    exact h
  | _ => exact h

end WorkerLedger

namespace Ledger

theorem no_pill (h : Ledger s) (hpills : s.shared.main.pills n = 0) :
    POISON_PILL ∉ s.shared.queue ∧ ∀ i, (s.locals i).consumed = false := by
  have hcount := h.pills
  constructor
  · exact List.count_eq_zero.mp (by omega)
  · intro i
    have hnone : consumers s.locals = 0 := by omega
    exact Bool.not_eq_true _ ▸ tally_eq_zero_iff.mp hnone i

theorem worker {i : Fin n} {srv' : Server n} {w' : Worker} (h : Ledger s)
    (hm : WorkerMove i s.shared (s.locals i) srv' w') :
    Ledger ⟨srv', Function.update s.locals i w'⟩ := by
  have hmain := hm.main_eq
  refine ⟨fun fd hfd => ?_, ?_, ?_, hm.handled h.handled, ?_, ?_, ?_, fun j hj v hv => ?_⟩
  · have hmoved := hm.sockets hfd
    have htally : carriers fd (Function.update s.locals i w') + _ = carriers fd s.locals + _ :=
      tally_update _ s.locals i w'
    have hold := h.sockets fd hfd
    simp only [hm.accepted_eq, hmain]
    omega
  · simpa only [hm.accepted_eq] using h.accepted
  · simpa only [hmain] using h.inHand
  · have hmoved := hm.pills
    have htally : consumers (Function.update s.locals i w') + _ = consumers s.locals + _ :=
      tally_update _ s.locals i w'
    have hold := h.pills
    simp only [hmain]
    omega
  · simpa only [hmain] using h.pushed
  · rcases hm.queue_suffix with ⟨hq, -⟩ | ⟨fd, hq, -⟩
    · simpa only [hq] using h.last
    · have hlast := h.last
      rw [hq] at hlast
      exact hlast.tail
  · have hlast := h.last
    by_cases hji : j = i
    · subst hji
      simp only [Function.update_self] at hj
      rcases hm.queue_suffix with ⟨hq, hold⟩ | ⟨fd, hq, -, rfl⟩
      · exact h.drained j (hold hj) v (hq ▸ hv)
      · rw [hq, of_decide_eq_true hj] at hlast
        exact hlast.all_of_head v hv
    · simp only [Function.update_of_ne hji] at hj
      apply h.drained j hj v
      rcases hm.queue_suffix with ⟨hq, -⟩ | ⟨fd, hq, -⟩
      · exact hq ▸ hv
      · rw [hq]
        exact List.mem_cons_of_mem _ hv

theorem spurious {i : Fin n} (h : Ledger s) (hsleep : s.locals i = .sleep) :
    Ledger ⟨s.shared, Function.update s.locals i .relock⟩ := by
  refine ⟨fun fd hfd => ?_, h.accepted, h.inHand, h.handled, ?_, h.pushed, h.last,
    fun j hj => ?_⟩
  · rw [carriers, tally_update_of_iff (by simp [hsleep, Worker.carried])]
    exact h.sockets fd hfd
  · rw [consumers, tally_update_of_iff (by simp [hsleep, Worker.consumed])]
    exact h.pills
  · have hsame : Worker.consumed .relock = (s.locals i).consumed := by rw [hsleep]; rfl
    have hupdate := field_update Worker.consumed hsame j
    exact h.drained j (hupdate.symm.trans hj)

end Ledger

theorem carried_wake (woken : Finset (Fin n)) (locals : Fin n → Worker) (i : Fin n) :
    (wake woken locals i).carried = (locals i).carried :=
  field_wake Worker.carried rfl woken locals i

theorem carriers_wake (fd : ℤ) (woken : Finset (Fin n)) (locals : Fin n → Worker) :
    carriers fd (wake woken locals) = carriers fd locals :=
  tally_congr fun i => by rw [carried_wake]

theorem consumed_wake (woken : Finset (Fin n)) (locals : Fin n → Worker) (i : Fin n) :
    (wake woken locals i).consumed = (locals i).consumed :=
  field_wake Worker.consumed rfl woken locals i

theorem consumers_wake (woken : Finset (Fin n)) (locals : Fin n → Worker) :
    consumers (wake woken locals) = consumers locals :=
  tally_congr fun i => by rw [consumed_wake]

namespace Ledger

theorem woken (h : Ledger s) (woken : Finset (Fin n)) {pc : MainPc}
    (hhand : pc.inHand = s.shared.main.inHand) (hpills : pc.pills n = s.shared.main.pills n)
    (hpushed : ∀ k, pc ≠ .pushPill k) : Ledger ⟨s.shared.goto pc, wake woken s.locals⟩ := by
  refine ⟨fun fd hfd => ?_, h.accepted, ?_, h.handled, ?_, fun k hk => absurd hk (hpushed k),
    h.last, fun i hi => ?_⟩
  · simp only [carriers_wake, Server.goto, hhand]
    exact h.sockets fd hfd
  · simpa only [Server.goto, hhand] using h.inHand
  · simp only [consumers_wake, Server.goto, hpills]
    exact h.pills
  · simp only [consumed_wake] at hi
    exact h.drained i hi

theorem goto (h : Ledger s) {srv' : Server n} (hqueue : srv'.queue = s.shared.queue)
    (hhistory : srv'.history = s.shared.history)
    (hhand : srv'.main.inHand = s.shared.main.inHand)
    (hpills : srv'.main.pills n = s.shared.main.pills n)
    (hpushed : ∀ k, srv'.main = .pushPill k → k ≤ n) : Ledger ⟨srv', s.locals⟩ := by
  refine ⟨fun fd hfd => ?_, ?_, ?_, ?_, ?_, hpushed, ?_, fun i hi => ?_⟩
  · simpa only [hqueue, hhistory, hhand] using h.sockets fd hfd
  · simpa only [hhistory] using h.accepted
  · simpa only [hhand] using h.inHand
  · simpa only [hhistory] using h.handled
  · simpa only [hqueue, hpills] using h.pills
  · simpa only [hqueue] using h.last
  · simpa only [hqueue] using h.drained i hi

theorem socket (h : Ledger s) (hpc : s.shared.main = .accept) (fd : ℕ) :
    Ledger ⟨HttpServer.accepted s.shared (.socket fd), s.locals⟩ := by
  have hpill : (fd : ℤ) ≠ POISON_PILL := by
    unfold POISON_PILL
    omega
  refine ⟨fun v hv => ?_, ?_, ?_, h.handled, ?_, fun k hk => (by cases hk), h.last, h.drained⟩
  · have hold := h.sockets v hv
    simp only [hpc, MainPc.inHand, List.count_nil, Nat.add_zero] at hold
    simp only [HttpServer.accepted, MainPc.inHand, List.count_append, hold]
  · intro v hv
    rcases List.mem_append.mp hv with hv | hv
    · exact h.accepted v hv
    · rw [List.mem_singleton.mp hv]
      exact hpill
  · intro v hv
    rw [List.mem_singleton.mp hv]
    exact hpill
  · have hold := h.pills
    simp only [hpc] at hold
    exact hold

theorem push (h : Ledger s) {fd : ℤ} (hpc : s.shared.main = .push fd) :
    Ledger ⟨(s.shared.push fd).goto .signal, s.locals⟩ := by
  obtain ⟨hnone, hconsumed⟩ := h.no_pill (by rw [hpc]; rfl)
  have hpill : fd ≠ POISON_PILL := h.inHand fd (by rw [hpc]; exact List.mem_singleton_self fd)
  refine ⟨fun v hv => ?_, h.accepted, ?_, h.handled, ?_, fun k hk => (by cases hk),
    h.last.push_item hnone, fun i hi => ?_⟩
  · have hold := h.sockets v hv
    simp only [hpc, MainPc.inHand] at hold
    simp only [Server.push, Server.goto, MainPc.inHand, List.count_append, List.count_nil]
    omega
  · intro v hv
    cases hv
  · have hold := h.pills
    simp only [hpc, MainPc.pills] at hold
    simp only [Server.push, Server.goto, MainPc.pills, List.count_append,
      List.count_eq_zero.mpr (show POISON_PILL ∉ [fd] by simpa using Ne.symm hpill)]
    omega
  · rw [hconsumed i] at hi
    cases hi

theorem pushPill (h : Ledger s) {k : ℕ} (hpc : s.shared.main = .pushPill k) (hk : k < n) :
    Ledger ⟨(s.shared.push POISON_PILL).goto (.pushPill (k + 1)), s.locals⟩ := by
  refine ⟨fun v hv => ?_, h.accepted, ?_, h.handled, ?_, fun j hj => ?_, h.last.push_pill,
    fun i hi v hv => ?_⟩
  · have hold := h.sockets v hv
    simp only [hpc, MainPc.inHand] at hold
    simp only [Server.push, Server.goto, MainPc.inHand, List.count_append,
      List.count_eq_zero.mpr (show v ∉ [POISON_PILL] by simpa using hv)]
    omega
  · intro v hv
    cases hv
  · have hold := h.pills
    simp only [hpc, MainPc.pills] at hold
    simp only [Server.push, Server.goto, MainPc.pills, List.count_append,
      List.count_singleton_self]
    omega
  · cases hj
    exact hk
  · rcases List.mem_append.mp hv with hv | hv
    · exact h.drained i hi v hv
    · exact List.mem_singleton.mp hv

theorem main (h : Ledger s) (hm : MainMove s t) : Ledger t := by
  cases hm with
  | guard pc hpc hnext =>
    rcases hnext with rfl | rfl <;>
      exact h.goto rfl rfl (by rw [hpc]; rfl) (by rw [hpc]; rfl) (fun k hk => by cases hk)
  | accepted result hpc =>
    cases result with
    | socket fd => exact h.socket hpc fd
    | interrupted | error =>
      exact h.goto rfl rfl (by rw [hpc]; rfl) (by rw [hpc]; rfl) (fun k hk => by cases hk)
  | push fd hpc => exact h.push hpc
  | signal woken hpc hwoken =>
    exact h.woken woken (by rw [hpc]; rfl) (by rw [hpc]; rfl) (fun k hk => by cases hk)
  | broadcast hpc =>
    exact h.woken _ (by rw [hpc]; rfl) (by rw [hpc]; rfl) (fun k hk => by cases hk)
  | lockPills hpc hfree =>
    refine h.goto rfl rfl (by rw [hpc]; rfl) (by rw [hpc]; rfl) fun k hk => ?_
    cases hk
    exact Nat.zero_le n
  | pushPill k hpc hk => exact h.pushPill hpc hk
  | allPills k hpc hk =>
    have hn : k = n := Nat.le_antisymm (h.pushed k hpc) hk
    subst hn
    exact h.goto rfl rfl (by rw [hpc]; rfl) (by rw [hpc]; rfl) (fun k hk => by cases hk)
  | lock fd hpc hfree | unlock hpc | unlockPills hpc | join k hpc hk | joined k hpc hk =>
    exact h.goto rfl rfl (by rw [hpc]; rfl) (by rw [hpc]; rfl) (fun k hk => by cases hk)

theorem step {a : Action n} (h : Ledger s) (ht : HttpServer.step s a = some t) : Ledger t := by
  rcases step_cases ht with ⟨-, hm⟩ | ⟨i, srv', w', hm, -, rfl⟩ | ⟨i, -, hsleep, rfl⟩
  · exact h.main hm
  · exact h.worker hm
  · exact h.spurious hsleep

end Ledger

end PsOs.HttpServer
