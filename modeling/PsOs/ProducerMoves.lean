import PsOs.ProducerConsumer

namespace PsOs.ProducerConsumer

open Threads TransitionSystems

variable {c n : ℕ} {task : Task}

inductive ConsumerMove (task : Task) (i : Fin c) (srv : Server c) (consumer : Consumer) :
    Server c → Consumer → Prop
  | poll (pc : ConsumerPc) (hpc : consumer.pc = .poll) (hnext : pc = .poll ∨ pc = .lock) :
      ConsumerMove task i srv consumer srv (consumer.goto pc)
  | lock (hpc : consumer.pc = .lock ∨ consumer.pc = .relock) (hfree : srv.mutex = none) :
      ConsumerMove task i srv consumer { srv with mutex := some (.consumer i) }
        (consumer.goto .check)
  | pass (hpc : consumer.pc = .check) (hq : srv.queue = []) (htask : task = .task2) :
      ConsumerMove task i srv consumer srv (consumer.goto (.unlock 0))
  | starve (hpc : consumer.pc = .check) (hq : srv.queue = []) (htask : task = .task3) :
      ConsumerMove task i srv consumer srv (consumer.goto .wait)
  | find (hpc : consumer.pc = .check) (hq : srv.queue ≠ []) :
      ConsumerMove task i srv consumer srv (consumer.goto .pop)
  | wait (hpc : consumer.pc = .wait) :
      ConsumerMove task i srv consumer { srv with mutex := none } (consumer.goto .sleep)
  | pop (value : ℤ) (queue : List ℤ) (hpc : consumer.pc = .pop) (hq : srv.queue = value :: queue) :
      ConsumerMove task i srv consumer
        { srv with queue, taken := srv.taken ++ [(i, value)] } (consumer.goto (.unlock value))
  | abort (hpc : consumer.pc = .pop) (hq : srv.queue = []) :
      ConsumerMove task i srv consumer srv (consumer.goto .aborted)
  | unlock (temp : ℤ) (hpc : consumer.pc = .unlock temp) :
      ConsumerMove task i srv consumer { srv with mutex := none } (consumer.goto (.test temp))
  | pill (hpc : consumer.pc = .test INT_MAX) :
      ConsumerMove task i srv consumer srv (consumer.goto .print)
  | add (temp : ℤ) (hpc : consumer.pc = .test temp) (htemp : temp ≠ INT_MAX) :
      ConsumerMove task i srv consumer srv ⟨.lock, consumer.sum + temp⟩
  | print (hpc : consumer.pc = .print) :
      ConsumerMove task i srv consumer srv (consumer.goto .exited)

theorem stepConsumer_move {i : Fin c} {empty : Bool} {srv srv' : Server c}
    {consumer consumer' : Consumer}
    (h : stepConsumer task i empty srv consumer = some (srv', consumer')) :
    ConsumerMove task i srv consumer srv' consumer' := by
  unfold stepConsumer at h
  cases hpc : consumer.pc <;> simp only [hpc] at h
  case poll =>
    split at h <;> cases h
    apply ConsumerMove.poll _ hpc
    cases empty
    · exact .inr rfl
    · exact .inl rfl
  case lock =>
    simp only [Option.map_eq_some_iff, acquire_eq_some] at h
    obtain ⟨m, ⟨hfree, rfl⟩, h⟩ := h
    cases h
    exact .lock (.inl hpc) hfree
  case relock =>
    simp only [Option.map_eq_some_iff, acquire_eq_some] at h
    obtain ⟨m, ⟨hfree, rfl⟩, h⟩ := h
    cases h
    exact .lock (.inr hpc) hfree
  case check =>
    split at h
    · split at h <;> cases h
      · exact .pass hpc ‹_› rfl
      · exact .starve hpc ‹_› rfl
    · cases h
      exact .find hpc ‹_›
  case wait =>
    cases h
    exact .wait hpc
  case pop =>
    split at h <;> cases h
    · exact .abort hpc ‹_›
    · exact .pop _ _ hpc ‹_›
  case unlock temp =>
    cases h
    exact .unlock temp hpc
  case test temp =>
    split at h
    case isTrue htemp =>
      cases h
      exact .pill (htemp ▸ hpc)
    case isFalse htemp =>
      cases h
      exact .add temp hpc htemp
  case print =>
    cases h
    exact .print hpc
  all_goals cases h

inductive MainMove (task : Task) (n : ℕ) (s : State c) : State c → Prop
  | create (i : Fin c) (hpc : s.shared.main = .create i) (hn : i.val < n) :
      MainMove task n s ⟨s.shared.goto (.create (i + 1)),
        Function.update s.locals i ((s.locals i).goto task.entry)⟩
  | createOverrun (i : ℕ) (hpc : s.shared.main = .create i) (hi : i < c) (hn : n ≤ i) :
      MainMove task n s { s with shared := s.shared.goto .overrun }
  | failed (i : ℕ) (hpc : s.shared.main = .create i) (hi : i < c) :
      MainMove task n s { s with shared := s.shared.goto .failed }
  | created (i : ℕ) (hpc : s.shared.main = .create i) (hi : c ≤ i) :
      MainMove task n s { s with shared := s.shared.goto (.values 0) }
  | value (i : ℕ) (hpc : s.shared.main = .values i) (hi : i < n) :
      MainMove task n s { s with shared := s.shared.goto (.lock (.value i)) }
  | valuesDone (i : ℕ) (hpc : s.shared.main = .values i) (hi : n ≤ i) :
      MainMove task n s { s with shared := s.shared.goto (.pills 0) }
  | pill (i : ℕ) (hpc : s.shared.main = .pills i) (hi : i < c) :
      MainMove task n s { s with shared := s.shared.goto (.lock (.pill i)) }
  | pillsDone (i : ℕ) (hpc : s.shared.main = .pills i) (hi : c ≤ i) :
      MainMove task n s { s with shared := s.shared.goto task.closing }
  | lock (element : Element) (hpc : s.shared.main = .lock element)
      (hfree : s.shared.mutex = none) :
      MainMove task n s { s with shared := { s.shared with
        mutex := some .main, main := .push element } }
  | push (element : Element) (hpc : s.shared.main = .push element) :
      MainMove task n s { s with
        shared := (s.shared.myqueue_push element.num).goto (task.pushed element) }
  | signal (element : Element) (woken : Finset (Fin c)) (hpc : s.shared.main = .signal element)
      (hwoken : (∃ i, (s.locals i).pc = .sleep) → ∃ i ∈ woken, (s.locals i).pc = .sleep) :
      MainMove task n s ⟨s.shared.goto (.unlock element), wake woken s.locals⟩
  | unlock (element : Element) (hpc : s.shared.main = .unlock element) :
      MainMove task n s { s with shared := { s.shared with mutex := none, main := element.next } }
  | broadcast (hpc : s.shared.main = .broadcast) :
      MainMove task n s ⟨s.shared.goto (.join 0 0), wake Finset.univ s.locals⟩
  | joinOverrun (i : ℕ) (sum : ℤ) (hpc : s.shared.main = .join i sum) (hi : i < c) (hn : n ≤ i) :
      MainMove task n s { s with shared := s.shared.goto .overrun }
  | join (i : Fin c) (sum : ℤ) (hpc : s.shared.main = .join i sum)
      (hexited : (s.locals i).pc = .exited) :
      MainMove task n s { s with
        shared := s.shared.goto (.join (i + 1) (addInt sum (s.locals i).sum)) }
  | joined (i : ℕ) (sum : ℤ) (hpc : s.shared.main = .join i sum) (hi : c ≤ i) :
      MainMove task n s { s with shared := s.shared.goto (.finished sum) }

theorem stepMain_move {s t : State c} (h : stepMain task n s = some t) : MainMove task n s t := by
  unfold stepMain at h
  cases hpc : s.shared.main <;> simp only [hpc] at h
  case create i =>
    split at h
    · split at h <;> cases h
      · exact .create ⟨i, _⟩ hpc ‹_›
      · exact .createOverrun i hpc ‹_› (not_lt.mp ‹_›)
    · cases h
      exact .created i hpc (not_lt.mp ‹_›)
  case values i =>
    cases h
    split
    · exact .value i hpc ‹_›
    · exact .valuesDone i hpc (not_lt.mp ‹_›)
  case pills i =>
    cases h
    split
    · exact .pill i hpc ‹_›
    · exact .pillsDone i hpc (not_lt.mp ‹_›)
  case lock element =>
    simp only [Option.map_eq_some_iff, acquire_eq_some] at h
    obtain ⟨m, ⟨hfree, rfl⟩, rfl⟩ := h
    exact .lock element hpc hfree
  case push element =>
    cases h
    exact .push element hpc
  case unlock element =>
    cases h
    exact .unlock element hpc
  case broadcast =>
    cases h
    exact .broadcast hpc
  case join i sum =>
    split at h
    · split at h
      · cases h
        exact .joinOverrun i sum hpc ‹_› ‹_›
      · split at h <;> cases h
        exact .join ⟨i, _⟩ sum hpc ‹_›
    · cases h
      exact .joined i sum hpc (not_lt.mp ‹_›)
  all_goals cases h

inductive Move (task : Task) (n : ℕ) (s : State c) : State c → Prop
  | main {t : State c} (hm : MainMove task n s t) : Move task n s t
  | consumer (i : Fin c) {srv' : Server c} {consumer' : Consumer}
      (hm : ConsumerMove task i s.shared (s.locals i) srv' consumer') :
      Move task n s ⟨srv', Function.update s.locals i consumer'⟩
  | spurious (i : Fin c) (hpc : (s.locals i).pc = .sleep) :
      Move task n s ⟨s.shared, Function.update s.locals i ((s.locals i).goto .relock)⟩

theorem step_move {s t : State c} {a : Action c} (h : step task n s a = some t) :
    Move task n s t := by
  cases a with
  | main => exact .main (stepMain_move h)
  | createFails =>
    simp only [step] at h
    split at h
    · split at h <;> cases h
      exact .main (.failed _ ‹_› ‹_›)
    · cases h
  | signal woken =>
    simp only [step, stepSignal] at h
    split at h
    · split at h <;> cases h
      exact .main (.signal _ woken ‹_› ‹_›)
    · cases h
  | consumer i empty =>
    simp only [step] at h
    split at h
    · cases h
    · obtain ⟨srv', consumer', hm, rfl⟩ := Config.move_eq_some.mp h
      exact .consumer i (stepConsumer_move hm)
  | spurious i =>
    simp only [step] at h
    split at h <;> cases h
    exact .spurious i ‹_›

theorem reachable_create (task : Task) {i : ℕ} (hi : i ≤ c) (hn : i ≤ n) :
    ∃ s, Reachable (step task n) (init c) s ∧ s.shared.main = .create i := by
  induction i with
  | zero => exact ⟨init c, .refl, rfl⟩
  | succ i ih =>
    obtain ⟨s, hs, hmain⟩ := ih (Nat.le_of_succ_le hi) (Nat.le_of_succ_le hn)
    have hstep : step task n s .main = some ⟨s.shared.goto (.create (i + 1)),
        Function.update s.locals ⟨i, hi⟩ ((s.locals ⟨i, hi⟩).goto task.entry)⟩ := by
      rw [step, stepMain, hmain]
      exact (dif_pos hi).trans (if_pos hn)
    exact ⟨_, hs.tail hstep, rfl⟩

/-- With more consumers than elements the creation loop leaves `tid`. -/
theorem reachable_overrun (task : Task) (h : n < c) :
    ∃ s, Reachable (step task n) (init c) s ∧ s.shared.main = .overrun := by
  obtain ⟨s, hs, hmain⟩ := reachable_create task h.le le_rfl
  have hstep : step task n s .main = some { s with shared := s.shared.goto .overrun } := by
    rw [step, stepMain, hmain]
    exact (dif_pos h).trans (if_neg (lt_irrefl n))
  exact ⟨_, hs.tail hstep, rfl⟩

theorem inside_step (hcn : c ≤ n) {s t : State c} {a : Action c}
    (hs : s.shared.main ≠ .overrun) (ht : step task n s a = some t) :
    t.shared.main ≠ .overrun := by
  intro hmain
  cases step_move ht with
  | main hm =>
    cases hm with
    | createOverrun i hpc hi hn | joinOverrun i sum hpc hi hn =>
      exact absurd (hi.trans_le hcn) (not_lt.mpr hn)
    | push element hpc | pillsDone i hpc hi => cases task <;> cases hmain
    | unlock element hpc => cases element <;> cases hmain
    | _ => cases hmain
  | consumer i hm => cases hm <;> exact hs hmain
  | spurious i hpc => exact hs hmain

theorem not_overrun (hcn : c ≤ n) {s : State c} (h : Reachable (step task n) (init c) s) :
    s.shared.main ≠ .overrun := by
  apply h.invariant fun s => s.shared.main ≠ .overrun
  · intro hmain
    cases hmain
  · exact fun _ _ _ hs ht => inside_step hcn hs ht

end PsOs.ProducerConsumer
