import PsOs.ProducerConservation

namespace PsOs.ProducerConsumer

open Threads TransitionSystems

variable {c n : ℕ} {s t : State c}

def Consumer.returns (consumer : Consumer) : Prop :=
  ¬ consumer.pc.tookPill = true ∧ consumer.pc ≠ .sleep

instance : DecidablePred Consumer.returns :=
  fun consumer => inferInstanceAs (Decidable (¬ consumer.pc.tookPill = true ∧ _))

def MainPc.unsignalled : MainPc → ℕ
  | .signal _ => 1
  | _ => 0

structure Wakeups (s : State c) : Prop where
  held : Held s.shared.mutex (· = true) (sections s)
  born : ∀ i, (s.locals i).pc = .unborn →
    s.shared.main = .failed ∨ ∃ k ≤ i.val, s.shared.main = .create k
  starved : ∀ i, (s.locals i).pc = .wait → s.shared.queue = []
  matched : ∀ i, (s.locals i).pc = .sleep →
    s.shared.queue.length ≤ tally Consumer.returns s.locals + s.shared.main.unsignalled

section Main

theorem held_main (h : Inv n s) (hw : Wakeups s) (hm : MainMove .task3 n s t) :
    Held t.shared.mutex (· = true) (sections t) := by
  rw [sections_main (hm.restarted h.unborn)]
  have hheld := hw.held
  cases hm with
  | lock element hpc hfree => exact Held.acquire rfl
  | unlock element hpc => exact Held.none
  | push element hpc | signal element woken hpc hwoken => exact hheld.stay fun _ => rfl
  | _ => exact hheld.stay fun hin => by simp [sections, MainPc.inSection, *] at hin

theorem born_main (hcn : c ≤ n) (hw : Wakeups s) (hm : MainMove .task3 n s t) (i : Fin c)
    (hi : (t.locals i).pc = .unborn) :
    t.shared.main = .failed ∨ ∃ k ≤ i.val, t.shared.main = .create k := by
  have hborn := hw.born i
  cases hm with
  | create j hpc =>
    by_cases hij : i = j
    · subst hij
      simp [Consumer.goto, Task.entry] at hi
    · simp only [Function.update_of_ne hij] at hi
      obtain hfailed | ⟨k, hk, hcreate⟩ := hborn hi
      · rw [hfailed] at hpc
        cases hpc
      · rw [hpc] at hcreate
        cases hcreate
        have hne : i.val ≠ j.val := fun heq => hij (Fin.ext heq)
        exact .inr ⟨j + 1, by omega, rfl⟩
  | createOverrun k hpc hk hn | joinOverrun k sum hpc hk hn =>
    exact absurd (hk.trans_le hcn) (not_lt.mpr hn)
  | failed k hpc hk => exact .inl rfl
  | created k hpc hk =>
    obtain hfailed | ⟨k', hk', hcreate⟩ := hborn hi
    · rw [hfailed] at hpc
      cases hpc
    · rw [hpc] at hcreate
      cases hcreate
      exact absurd i.isLt (by omega)
  | signal element woken hpc hwoken | broadcast hpc =>
    have hold : (s.locals i).pc = .unborn := by
      simp only [wake] at hi
      split at hi
      · cases hi
      · exact hi
    simpa [hpc] using hborn hold
  | _ => simpa [*] using hborn hi

theorem starved_main (h : Inv n s) (hw : Wakeups s) (hm : MainMove .task3 n s t) (i : Fin c)
    (hi : (t.locals i).pc = .wait) : t.shared.queue = [] := by
  have hr := hm.restarted h.unborn
  have hold : (s.locals i).pc = .wait := by
    have hsame := hr.field (fun pc => decide (pc = .wait)) rfl rfl rfl rfl rfl i
    exact (decide_eq_decide.mp hsame).mp hi
  have hstarved := hw.starved i hold
  cases hm with
  | push element hpc =>
    have hmain : sections s .main = true := by simp [sections, hpc, MainPc.inSection]
    have hin : sections s (.consumer i) = true := by simp [sections, hold, ConsumerPc.inSection]
    cases h.guards.exclusive hmain hin
  | _ => exact hstarved

theorem wake_sleep {woken : Finset (Fin c)} {locals : Fin c → Consumer} {i : Fin c}
    (h : (wake woken locals i).pc = .sleep) : (locals i).pc = .sleep ∧ i ∉ woken := by
  unfold wake at h
  split at h
  case isTrue => cases h
  case isFalse hnot => exact ⟨h, fun hi => hnot ⟨h, hi⟩⟩

theorem tally_wake {woken : Finset (Fin c)} {locals : Fin c → Consumer} {i : Fin c}
    (hi : (locals i).pc = .sleep) (hwoken : i ∈ woken) :
    tally Consumer.returns locals < tally Consumer.returns (wake woken locals) := by
  have hwake : wake woken locals i = (locals i).goto .relock := if_pos ⟨hi, hwoken⟩
  apply tally_lt_tally (i := i)
  · intro j hj
    unfold wake
    split
    case isTrue => exact ⟨Bool.false_ne_true, nofun⟩
    case isFalse => exact hj
  · exact fun hreturns => hreturns.2 hi
  · rw [hwake]
    exact ⟨Bool.false_ne_true, nofun⟩

theorem matched_main (h : Inv n s) (hw : Wakeups s) (hm : MainMove .task3 n s t) (i : Fin c)
    (hi : (t.locals i).pc = .sleep) :
    t.shared.queue.length ≤ tally Consumer.returns t.locals + t.shared.main.unsignalled := by
  have hmatched := hw.matched i
  cases hm with
  | create j hpc =>
    have hunborn := h.unborn j hpc j (Nat.le_refl _)
    by_cases hij : i = j
    · subst hij
      simp [Consumer.goto, Task.entry] at hi
    · simp only [Function.update_of_ne hij] at hi
      have hreturns : ((s.locals j).goto Task.task3.entry).returns ↔ (s.locals j).returns := by
        simp [Consumer.returns, Consumer.goto, Task.entry, ConsumerPc.tookPill, hunborn]
      rw [tally_update_of_iff hreturns]
      have hle := hmatched hi
      simp only [hpc] at hle
      exact hle
  | push element hpc =>
    have hle := hmatched hi
    simp only [hpc, MainPc.unsignalled] at hle
    simpa [Server.myqueue_push, Server.goto, Task.pushed, MainPc.unsignalled] using hle
  | signal element woken hpc hwoken =>
    obtain ⟨hsleep, -⟩ := wake_sleep hi
    have hle := hmatched hsleep
    obtain ⟨j, hj, hjsleep⟩ := hwoken ⟨i, hsleep⟩
    have hlt := tally_wake hjsleep hj
    simp only [hpc, MainPc.unsignalled] at hle
    exact hle.trans hlt
  | broadcast hpc => exact absurd (Finset.mem_univ i) (wake_sleep hi).2
  | unlock element hpc =>
    have hle := hmatched hi
    simp only [hpc] at hle
    cases element <;> exact hle
  | _ =>
    have hle := hmatched hi
    simp only [*] at hle
    exact hle

end Main

section Consumers

variable {i : Fin c} {srv srv' : Server c} {consumer consumer' : Consumer}

theorem held_consumer (h : Inv n s) (hw : Wakeups s)
    (hm : ConsumerMove .task3 i s.shared (s.locals i) srv' consumer') :
    Held srv'.mutex (· = true) (sections ⟨srv', Function.update s.locals i consumer'⟩) := by
  rw [sections_consumer hm.frame.1]
  have hheld := hw.held
  cases hm with
  | lock hpc hfree => exact Held.acquire rfl
  | wait hpc | unlock temp hpc => exact Held.none
  | pass hpc hq htask | starve hpc hq htask | find hpc hq | pop value queue hpc hq =>
    exact hheld.stay fun _ => rfl
  | abort hpc hq => exact absurd hq (h.found i hpc)
  | _ => exact hheld.stay fun hin => by simp [sections, ConsumerPc.inSection, *] at hin

theorem ConsumerMove.starved (hm : ConsumerMove .task3 i srv consumer srv' consumer')
    (hq : srv.queue = []) : srv'.queue = [] := by
  cases hm with
  | pop value queue hpc hq' =>
    rw [hq] at hq'
    cases hq'
  | _ => exact hq

theorem ConsumerMove.starves (hm : ConsumerMove .task3 i srv consumer srv' consumer')
    (hwait : consumer'.pc = .wait) : srv'.queue = [] := by
  cases hm with
  | starve hpc hq htask => exact hq
  | poll pc hpc hnext => rcases hnext with rfl | rfl <;> cases hwait
  | _ => cases hwait

theorem ConsumerMove.supply (hm : ConsumerMove .task3 i srv consumer srv' consumer')
    (hstarved : consumer.pc = .wait → srv.queue = []) : srv'.queue = [] ∨
      consumer'.pc ≠ .sleep ∧ srv'.queue.length + (if consumer.returns then 1 else 0) ≤
        srv.queue.length + (if consumer'.returns then 1 else 0) := by
  cases hm with
  | wait hpc => exact .inl (hstarved hpc)
  | starve hpc hq htask | abort hpc hq => exact .inl hq
  | pass hpc hq htask => cases htask
  | poll pc hpc hnext =>
    refine .inr ⟨?_, ?_⟩ <;> rcases hnext with rfl | rfl <;>
      simp [Consumer.returns, Consumer.goto, ConsumerPc.tookPill, hpc]
  | lock hpc hfree =>
    refine .inr ⟨?_, ?_⟩
    · rintro ⟨⟩
    · rcases hpc with hpc | hpc <;>
        simp [Consumer.returns, Consumer.goto, ConsumerPc.tookPill, hpc]
  | pop value queue hpc hq =>
    refine .inr ⟨?_, ?_⟩
    · rintro ⟨⟩
    · simp [Consumer.returns, ConsumerPc.tookPill, hpc, hq]
  | _ =>
    refine .inr ⟨?_, ?_⟩
    · rintro ⟨⟩
    · simp [Consumer.returns, Consumer.goto, ConsumerPc.tookPill, *]

end Consumers

theorem pc_update {locals : Fin c → Consumer} {i j : Fin c} {consumer' : Consumer} {pc : ConsumerPc}
    (h : (Function.update locals i consumer' j).pc = pc) :
    j = i ∧ consumer'.pc = pc ∨ j ≠ i ∧ (locals j).pc = pc := by
  by_cases hji : j = i
  · subst hji
    rw [Function.update_self] at h
    exact .inl ⟨rfl, h⟩
  · rw [Function.update_of_ne hji] at h
    exact .inr ⟨hji, h⟩

namespace Wakeups

theorem main (hcn : c ≤ n) (h : Inv n s) (hw : Wakeups s) (hm : MainMove .task3 n s t) :
    Wakeups t :=
  ⟨held_main h hw hm, born_main hcn hw hm, starved_main h hw hm, matched_main h hw hm⟩

theorem consumer (h : Inv n s) (hw : Wakeups s) {i : Fin c} {srv' : Server c}
    {consumer' : Consumer} (hm : ConsumerMove .task3 i s.shared (s.locals i) srv' consumer') :
    Wakeups ⟨srv', Function.update s.locals i consumer'⟩ := by
  have hmain := hm.frame.1
  constructor
  · exact held_consumer h hw hm
  · intro j hj
    rw [hmain]
    obtain ⟨rfl, hpc'⟩ | ⟨-, hpc'⟩ := pc_update hj
    · cases hm with
      | poll pc hpc hnext => rcases hnext with rfl | rfl <;> cases hpc'
      | _ => cases hpc'
    · exact hw.born j hpc'
  · intro j hj
    obtain ⟨rfl, hpc'⟩ | ⟨-, hpc'⟩ := pc_update hj
    · exact hm.starves hpc'
    · exact hm.starved (hw.starved j hpc')
  · intro j hj
    rw [hmain]
    rcases hm.supply (hw.starved i) with hq | ⟨hawake, hsupply⟩
    · simp [hq]
    · obtain ⟨rfl, hpc'⟩ | ⟨-, hpc'⟩ := pc_update hj
      · exact absurd hpc' hawake
      · have hmatched := hw.matched j hpc'
        have htally := tally_update Consumer.returns s.locals i consumer'
        change srv'.queue.length ≤
          tally Consumer.returns (Function.update s.locals i consumer') + _
        omega

theorem spurious (hw : Wakeups s) {i : Fin c} (hpc : (s.locals i).pc = .sleep) :
    Wakeups ⟨s.shared, Function.update s.locals i ((s.locals i).goto .relock)⟩ := by
  constructor
  · rw [sections_consumer rfl]
    exact hw.held.stay fun hin => by simp [sections, ConsumerPc.inSection, hpc] at hin
  · intro j hj
    obtain ⟨rfl, hpc'⟩ | ⟨-, hpc'⟩ := pc_update hj
    · cases hpc'
    · exact hw.born j hpc'
  · intro j hj
    obtain ⟨rfl, hpc'⟩ | ⟨-, hpc'⟩ := pc_update hj
    · cases hpc'
    · exact hw.starved j hpc'
  · intro j _
    have hawake : ((s.locals i).goto .relock).returns := by
      constructor
      · exact Bool.false_ne_true
      · rintro ⟨⟩
    have hgain := tally_update_gain (p := Consumer.returns) (f := s.locals) (i := i)
      (fun hreturns => hreturns.2 hpc) hawake
    have hmatched := hw.matched i hpc
    change s.shared.queue.length ≤
      tally Consumer.returns (Function.update s.locals i _) + s.shared.main.unsignalled
    omega

theorem step {a : Action c} (hcn : c ≤ n) (h : Inv n s) (hw : Wakeups s)
    (ht : step .task3 n s a = some t) : Wakeups t := by
  cases step_move ht with
  | main hm => exact hw.main hcn h hm
  | consumer i hm => exact hw.consumer h hm
  | spurious i hpc => exact hw.spurious hpc

theorem init : Wakeups (init c) := by
  refine ⟨Held.none, fun i _ => .inr ⟨0, Nat.zero_le _, rfl⟩, fun i hi => ?_, fun i hi => ?_⟩
  · cases hi
  · cases hi

end Wakeups

def Runs (n : ℕ) (s : State c) : Owner c → Prop
  | .main => ∃ a t, (a = .main ∨ ∃ woken, a = .signal woken) ∧ step .task3 n s a = some t
  | .consumer i => ∃ empty t, step .task3 n s (.consumer i empty) = some t

def Locks (s : State c) : Owner c → Prop
  | .main => ∃ element, s.shared.main = .lock element
  | .consumer i => (s.locals i).pc = .lock ∨ (s.locals i).pc = .relock

def Runnable (n : ℕ) (s : State c) (owner : Owner c) : Prop :=
  Runs n s owner ∨ Locks s owner ∧ ∃ holder, s.shared.mutex = some holder ∧ Runs n s holder

def Alive (s : State c) : Prop := s.shared.main ≠ .failed ∧ s.shared.main ≠ .overrun

structure NoLostWakeup (n : ℕ) (s : State c) : Prop where
  progress : (∃ i, (s.locals i).pc ≠ .exited) → (∃ i, Runnable n s (.consumer i)) ∨
    Runnable n s .main ∧ (s.shared.pushed ≠ feed n c ∨ ∃ element, s.shared.main = .signal element)
  queued : s.shared.queue ≠ [] → (∀ i, (s.locals i).pc = .exited ∨ (s.locals i).pc = .sleep) →
    ∃ element, s.shared.main = .signal element
  finished : s.shared.pushed = feed n c → (∀ element, s.shared.main ≠ .signal element) →
    ∀ i, (s.locals i).pc ≠ .sleep

section Progress

variable {i : Fin c}

theorem runs_consumer (halive : Alive s) (empty : Bool)
    (h : (stepConsumer .task3 i empty s.shared (s.locals i)).isSome = true) :
    Runs n s (.consumer i) := by
  obtain ⟨next, hnext⟩ := Option.isSome_iff_exists.mp h
  refine ⟨empty, ⟨next.1, Function.update s.locals i next.2⟩, ?_⟩
  simp [step, halive.1, halive.2, hnext, Config.move]

theorem runs_main (h : (stepMain .task3 n s).isSome = true) : Runs n s .main := by
  obtain ⟨t, ht⟩ := Option.isSome_iff_exists.mp h
  exact ⟨.main, t, .inl rfl, ht⟩

theorem runs_signal {element : Element} (h : s.shared.main = .signal element) :
    Runs n s .main := by
  refine ⟨.signal Finset.univ, ⟨s.shared.goto (.unlock element), wake Finset.univ s.locals⟩,
    .inr ⟨_, rfl⟩, ?_⟩
  simp [step, stepSignal, h]

theorem runs_of_inSection (halive : Alive s) {owner : Owner c}
    (h : sections s owner = true) : Runs n s owner := by
  cases owner with
  | main =>
    cases hpc : s.shared.main <;> simp only [sections, hpc, MainPc.inSection] at h
    case push element => exact runs_main (by simp [stepMain, hpc])
    case signal element => exact runs_signal hpc
    case unlock element => exact runs_main (by simp [stepMain, hpc])
    all_goals cases h
  | consumer i =>
    apply runs_consumer halive false
    cases hpc : (s.locals i).pc <;> simp only [sections, hpc, ConsumerPc.inSection] at h
    case check => by_cases hq : s.shared.queue = [] <;> simp [stepConsumer, hpc, hq]
    case pop => cases hq : s.shared.queue <;> simp [stepConsumer, hpc, hq]
    case wait => simp [stepConsumer, hpc]
    case unlock temp => simp [stepConsumer, hpc]
    all_goals cases h

theorem runnable_of_locks (hw : Wakeups s) (halive : Alive s) {owner : Owner c}
    (h : Locks s owner) (hfree : s.shared.mutex = none → Runs n s owner) : Runnable n s owner := by
  cases hmutex : s.shared.mutex with
  | none => exact .inl (hfree hmutex)
  | some holder =>
    exact .inr ⟨h, holder, hmutex, runs_of_inSection halive (hw.held holder hmutex)⟩

theorem runnable_consumer (h : Inv n s) (hw : Wakeups s) (halive : Alive s)
    (hborn : (s.locals i).pc ≠ .unborn) (hawake : (s.locals i).pc ≠ .sleep)
    (hleft : (s.locals i).pc ≠ .exited) : Runnable n s (.consumer i) := by
  have hrunning := h.running i
  cases hpc : (s.locals i).pc
  case unborn | sleep | exited | aborted => contradiction
  case poll =>
    apply Or.inl
    apply runs_consumer halive s.shared.queue.isEmpty
    simp [stepConsumer, hpc]
  case lock =>
    apply runnable_of_locks hw halive
    · exact Or.inl hpc
    · intro hfree
      apply runs_consumer halive false
      simp [stepConsumer, hpc, hfree, acquire]
  case relock =>
    apply runnable_of_locks hw halive
    · exact Or.inr hpc
    · intro hfree
      apply runs_consumer halive false
      simp [stepConsumer, hpc, hfree, acquire]
  case check | wait | pop | unlock temp =>
    apply Or.inl
    apply runs_of_inSection halive
    simp [sections, hpc, ConsumerPc.inSection]
  case test temp =>
    apply Or.inl
    apply runs_consumer halive false
    by_cases htemp : temp = INT_MAX <;> simp [stepConsumer, hpc, htemp]
  case print =>
    apply Or.inl
    apply runs_consumer halive false
    simp [stepConsumer, hpc]

theorem pushed_of_count (h : Inv n s) (hcount : s.shared.main.count n c = n + c) :
    s.shared.pushed = feed n c := by
  rw [h.fed, hcount]
  apply List.take_of_length_le
  simp [feed, length_values]

theorem runnable_main (h : Inv n s) (hw : Wakeups s) (halive : Alive s)
    (hleft : s.shared.pushed ≠ feed n c ∨ ∃ element, s.shared.main = .signal element) :
    Runnable n s .main := by
  cases hpc : s.shared.main
  case failed => exact absurd hpc halive.1
  case overrun => exact absurd hpc halive.2
  case create k =>
    apply Or.inl
    apply runs_main
    by_cases hk : k < c
    · by_cases hn : k < n <;> simp [stepMain, hpc, hk, hn]
    · simp [stepMain, hpc, hk]
  case values k | pills k =>
    apply Or.inl
    apply runs_main
    simp [stepMain, hpc]
  case lock element =>
    apply runnable_of_locks hw halive
    · exact Exists.intro element hpc
    · intro hfree
      apply runs_main
      simp [stepMain, hpc, hfree, acquire]
  case push element | signal element | unlock element =>
    apply Or.inl
    apply runs_of_inSection halive
    simp [sections, hpc, MainPc.inSection]
  case broadcast | join k sum | finished sum =>
    obtain hleft | ⟨element, hsignal⟩ := hleft
    · exact absurd (pushed_of_count h (by simp [hpc, MainPc.count])) hleft
    · rw [hpc] at hsignal
      cases hsignal

end Progress

namespace Wakeups

theorem finished (h : Inv n s) (hw : Wakeups s) (hpushed : s.shared.pushed = feed n c)
    (hsignalled : ∀ element, s.shared.main ≠ .signal element) (i : Fin c) :
    (s.locals i).pc ≠ .sleep := by
  intro hsleep
  have hmatched := hw.matched i hsleep
  have hzero : s.shared.main.unsignalled = 0 := by
    cases hpc : s.shared.main <;> first | rfl | exact absurd hpc (hsignalled _)
  have hpills := h.pills hpushed
  have hcount : s.shared.queue.count INT_MAX ≤ s.shared.queue.length := List.count_le_length
  -- the sleeper has no pill either
  have hlt : tally Consumer.returns s.locals <
      tally (fun consumer : Consumer => ¬ consumer.pc.tookPill = true) s.locals := by
    apply tally_lt_tally (i := i)
    · exact fun j hj => hj.1
    · exact fun hreturns => hreturns.2 hsleep
    · rw [hsleep]
      exact Bool.false_ne_true
  omega

theorem queued (h : Inv n s) (hw : Wakeups s) (hc : 0 < c) (hq : s.shared.queue ≠ [])
    (hasleep : ∀ i, (s.locals i).pc = .exited ∨ (s.locals i).pc = .sleep) :
    ∃ element, s.shared.main = .signal element := by
  have hsome : ∃ i, (s.locals i).pc ≠ .exited := by
    by_contra hall
    exact hq (h.drained hc fun i => not_not.mp fun hi => hall ⟨i, hi⟩).1
  obtain ⟨i, hi⟩ := hsome
  have hmatched := hw.matched i ((hasleep i).resolve_left hi)
  have hnone : tally Consumer.returns s.locals = 0 := by
    rw [tally_eq_zero_iff]
    rintro j ⟨htook, hawake⟩
    rcases hasleep j with hj | hj
    · exact htook (by rw [hj]; rfl)
    · exact hawake hj
  have hlength := List.length_pos_of_ne_nil hq
  cases hpc : s.shared.main
  case signal element => exact ⟨element, rfl⟩
  all_goals
    rw [hnone, hpc] at hmatched
    exact absurd hmatched (Nat.not_le_of_lt hlength)

theorem progress (h : Inv n s) (hw : Wakeups s) (halive : Alive s)
    (hleft : ∃ i, (s.locals i).pc ≠ .exited) : (∃ i, Runnable n s (.consumer i)) ∨
      Runnable n s .main ∧
        (s.shared.pushed ≠ feed n c ∨ ∃ element, s.shared.main = .signal element) := by
  by_cases hpushes : s.shared.pushed ≠ feed n c ∨ ∃ element, s.shared.main = .signal element
  · exact .inr ⟨runnable_main h hw halive hpushes, hpushes⟩
  · obtain ⟨hpushed, hsignalled⟩ := not_or.mp hpushes
    obtain ⟨i, hi⟩ := hleft
    apply Or.inl
    refine ⟨i, runnable_consumer h hw halive ?_ ?_ hi⟩
    · intro hunborn
      obtain hfailed | ⟨k, -, hcreate⟩ := hw.born i hunborn
      · exact halive.1 hfailed
      · have hfed := h.fed
        rw [not_not.mp hpushed, hcreate] at hfed
        have hlength := congrArg List.length hfed
        have hpos := i.pos
        simp [feed, MainPc.count] at hlength
        omega
    · exact hw.finished h (not_not.mp hpushed) (fun element he => hsignalled ⟨element, he⟩) i

end Wakeups

theorem noLostWakeup_of_reachable (hc : 0 < c) (hcn : c ≤ n)
    (h : Reachable (step .task3 n) (init c) s) (hmain : s.shared.main ≠ .failed) :
    NoLostWakeup n s := by
  obtain ⟨hinv, hw⟩ := h.invariant (fun s => Inv n s ∧ Wakeups s) ⟨Inv.init, Wakeups.init⟩
    fun _ _ _ hs ht => ⟨hs.1.step ht, hs.2.step hcn hs.1 ht⟩
  exact ⟨hw.progress hinv ⟨hmain, not_overrun hcn h⟩, hw.queued hinv hc, hw.finished hinv⟩

def pillPushed : List (Action 1) :=
  .main :: onlyConsumer 3 ++ onlyMain 4 ++ .signal Finset.univ :: onlyMain 3 ++ onlyConsumer 8 ++
    onlyMain 2

theorem noLostWakeup_pillPushed : ∃ s : State 1, (s.locals ⟨0, Nat.one_pos⟩).pc = .sleep ∧
    NoLostWakeup 1 s := by
  obtain ⟨s, hs, hp⟩ := exists_reachable_of_run (step .task3 1) (init 1) pillPushed
    (fun s => decide ((s.locals ⟨0, Nat.one_pos⟩).pc = .sleep ∧ s.shared.main ≠ .failed))
    (by decide +kernel)
  obtain ⟨hsleep, hmain⟩ := of_decide_eq_true hp
  exact ⟨s, hsleep, noLostWakeup_of_reachable Nat.one_pos (Nat.le_refl 1) hs hmain⟩

theorem not_runnable_of_sleep {i : Fin c} (h : (s.locals i).pc = .sleep) :
    ¬ Runnable n s (.consumer i) := by
  rintro (⟨empty, t, ht⟩ | ⟨hlocks, -⟩)
  · simp [step, stepConsumer, h, Config.move] at ht
  · simp [Locks, h] at hlocks

theorem not_runs_of_overrun (h : s.shared.main = .overrun) (owner : Owner c) :
    ¬ Runs n s owner := by
  cases owner with
  | main =>
    rintro ⟨a, t, rfl | ⟨woken, rfl⟩, ht⟩
    · simp [step, stepMain, h] at ht
    · simp [step, stepSignal, h] at ht
  | consumer i =>
    rintro ⟨empty, t, ht⟩
    simp [step, h] at ht

theorem not_runnable_of_overrun (h : s.shared.main = .overrun) (owner : Owner c) :
    ¬ Runnable n s owner := by
  rintro (hruns | ⟨-, holder, -, hruns⟩)
  · exact not_runs_of_overrun h owner hruns
  · exact not_runs_of_overrun h holder hruns

/-- With one consumer and one element the consumer can be asleep with the pill in the queue; with
five consumers the creation loop leaves `tid` before any of them has exited. -/
theorem all_asleep_before_last_signal :
    (∃ s : State 1, Reachable (step .task3 1) (init 1) s ∧
      s.shared.queue ≠ [] ∧ s.shared.pushed = feed 1 1 ∧
        ∀ i, (s.locals i).pc = .sleep ∧ ¬ Runnable 1 s (.consumer i)) ∧
    ∃ s : State 5, Reachable (step .task3 1) (init 5) s ∧ s.shared.main = .overrun ∧
      (∀ i, (s.locals i).pc ≠ .exited) ∧ ∀ owner, ¬ Runnable 1 s owner := by
  constructor
  · obtain ⟨s, hs, hp⟩ := exists_reachable_of_run (step .task3 1) (init 1) pillPushed
      (fun s => decide (s.shared.queue ≠ [] ∧ s.shared.pushed = feed 1 1 ∧
        ∀ i, (s.locals i).pc = .sleep)) (by decide +kernel)
    obtain ⟨hqueue, hpushed, hasleep⟩ := of_decide_eq_true hp
    exact ⟨s, hs, hqueue, hpushed, fun i => ⟨hasleep i, not_runnable_of_sleep (hasleep i)⟩⟩
  · obtain ⟨s, hs, hp⟩ := exists_reachable_of_run (step .task3 1) (init 5) [.main, .main]
      (fun s => decide (s.shared.main = .overrun ∧ ∀ i, (s.locals i).pc ≠ .exited))
      (by decide +kernel)
    obtain ⟨hmain, hpc⟩ := of_decide_eq_true hp
    exact ⟨s, hs, hmain, hpc, not_runnable_of_overrun hmain⟩

end PsOs.ProducerConsumer
