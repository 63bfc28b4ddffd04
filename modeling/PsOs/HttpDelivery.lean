import PsOs.HttpLedger

namespace PsOs.HttpServer

open Threads TransitionSystems WorkQueues

variable {n : ℕ} {s t : State n}

def TestOk (queue : List ℤ) : Worker → Prop
  | .pop => queue ≠ []
  | .wait => queue = []
  | _ => True

def Tested (s : State n) : Prop := ∀ i, TestOk s.shared.queue (s.locals i)

theorem testOk_of_out {queue : List ℤ} {w : Worker} (h : w.inSection = false) : TestOk queue w := by
  cases w with
  | pop | wait => cases h
  | _ => trivial

theorem MainMove.queue_eq (hm : MainMove s t) :
    t.shared.queue = s.shared.queue ∨ s.shared.main.inSection = true := by
  cases hm with
  | accepted result hpc => cases result <;> exact .inl rfl
  | push fd hpc | pushPill k hpc hk => exact .inr (by rw [hpc]; rfl)
  | _ => exact .inl rfl

theorem MainMove.locals_cases (hm : MainMove s t) (i : Fin n) :
    t.locals i = s.locals i ∨ s.locals i = .sleep ∧ t.locals i = .relock := by
  have hwake : ∀ woken, wake woken s.locals i = s.locals i ∨
      s.locals i = .sleep ∧ wake woken s.locals i = .relock := by
    intro woken
    obtain ⟨⟨hsleep, -⟩, hwake⟩ | ⟨-, hwake⟩ := wake_cases woken s.locals i
    · exact .inr ⟨hsleep, hwake⟩
    · exact .inl hwake
  cases hm with
  | signal woken hpc hwoken | broadcast hpc => exact hwake _
  | _ => exact .inl rfl

theorem Tested.step {a : Action n} (h : Tested s) (hg : QueueGuarded s) (ht : step s a = some t) :
    Tested t := by
  rcases step_cases ht with ⟨-, hm⟩ | ⟨i, srv', w', hm, -, rfl⟩ | ⟨i, -, hsleep, rfl⟩
  · intro i
    rcases hm.locals_cases i with hsame | ⟨-, hrelock⟩
    · rw [hsame]
      rcases hm.queue_eq with hq | hmain
      · rw [hq]
        exact h i
      · exact testOk_of_out (hg.worker_out hmain i)
    · rw [hrelock]
      trivial
  · intro j
    by_cases hji : j = i
    · subst hji
      simp only [Function.update_self]
      generalize s.locals j = w at hm
      cases hm with
      | empty hq => exact hq
      | nonempty hq => exact hq
      | serve hw hw' hsame =>
        apply testOk_of_out
        rcases hw' with hw' | rfl
        · exact hw'.not_inSection
        · rfl
      | _ => trivial
    · simp only [Function.update_of_ne hji]
      rcases hm.queue_suffix with ⟨hq, -⟩ | ⟨fd, hq, hpop, -⟩
      · rw [hq]
        exact h j
      · apply testOk_of_out
        rw [← Bool.not_eq_true]
        intro hj
        exact hji (hg.worker_unique hj (by rw [hpop]; rfl))
  · apply (Function.forall_update_iff s.locals fun _ w => TestOk s.shared.queue w).mpr
    exact ⟨trivial, fun j _ => h j⟩

def MainPc.woken : MainPc → Bool
  | .unlockPills | .join _ | .returned true => true
  | _ => false

def MainPc.filling : MainPc → Bool
  | .pushPill _ | .broadcast => true
  | _ => false

structure Awake (s : State n) : Prop where
  one : s.shared.main.woken = false → s.shared.main.filling = false → s.shared.queue ≠ [] →
    s.shared.main = .signal ∨ ∃ i, s.locals i ≠ .sleep
  every : s.shared.main.woken = true → ∀ i, s.locals i ≠ .sleep ∧ s.locals i ≠ .wait

theorem Ledger.consumed_of_empty (h : Ledger s) (hwoken : s.shared.main.woken = true)
    (hq : s.shared.queue = []) (i : Fin n) : (s.locals i).consumed = true := by
  have hpills := h.pills
  have hall : s.shared.main.pills n = n := by
    cases hpc : s.shared.main with
    | returned success =>
      cases success
      · rw [hpc] at hwoken
        cases hwoken
      · rfl
    | unlockPills | join k => rfl
    | _ =>
      rw [hpc] at hwoken
      cases hwoken
  rw [hq, hall, List.count_nil, Nat.zero_add] at hpills
  by_contra hi
  have hlt : consumers s.locals < Fintype.card (Fin n) := tally_lt_iff.mpr ⟨i, hi⟩
  rw [Fintype.card_fin] at hlt
  omega

theorem awake_of_handling {w : Worker} (h : w.Handling ∨ w = .lock) : w ≠ .sleep ∧ w ≠ .wait := by
  rcases h with h | rfl
  · cases w <;> first | exact False.elim h | exact ⟨by simp, by simp⟩
  · exact ⟨by simp, by simp⟩

namespace Awake

theorem worker {i : Fin n} {srv' : Server n} {w' : Worker} (h : Awake s) (hl : Ledger s)
    (ht : Tested s) (hm : WorkerMove i s.shared (s.locals i) srv' w') :
    Awake ⟨srv', Function.update s.locals i w'⟩ := by
  have htest := ht i
  have hmain := hm.main_eq
  refine ⟨fun hwoken hfilling hq => ?_, fun hwoken j => ?_⟩
  · by_cases hsleep : w' = .sleep
    · -- a worker goes to sleep only while the queue is empty
      generalize s.locals i = w at hm htest
      subst hsleep
      cases hm with
      | wait => exact absurd htest hq
      | serve hw hw' hsame => rcases hw' with hw' | hw' <;> cases hw'
    · exact .inr ⟨i, by simpa only [Function.update_self] using hsleep⟩
  · simp only [hmain] at hwoken
    have hawake := h.every hwoken i
    have hempty := hl.consumed_of_empty hwoken
    by_cases hji : j = i
    · subst hji
      simp only [Function.update_self]
      generalize hw : s.locals j = w at hm hawake
      cases hm with
      | empty hq =>
        have hconsumed := hempty hq j
        rw [hw] at hconsumed
        cases hconsumed
      | wait => exact absurd rfl hawake.2
      | serve hw hw' hsame => exact awake_of_handling hw'
      | _ => constructor <;> rintro ⟨⟩
    · simp only [Function.update_of_ne hji]
      exact h.every hwoken j

theorem goto (h : Awake s) {srv' : Server n} (hq : srv'.queue = s.shared.queue)
    (hsome : srv'.main.woken = false → srv'.main.filling = false → s.shared.main.woken = false ∧
      s.shared.main.filling = false ∧ s.shared.main ≠ .signal)
    (hall : srv'.main.woken = true → s.shared.main.woken = true) : Awake ⟨srv', s.locals⟩ := by
  refine ⟨fun hwoken hfilling hne => ?_, fun hwoken => h.every (hall hwoken)⟩
  obtain ⟨hw, hf, hsignal⟩ := hsome hwoken hfilling
  exact .inr ((h.one hw hf (hq ▸ hne)).resolve_left hsignal)

theorem signal (hn : 1 ≤ n) {woken : Finset (Fin n)}
    (hwoken : (∃ i, s.locals i = .sleep) → ∃ i ∈ woken, s.locals i = .sleep) :
    Awake ⟨s.shared.goto .unlock, wake woken s.locals⟩ := by
  refine ⟨fun _ _ _ => .inr ?_, fun h => by cases h⟩
  by_cases hsleep : ∃ i, s.locals i = .sleep
  · obtain ⟨i, hi, hs⟩ := hwoken hsleep
    refine ⟨i, ?_⟩
    simp [wake, hs, hi]
  · refine ⟨⟨0, hn⟩, ?_⟩
    have hawake : s.locals ⟨0, hn⟩ ≠ .sleep := fun hs => hsleep ⟨_, hs⟩
    simp [wake, hawake]

theorem broadcast (hg : QueueGuarded s) (hpc : s.shared.main = .broadcast) :
    Awake ⟨s.shared.goto .unlockPills, wake Finset.univ s.locals⟩ := by
  refine ⟨fun h => (by cases h), fun _ i => ?_⟩
  have hout := hg.worker_out (by rw [hpc]; rfl) i
  change wake Finset.univ s.locals i ≠ .sleep ∧ wake Finset.univ s.locals i ≠ .wait
  obtain ⟨-, hwake⟩ | ⟨hawake, hwake⟩ := wake_cases Finset.univ s.locals i
  · simp [hwake]
  · rw [hwake]
    constructor
    · intro hsleep
      exact hawake ⟨hsleep, Finset.mem_univ i⟩
    · intro hwait
      rw [hwait] at hout
      cases hout

theorem main (hn : 1 ≤ n) (h : Awake s) (hg : QueueGuarded s) (hm : MainMove s t) : Awake t := by
  cases hm with
  | guard pc hpc hnext =>
    rcases hnext with rfl | rfl <;> exact h.goto rfl (by simp [hpc, MainPc.woken, MainPc.filling])
      (by simp [Server.goto, MainPc.woken])
  | accepted result hpc =>
    cases result <;> exact h.goto rfl (by simp [hpc, MainPc.woken, MainPc.filling])
      (by simp [accepted, Server.goto, MainPc.woken])
  | push fd hpc => exact ⟨fun _ _ _ => .inl rfl, fun hwoken => by cases hwoken⟩
  | signal woken hpc hwoken => exact signal hn hwoken
  | pushPill k hpc hk => exact ⟨fun _ hfilling => (by cases hfilling), fun hwoken => by cases hwoken⟩
  | broadcast hpc => exact broadcast hg hpc
  | _ =>
    refine h.goto ?_ ?_ ?_
    · rfl
    · simp [Server.goto, MainPc.woken, MainPc.filling, *]
    · simp [Server.goto, MainPc.woken, *]

theorem step (hn : 1 ≤ n) {a : Action n} (h : Awake s) (hg : QueueGuarded s) (hl : Ledger s)
    (hw : Tested s) (ht : HttpServer.step s a = some t) : Awake t := by
  rcases step_cases ht with ⟨-, hm⟩ | ⟨i, srv', w', hm, -, rfl⟩ | ⟨i, -, hsleep, rfl⟩
  · exact h.main hn hg hm
  · exact h.worker hl hw hm
  · refine ⟨fun _ _ _ => .inr ⟨i, by simp⟩, fun hwoken => ?_⟩
    exact absurd hsleep (h.every hwoken i).1

end Awake

def JoinOk (s : State n) : Prop :=
  match s.shared.main with
  | .join k => ∀ i : Fin n, i < k → s.locals i = .exited
  | .returned true => ∀ i, s.locals i = .exited
  | _ => True

theorem exited_step {a : Action n} (ht : step s a = some t) {i : Fin n}
    (hi : s.locals i = .exited) : t.locals i = .exited := by
  rcases step_cases ht with ⟨-, hm⟩ | ⟨j, srv', w', hm, -, rfl⟩ | ⟨j, -, hsleep, rfl⟩
  · rcases hm.locals_cases i with hsame | ⟨hsleep, -⟩
    · exact hsame.trans hi
    · rw [hi] at hsleep
      cases hsleep
  · by_cases hij : i = j
    · subst hij
      rw [hi] at hm
      cases hm with
      | serve hw => cases hw
    · simpa only [Function.update_of_ne hij] using hi
  · have hij : i ≠ j := by
      rintro rfl
      rw [hi] at hsleep
      cases hsleep
    simpa only [Function.update_of_ne hij] using hi

theorem JoinOk.step {a : Action n} (h : JoinOk s) (ht : step s a = some t) : JoinOk t := by
  have hexited := fun i => exited_step ht (i := i)
  have hsame : t.shared.main = s.shared.main → JoinOk t := by
    intro hmain
    unfold JoinOk at h ⊢
    rw [hmain]
    cases hpc : s.shared.main with
    | join k =>
      simp only [hpc] at h ⊢
      exact fun i hi => hexited i (h i hi)
    | returned success =>
      simp only [hpc] at h ⊢
      cases success with
      | true => exact fun i => hexited i (h i)
      | false => trivial
    | _ => trivial
  rcases step_cases ht with ⟨-, hm⟩ | ⟨i, srv', w', hm, -, rfl⟩ | ⟨i, -, -, rfl⟩
  · cases hm with
    | guard pc hpc hnext => rcases hnext with rfl | rfl <;> trivial
    | accepted result hpc => cases result <;> trivial
    | unlockPills hpc => exact fun i hi => absurd hi (Nat.not_lt_zero _)
    | join k hpc hk =>
      unfold JoinOk at h
      simp only [hpc] at h
      intro i hi
      rcases Nat.lt_succ_iff_lt_or_eq.mp hi with hlt | heq
      · exact h i hlt
      · rw [Fin.ext heq]
        exact hk
    | joined k hpc hk =>
      unfold JoinOk at h
      simp only [hpc] at h
      exact fun i => h i (i.isLt.trans_le hk)
    | _ => trivial
  · exact hsame hm.main_eq
  · exact hsame rfl

end PsOs.HttpServer
