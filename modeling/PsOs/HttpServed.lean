import PsOs.HttpDelivery

namespace PsOs.HttpServer

open Threads TransitionSystems WorkQueues

variable {n : ℕ} {s t : State n}

structure ServerInv (s : State n) : Prop where
  guarded : QueueGuarded s
  ledger : Ledger s
  tested : Tested s
  awake : Awake s
  join : JoinOk s

theorem ServerInv.init : ServerInv (init n) := by
  refine ⟨?_, .init n, fun i => trivial, ⟨fun _ _ hq => absurd rfl hq, fun h => ?_⟩, trivial⟩
  · intro owner h
    cases owner <;> cases h
  · cases h

theorem ServerInv.step (hn : 1 ≤ n) {a : Action n} (h : ServerInv s) (ht : step s a = some t) :
    ServerInv t :=
  ⟨h.guarded.step ht, h.ledger.step ht, h.tested.step h.guarded ht,
    h.awake.step hn h.guarded h.ledger h.tested ht, h.join.step ht⟩

theorem ServerInv.queue_nil (hn : 1 ≤ n) (h : ServerInv s) (hexited : ∀ i, s.locals i = .exited) :
    s.shared.queue = [] := by
  have hpills := h.ledger.pills
  have hall : consumers s.locals = n := by
    have hfilter : Finset.univ.filter (fun i => (s.locals i).consumed = true) = Finset.univ :=
      Finset.filter_true_of_mem fun i _ => by rw [hexited i]; rfl
    simp only [consumers, tally, hfilter, Finset.card_univ, Fintype.card_fin]
  have hle : s.shared.main.pills n ≤ n := by
    cases hpc : s.shared.main with
    | pushPill k => exact h.ledger.pushed k hpc
    | returned success => cases success <;> simp [MainPc.pills]
    | _ => simp [MainPc.pills]
  have hnone : POISON_PILL ∉ s.shared.queue := List.count_eq_zero.mp (by omega)
  apply List.eq_nil_iff_forall_not_mem.mpr
  intro v hv
  have hpill := h.ledger.drained ⟨0, hn⟩ (by rw [hexited]; rfl) v hv
  exact hnone (hpill ▸ hv)

def LostWakeup (s : State n) : Prop :=
  s.shared.queue ≠ [] ∧ s.shared.mutexQueue = none ∧
    ∀ i, s.locals i = .exited ∨ s.locals i = .sleep

theorem ServerInv.no_lostWakeup (hn : 1 ≤ n) (h : ServerInv s) : ¬ LostWakeup s := by
  rintro ⟨hq, hfree, hasleep⟩
  have hout : s.shared.main.inSection = false := by
    rw [← Bool.not_eq_true]
    intro hmain
    rw [h.guarded.main_holds hmain] at hfree
    cases hfree
  cases hwoken : s.shared.main.woken with
  | true =>
    refine hq (h.queue_nil hn fun i => (hasleep i).resolve_right ?_)
    exact (h.awake.every hwoken i).1
  | false =>
    have hfilling : s.shared.main.filling = false := by
      cases hpc : s.shared.main <;> simp [hpc, MainPc.inSection, MainPc.filling] at hout ⊢
    have hpills : s.shared.main.pills n = 0 := by
      cases hpc : s.shared.main with
      | pushPill | broadcast =>
        rw [hpc] at hfilling
        cases hfilling
      | returned success =>
        rw [hpc] at hwoken
        cases success
        · rfl
        · cases hwoken
      | unlockPills | join =>
        rw [hpc] at hwoken
        cases hwoken
      | _ => rfl
    rcases h.awake.one hwoken hfilling hq with hsignal | ⟨i, hi⟩
    · rw [hsignal] at hout
      cases hout
    · have hconsumed := (h.ledger.no_pill hpills).2 i
      rw [(hasleep i).resolve_right hi] at hconsumed
      cases hconsumed

theorem closed_step {a : Action n} (hclosed : s.shared.main.closed = true)
    (ht : step s a = some t) :
    t.shared.main.closed = true ∧ t.shared.history.accepted = s.shared.history.accepted := by
  rcases step_cases ht with ⟨-, hm⟩ | ⟨i, srv', w', hm, -, rfl⟩ | ⟨i, -, -, rfl⟩
  · cases hm with
    | guard pc hpc hnext | accepted result hpc | lock fd hpc hfree | push fd hpc
    | signal woken hpc hwoken | unlock hpc =>
      rw [hpc] at hclosed
      cases hclosed
    | _ => exact ⟨rfl, rfl⟩
  · exact ⟨by simpa only [hm.main_eq] using hclosed, hm.accepted_eq⟩
  · exact ⟨hclosed, rfl⟩

theorem closed_accepted (hclosed : s.shared.main.closed = true) (h : Reachable step s t) :
    t.shared.history.accepted = s.shared.history.accepted := by
  have hinv : t.shared.main.closed = true ∧
      t.shared.history.accepted = s.shared.history.accepted := by
    apply h.invariant fun u => u.shared.main.closed = true ∧
      u.shared.history.accepted = s.shared.history.accepted
    · exact ⟨hclosed, rfl⟩
    · rintro u a v ⟨hu, hacc⟩ huv
      obtain ⟨hv, hsame⟩ := closed_step hu huv
      exact ⟨hv, hsame.trans hacc⟩
  exact hinv.2

def popped (i : Fin n) (s : State n) : Action n → List ℤ
  | .worker j _ => if j = i ∧ s.locals i = .pop then s.shared.queue.take 1 else []
  | _ => []

def pops (i : Fin n) (as : List (Action n)) : List ℤ := trace step (popped i) (init n) as

theorem popped_consumed {a : Action n} (ht : step s a = some t) (i : Fin n) :
    (popped i s a).count POISON_PILL + (if (s.locals i).consumed = true then 1 else 0) =
      if (t.locals i).consumed = true then 1 else 0 := by
  rcases step_cases ht with ⟨ha, hm⟩ | ⟨j, srv', w', hm, ⟨request, rfl⟩, rfl⟩ | ⟨j, rfl, hsleep, rfl⟩
  · have hnone : popped i s a = [] := by
      cases a with
      | worker j request => exact absurd rfl (ha j request)
      | _ => rfl
    have hsame : (t.locals i).consumed = (s.locals i).consumed := by
      rcases hm.locals_cases i with h | ⟨h, h'⟩
      · rw [h]
      · rw [h, h']
        rfl
    rw [hnone, hsame]
    exact Nat.zero_add _
  · by_cases hij : j = i
    · subst hij
      have hpills := hm.pills
      have hqueue : s.shared.queue = popped j s (.worker j request) ++ srv'.queue := by
        unfold popped
        generalize s.locals j = w at hm ⊢
        cases hm with
        | pop fd queue hq => simp [hq]
        | serve hw hw' hsame =>
          cases w <;> first | exact False.elim hw | simp [hsame.queue]
        | _ => simp
      rw [hqueue, List.count_append] at hpills
      simp only [Function.update_self]
      omega
    · simp [popped, hij, Function.update_of_ne (Ne.symm hij)]
  · have hsame := field_update Worker.consumed (f := s.locals) (i := j) (l := .relock)
      (by rw [hsleep]; rfl) i
    simp only [hsame]
    exact Nat.zero_add _

theorem pops_count {as : List (Action n)} (h : run step (init n) as = some s) (i : Fin n) :
    (pops i as).count POISON_PILL = if (s.locals i).consumed = true then 1 else 0 := by
  let R : List ℤ → State n → Prop := fun os u =>
    os.count POISON_PILL = if (u.locals i).consumed = true then 1 else 0
  have hstep : ∀ os u a v, R os u → step u a = some v → R (os ++ popped i u a) v := by
    intro os u a v hu huv
    simp only [R] at hu ⊢
    rw [List.count_append, hu, ← popped_consumed huv i]
    omega
  have hstart : R [] (init n) := rfl
  exact trace_invariant R hstep hstart h

def Joined (s : State n) : Prop :=
  s.shared.main = .returned true ∨ ∃ k, s.shared.main = .join k ∧ n ≤ k

structure ServedOnce (as : List (Action n)) (s : State n) : Prop where
  popsItem : ∀ i, s.locals i = .pop → s.shared.queue ≠ []
  delivered : ∀ fd, fd ≠ POISON_PILL → s.shared.history.accepted.count fd =
    s.shared.history.handled.count fd + s.shared.queue.count fd + carriers fd s.locals +
      s.shared.main.inHand.count fd
  sockets : ∀ fd ∈ s.shared.history.accepted ++ s.shared.history.handled, fd ≠ POISON_PILL
  onePill : ∀ i, (pops i as).count POISON_PILL = if (s.locals i).consumed = true then 1 else 0
  afterSockets : ∀ i queue, s.locals i = .pop → s.shared.queue = POISON_PILL :: queue →
    (∀ t, Reachable step s t → t.shared.history.accepted = s.shared.history.accepted) ∧
    ∀ fd, fd ≠ POISON_PILL → s.shared.history.accepted.count fd =
      s.shared.history.handled.count fd + carriers fd s.locals
  joined : Joined s → s.shared.queue = [] ∧
    s.shared.history.handled.Perm s.shared.history.accepted ∧
    ∀ i, s.locals i = .exited ∧ (pops i as).count POISON_PILL = 1
  awake : ¬ LostWakeup s

namespace ServerInv

theorem popsItem (h : ServerInv s) {i : Fin n} (hi : s.locals i = .pop) : s.shared.queue ≠ [] := by
  have htest := h.tested i
  rwa [hi] at htest

theorem afterSockets (h : ServerInv s) {queue : List ℤ} (hq : s.shared.queue = POISON_PILL :: queue) :
    s.shared.main.closed = true ∧ ∀ fd, fd ≠ POISON_PILL → s.shared.history.accepted.count fd =
      s.shared.history.handled.count fd + carriers fd s.locals := by
  have hpills := h.ledger.pills
  rw [hq, List.count_cons_self] at hpills
  have hmain : s.shared.main.closed = true ∧ s.shared.main.inHand = [] := by
    cases hpc : s.shared.main with
    | pushPill | broadcast | unlockPills | join | returned => exact ⟨rfl, rfl⟩
    | _ =>
      simp only [hpc, MainPc.pills] at hpills
      omega
  refine ⟨hmain.1, fun fd hfd => ?_⟩
  have hlast := h.ledger.last
  rw [hq] at hlast
  have hnone : fd ∉ s.shared.queue := by
    rw [hq]
    intro hmem
    rcases List.mem_cons.mp hmem with heq | hmem
    · exact hfd heq
    · exact hfd (hlast.all_of_head fd hmem)
  rw [h.ledger.sockets fd hfd, hmain.2, List.count_eq_zero.mpr hnone]
  rfl

theorem joined (hn : 1 ≤ n) (h : ServerInv s) (hj : Joined s) :
    s.shared.queue = [] ∧ s.shared.history.handled.Perm s.shared.history.accepted ∧
      ∀ i, s.locals i = .exited := by
  have hjoin := h.join
  unfold JoinOk at hjoin
  have hexited : (∀ i, s.locals i = .exited) ∧ s.shared.main.inHand = [] := by
    rcases hj with hpc | ⟨k, hpc, hk⟩
    · simp only [hpc] at hjoin ⊢
      exact ⟨hjoin, rfl⟩
    · simp only [hpc] at hjoin ⊢
      exact ⟨fun i => hjoin i (i.isLt.trans_le hk), rfl⟩
  obtain ⟨hexited, hhand⟩ := hexited
  have hq := h.queue_nil hn hexited
  refine ⟨hq, List.perm_iff_count.mpr fun fd => ?_, hexited⟩
  by_cases hfd : fd = POISON_PILL
  · subst hfd
    rw [List.count_eq_zero.mpr fun hmem => h.ledger.accepted _ hmem rfl,
      List.count_eq_zero.mpr fun hmem => h.ledger.handled _ hmem rfl]
  · have hcarriers : carriers fd s.locals = 0 := by
      apply tally_eq_zero_iff.mpr
      intro i hi
      rw [hexited i] at hi
      cases hi
    rw [h.ledger.sockets fd hfd, hcarriers, hq, hhand]
    rfl

end ServerInv

theorem servedOnce_of_run (hn : 1 ≤ n) {as : List (Action n)} (hrun : run step (init n) as = some s) :
    ServedOnce as s := by
  have h : ServerInv s := Reachable.invariant ServerInv (reachable_of_run hrun) .init
    fun _ _ _ hu hv => hu.step hn hv
  refine ⟨fun i => h.popsItem, h.ledger.sockets, ?_, pops_count hrun, fun i queue _ hq => ?_,
    fun hj => ?_, h.no_lostWakeup hn⟩
  · intro fd hfd
    rcases List.mem_append.mp hfd with hfd | hfd
    · exact h.ledger.accepted fd hfd
    · exact h.ledger.handled fd hfd
  · obtain ⟨hclosed, hcount⟩ := h.afterSockets hq
    exact ⟨fun t ht => closed_accepted hclosed ht, hcount⟩
  · obtain ⟨hq, hperm, hexited⟩ := h.joined hn hj
    refine ⟨hq, hperm, fun i => ⟨hexited i, ?_⟩⟩
    rw [pops_count hrun i, hexited i]
    rfl

def onlyWorker (steps : ℕ) : List (Action 1) :=
  List.replicate steps (.worker ⟨0, Nat.one_pos⟩ .shutdown)

def onlyMain (steps : ℕ) : List (Action 1) := List.replicate steps .main

def serveOne : List (Action 1) :=
  .main :: .accept (.socket 4) :: .main :: .main :: .signal ∅ :: .main ::
    onlyWorker 8 ++ onlyMain 6 ++ onlyWorker 5 ++ onlyMain 2

theorem servedOnce_serveOne : ∃ s : State 1, run step (init 1) serveOne = some s ∧
    s.shared.history.handled = [4] ∧ s.shared.main = .returned true ∧ ServedOnce serveOne s := by
  have hrun : (run step (init 1) serveOne).any (fun s => decide (s.shared.history.handled = [4] ∧
      s.shared.main = .returned true)) = true := by decide +kernel
  obtain ⟨s, hs, hp⟩ := (Option.any_eq_true _ _).mp hrun
  obtain ⟨hhandled, hmain⟩ := of_decide_eq_true hp
  exact ⟨s, hs, hhandled, hmain, servedOnce_of_run (Nat.le_refl 1) hs⟩

end PsOs.HttpServer
