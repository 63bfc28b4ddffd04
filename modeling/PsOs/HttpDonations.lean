import PsOs.HttpLedger

namespace PsOs.HttpServer

open Threads TransitionSystems

variable {n : ℕ} {s t : State n}

def Worker.added : Worker → Option ℚ
  | .unlockDonation _ amount | .report _ amount => some amount
  | _ => none

def pending (s : State n) : Multiset ℚ := gather Worker.added s.locals

def Explains : ℚ → List (ℚ × Option ℚ) → Prop
  | _, [] => True
  | sum, (amount, reply) :: order =>
    (∀ balance ∈ reply, balance = sum + amount) ∧ Explains (sum + amount) order

def answered (r : ℚ × ℚ) : ℚ × Option ℚ := (r.1, some r.2)

def unanswered (amount : ℚ) : ℚ × Option ℚ := (amount, none)

def Linearizable (s : State n) : Prop :=
  ∃ order : List (ℚ × Option ℚ), Explains 0 order ∧
    (order : Multiset (ℚ × Option ℚ)) =
      (s.shared.history.replies.map answered : List (ℚ × Option ℚ)) + (pending s).map unanswered

theorem explains_append {sum : ℚ} {front back : List (ℚ × Option ℚ)} :
    Explains sum (front ++ back) ↔
      Explains sum front ∧ Explains (sum + (front.map Prod.fst).sum) back := by
  induction front generalizing sum with
  | nil => simp [Explains]
  | cons d front ih =>
    simp only [List.cons_append, Explains, ih, and_assoc, List.map_cons, List.sum_cons, add_assoc]

theorem explains_unanswered {sum : ℚ} {order : List (ℚ × Option ℚ)}
    (h : ∀ d ∈ order, d.2 = none) : Explains sum order := by
  induction order generalizing sum with
  | nil => trivial
  | cons d order ih =>
    refine ⟨?_, ih fun e he => h e (List.mem_cons_of_mem _ he)⟩
    intro balance hbalance
    rw [h d List.mem_cons_self] at hbalance
    cases hbalance

/-- No donation is added between the addition of another one and the read for its reply. -/
def Undisturbed (s : State n) (a : Action n) : Prop :=
  ∀ i request fd amount, a = .worker i request → s.locals i = .add fd amount →
    ∀ j, (s.locals j).added = none

inductive DonationMove (srv : Server n) : Worker → Server n → Worker → Prop
  | keep {w w' : Worker} {srv' : Server n} (hadded : w'.added = w.added)
      (hdonations : srv'.donations = srv.donations)
      (hreplies : srv'.history.replies = srv.history.replies) : DonationMove srv w srv' w'
  | add (fd : ℤ) (amount : ℚ) : DonationMove srv (.add fd amount)
      { srv with donations := srv.donations + amount } (.unlockDonation fd amount)
  | report (fd : ℤ) (amount : ℚ) : DonationMove srv (.report fd amount)
      { srv with history := { srv.history with
        replies := srv.history.replies ++ [(amount, srv.donations)] } } (.close fd)

theorem stepWorker_donation {i : Fin n} {request : Request} {srv srv' : Server n} {w w' : Worker}
    (h : stepWorker i request srv w = some (srv', w')) : DonationMove srv w srv' w' := by
  cases w with
  | lock | relock | lockDonation =>
    simp only [stepWorker, Option.map_eq_some_iff] at h
    obtain ⟨m, -, h⟩ := h
    cases h
    exact .keep rfl rfl rfl
  | test =>
    cases h
    refine .keep ?_ rfl rfl
    split <;> rfl
  | read fd =>
    cases h
    refine .keep ?_ rfl rfl
    split <;> rfl
  | pop =>
    simp only [stepWorker] at h
    split at h <;> cases h
    exact .keep rfl rfl rfl
  | check fd =>
    simp only [stepWorker] at h
    split at h <;> cases h <;> exact .keep rfl rfl rfl
  | dispatch fd request =>
    rcases request with _ | _ | (_ | amount) | _ | _ <;> cases h <;> exact .keep rfl rfl rfl
  | add fd amount =>
    cases h
    exact .add fd amount
  | report fd amount =>
    cases h
    exact .report fd amount
  | wait | unlock | unlockDonation | close =>
    cases h
    exact .keep rfl rfl rfl
  | sleep | exited => cases h

theorem MainMove.donations (hm : MainMove s t) : pending t = pending s ∧
    t.shared.donations = s.shared.donations ∧
      t.shared.history.replies = s.shared.history.replies := by
  have hwake : ∀ woken, gather Worker.added (wake woken s.locals) = pending s := fun woken =>
    gather_congr (field_wake Worker.added rfl woken s.locals)
  cases hm with
  | accepted result hpc => cases result <;> exact ⟨rfl, rfl, rfl⟩
  | signal woken hpc hwoken | broadcast hpc => exact ⟨hwake _, rfl, rfl⟩
  | _ => exact ⟨rfl, rfl, rfl⟩

structure Chronicle (s : State n) : Prop where
  explained : Explains 0 (s.shared.history.replies.map answered)
  total : s.shared.donations = (s.shared.history.replies.map Prod.fst).sum + (pending s).sum
  single : (pending s).card ≤ 1

namespace Chronicle

theorem keep (h : Chronicle s) (hpending : pending t = pending s)
    (hdonations : t.shared.donations = s.shared.donations)
    (hreplies : t.shared.history.replies = s.shared.history.replies) : Chronicle t := by
  obtain ⟨hexplained, htotal, hsingle⟩ := h
  constructor
  · rwa [hreplies]
  · rwa [hdonations, hreplies, hpending]
  · rwa [hpending]

theorem add (h : Chronicle s) {amount : ℚ} (hnone : pending s = 0) (hone : pending t = {amount})
    (hdonations : t.shared.donations = s.shared.donations + amount)
    (hreplies : t.shared.history.replies = s.shared.history.replies) : Chronicle t := by
  obtain ⟨hexplained, htotal, -⟩ := h
  rw [hnone, Multiset.sum_zero, add_zero] at htotal
  constructor
  · rwa [hreplies]
  · rw [hdonations, htotal, hreplies, hone, Multiset.sum_singleton]
  · rw [hone, Multiset.card_singleton]

theorem report (h : Chronicle s) {amount : ℚ} (hone : pending t + {amount} = pending s)
    (hdonations : t.shared.donations = s.shared.donations)
    (hreplies : t.shared.history.replies =
      s.shared.history.replies ++ [(amount, s.shared.donations)]) : Chronicle t := by
  obtain ⟨hexplained, htotal, hsingle⟩ := h
  have hnone : pending t = 0 := by
    have hcard := congrArg Multiset.card hone
    rw [Multiset.card_add, Multiset.card_singleton] at hcard
    exact Multiset.card_eq_zero.mp (by omega)
  rw [hnone, zero_add] at hone
  rw [← hone, Multiset.sum_singleton] at htotal
  constructor
  · rw [hreplies, List.map_append, explains_append]
    refine ⟨hexplained, ?_, trivial⟩
    intro balance hbalance
    rw [← Option.mem_some.mp hbalance, htotal, List.map_map]
    simp [answered, Function.comp_def]
  · rw [hdonations, htotal, hreplies, hnone]
    simp
  · rw [hnone]
    simp

theorem worker (h : Chronicle s) {i : Fin n} {srv' : Server n} {w' : Worker}
    (hm : DonationMove s.shared (s.locals i) srv' w')
    (hok : ∀ fd amount, s.locals i = .add fd amount → ∀ j, (s.locals j).added = none) :
    Chronicle ⟨srv', Function.update s.locals i w'⟩ := by
  have hupdate := gather_update Worker.added s.locals i w'
  generalize hw : s.locals i = w at hm hupdate
  cases hm with
  | keep hadded hdonations hreplies =>
    rw [hadded] at hupdate
    exact h.keep (add_right_cancel hupdate) hdonations hreplies
  | add fd amount =>
    have hnone : gather Worker.added s.locals = 0 := gather_eq_zero_iff.mpr (hok fd amount hw)
    have hone : gather Worker.added (Function.update s.locals i (.unlockDonation fd amount)) =
        {amount} := by simpa [hnone, Worker.added] using hupdate
    exact h.add hnone hone rfl rfl
  | report fd amount =>
    have hone : gather Worker.added (Function.update s.locals i (.close fd)) + {amount} =
        gather Worker.added s.locals := by simpa [Worker.added] using hupdate
    exact h.report hone rfl rfl

theorem step {a : Action n} (h : Chronicle s) (hok : Undisturbed s a) (ht : step s a = some t) :
    Chronicle t := by
  have hmain : ∀ u, MainMove s u → Chronicle u := by
    intro u hm
    obtain ⟨hpending, hdonations, hreplies⟩ := hm.donations
    exact h.keep hpending hdonations hreplies
  cases a with
  | worker i request =>
    simp only [HttpServer.step] at ht
    split at ht
    · cases ht
    · obtain ⟨srv', w', hw, rfl⟩ := Config.move_eq_some.mp ht
      exact h.worker (stepWorker_donation hw) fun fd amount => hok i request fd amount rfl
  | spurious i =>
    simp only [HttpServer.step] at ht
    split at ht <;> cases ht
    refine h.keep ?_ rfl rfl
    apply gather_congr
    intro j
    apply field_update
    rw [‹s.locals i = .sleep›]
    rfl
  | main | accept | signal =>
    rcases step_cases ht with ⟨-, hm⟩ | ⟨i, srv', w', -, ⟨request, ha⟩, -⟩ | ⟨i, ha, -⟩
    · exact hmain t hm
    · cases ha
    · cases ha

theorem init : Chronicle (init n) := by
  have hnone : pending (HttpServer.init n) = 0 := gather_eq_zero_iff.mpr fun _ => rfl
  refine ⟨trivial, ?_, ?_⟩
  · rw [hnone]
    simp [HttpServer.init]
  · rw [hnone]
    exact Nat.zero_le _

theorem linearizable (h : Chronicle s) : Linearizable s := by
  refine ⟨s.shared.history.replies.map answered ++ ((pending s).map unanswered).toList, ?_, ?_⟩
  · rw [explains_append]
    refine ⟨h.explained, explains_unanswered ?_⟩
    intro d hd
    obtain ⟨amount, -, rfl⟩ := Multiset.mem_map.mp (Multiset.mem_toList.mp hd)
    rfl
  · rw [← Multiset.coe_add, Multiset.coe_toList]

end Chronicle

theorem linearizable_of_reachable (h : ReachableBy step Undisturbed (init n) s) :
    Linearizable s :=
  (h.invariant Chronicle Chronicle.init fun _ _ _ hs hok ht => hs.step hok ht).linearizable

def queueTwo : List (Action 2) :=
  [.main, .accept (.socket 4), .main, .main, .signal ∅, .main, .main, .accept (.socket 5), .main,
    .main, .signal ∅, .main]

def firstWorker : Fin 2 := ⟨0, Nat.two_pos⟩

def secondWorker : Fin 2 := ⟨1, Nat.one_lt_two⟩

def donating (i : Fin 2) (amount : ℚ) : List (Action 2) :=
  List.replicate 10 (.worker i (.donate (some amount)))

def oneAfterTheOther : List (Action 2) :=
  queueTwo ++ donating firstWorker 10 ++ .worker firstWorker .other :: donating secondWorker 5 ++
    [.worker secondWorker .other]

def overlapping : List (Action 2) :=
  queueTwo ++ donating firstWorker 10 ++ donating secondWorker 5 ++
    [.worker firstWorker .other, .worker secondWorker .other]

def Worker.adding : Worker → Bool
  | .add _ _ => true
  | _ => false

theorem linearizable_oneAfterTheOther : ∃ s : State 2,
    s.shared.history.replies = [(10, 10), (5, 15)] ∧ Linearizable s := by
  obtain ⟨s, hs, hp⟩ := exists_reachableBy_of_run step
    (fun (s : State 2) _ => decide (∀ i j, (s.locals i).adding = true → (s.locals j).added = none))
    (init 2) oneAfterTheOther (fun s => decide (s.shared.history.replies = [(10, 10), (5, 15)]))
    (by decide +kernel)
  refine ⟨s, of_decide_eq_true hp, linearizable_of_reachable (hs.mono ?_)⟩
  rintro u a hok i request fd amount rfl hadd j
  exact of_decide_eq_true hok i j (by rw [hadd]; rfl)

theorem both_report_total : ∃ s : State 2, Reachable step (init 2) s ∧
    s.shared.history.replies = [(10, 15), (5, 15)] ∧ (∀ i, (s.locals i).added = none) ∧
      ¬ Linearizable s := by
  obtain ⟨s, hs, hp⟩ := exists_reachable_of_run step (init 2) overlapping
    (fun s => decide (s.shared.history.replies = [(10, 15), (5, 15)] ∧
      ∀ i, (s.locals i).added = none)) (by decide +kernel)
  obtain ⟨hreplies, hnone⟩ := of_decide_eq_true hp
  refine ⟨s, hs, hreplies, hnone, ?_⟩
  rintro ⟨order, hexplains, hall⟩
  have hpending : pending s = 0 := gather_eq_zero_iff.mpr hnone
  rw [hpending, hreplies, Multiset.map_zero, add_zero, Multiset.coe_eq_coe] at hall
  cases order with
  | nil => exact absurd hall.length_eq (by decide)
  | cons d order =>
    -- the first donation of the order reports only itself
    have hd : d ∈ [(10, 15), (5, 15)].map answered := hall.subset List.mem_cons_self
    obtain ⟨hfirst, -⟩ := hexplains
    simp only [answered, List.map_cons, List.map_nil, List.mem_cons, List.not_mem_nil, or_false] at hd
    rcases hd with rfl | rfl <;> exact absurd (hfirst 15 rfl) (by decide +kernel)

end PsOs.HttpServer
