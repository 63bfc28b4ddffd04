import PsOs.HttpServed

namespace PsOs.HttpServer

open Threads TransitionSystems

variable {n : ℕ} {s t : State n}

def Action.isOwn : Action n → Bool
  | .accept _ | .spurious _ => false
  | _ => true

/-- The server waits for a client, or for a wakeup that nobody will send. -/
def Blocked (s : State n) : Prop := ∀ a : Action n, a.isOwn = true → step s a = none

def Worker.remaining : Worker → ℕ
  | .sleep | .exited => 0
  | .wait | .pop => 1
  | .test => 2
  | .lock | .relock => 3
  | .close _ => 4
  | .report _ _ => 5
  | .unlockDonation _ _ => 6
  | .add _ _ => 7
  | .lockDonation _ _ => 8
  | .dispatch _ _ => 9
  | .read _ => 10
  | .check _ => 11
  | .unlock _ => 12

def MainPc.remaining (n : ℕ) : MainPc → ℕ
  | .guard => 17 * n + 7
  | .accept => 17 * n + 6
  | .lock _ => 20 * n + 23
  | .push _ => 20 * n + 22
  | .signal => 20 * n + 9
  | .unlock => 17 * n + 8
  | .lockPills => 17 * n + 5
  | .pushPill k => 13 * (n - k) + 4 * n + 4
  | .broadcast => 4 * n + 3
  | .unlockPills => n + 2
  | .join k => n - k + 1
  | .returned _ => 0

def remaining (s : State n) : ℕ :=
  s.shared.main.remaining n + 12 * s.shared.queue.length + ∑ i, (s.locals i).remaining

section Moves

theorem sum_wake_le (woken : Finset (Fin n)) (locals : Fin n → Worker) :
    ∑ i, (wake woken locals i).remaining ≤ ∑ i, (locals i).remaining + 3 * n := by
  have hone : ∀ i, (wake woken locals i).remaining ≤ (locals i).remaining + 3 := by
    intro i
    obtain ⟨-, hwake⟩ | ⟨-, hwake⟩ := wake_cases woken locals i
    · rw [hwake]
      exact Nat.le_add_left _ _
    · rw [hwake]
      exact Nat.le_add_right _ _
  simpa using sum_le_sum_add Worker.remaining hone

theorem MainMove.remaining_lt (hm : MainMove s t) (haccept : s.shared.main ≠ .accept) :
    remaining t < remaining s := by
  cases hm with
  | accepted result hpc => exact absurd hpc haccept
  | guard pc hpc hnext =>
    rcases hnext with rfl | rfl <;> simp only [remaining, Server.goto, hpc, MainPc.remaining] <;>
      omega
  | lock fd hpc hfree | unlock hpc | lockPills hpc hfree | allPills k hpc hk | unlockPills hpc
  | joined k hpc hk =>
    simp only [remaining, Server.goto, hpc, MainPc.remaining]
    omega
  | push fd hpc | pushPill k hpc hk =>
    simp only [remaining, Server.goto, Server.push, hpc, MainPc.remaining, List.length_append,
      List.length_singleton]
    omega
  | signal woken hpc hwoken =>
    have hwake := sum_wake_le woken s.locals
    simp only [remaining, Server.goto, hpc, MainPc.remaining]
    omega
  | broadcast hpc =>
    have hwake := sum_wake_le Finset.univ s.locals
    simp only [remaining, Server.goto, hpc, MainPc.remaining]
    omega
  | join k hpc hk =>
    have hlt := k.isLt
    simp only [remaining, Server.goto, hpc, MainPc.remaining]
    omega

theorem accepted_remaining_le (hpc : s.shared.main = .accept) (result : Accept) :
    remaining { s with shared := accepted s.shared result } ≤ remaining s + (3 * n + 17) := by
  cases result <;> simp only [remaining, accepted, Server.goto, hpc, MainPc.remaining] <;> omega

theorem stepWorker_lt {i : Fin n} {request : Request} {srv srv' : Server n} {w w' : Worker}
    (h : stepWorker i request srv w = some (srv', w')) :
    w'.remaining + 12 * srv'.queue.length < w.remaining + 12 * srv.queue.length := by
  cases w with
  | lock | relock | lockDonation =>
    simp only [stepWorker, Option.map_eq_some_iff] at h
    obtain ⟨m, -, h⟩ := h
    cases h
    simp [Worker.remaining]
  | test =>
    cases h
    split <;> simp [Worker.remaining]
  | pop =>
    simp only [stepWorker] at h
    split at h
    case h_1 => cases h
    case h_2 fd queue hq =>
      cases h
      simp only [hq, List.length_cons, Worker.remaining]
      omega
  | check fd =>
    simp only [stepWorker] at h
    split at h <;> cases h <;> simp [Worker.remaining]
  | read fd =>
    cases h
    split <;> simp [Worker.remaining]
  | dispatch fd request =>
    rcases request with _ | _ | (_ | amount) | _ | _ <;> cases h <;>
      simp [Worker.remaining, Server.shutdown]
  | wait | unlock | add | unlockDonation | report | close =>
    cases h
    simp [Worker.remaining]
  | sleep | exited => cases h

theorem own_cases {a : Action n} (ha : a.isOwn = true) (h : step s a = some t) :
    MainMove s t ∧ s.shared.main ≠ .accept ∨
      ∃ i request srv' w', stepWorker i request s.shared (s.locals i) = some (srv', w') ∧
        t = ⟨srv', Function.update s.locals i w'⟩ := by
  cases a with
  | main =>
    refine .inl ⟨stepMain_move h, fun hpc => ?_⟩
    simp only [step, stepMain, hpc] at h
    cases h
  | signal woken =>
    simp only [step, stepSignal] at h
    split at h
    case isTrue hs =>
      cases h
      exact .inl ⟨.signal woken hs.1 hs.2, by simp [hs.1]⟩
    case isFalse => cases h
  | worker i request =>
    simp only [step] at h
    split at h
    · cases h
    · obtain ⟨srv', w', hw, rfl⟩ := Config.move_eq_some.mp h
      exact .inr ⟨i, request, srv', w', hw, rfl⟩
  | accept | spurious => cases ha

theorem remaining_lt {a : Action n} (ha : a.isOwn = true) (ht : step s a = some t) :
    remaining t < remaining s := by
  obtain ⟨hm, haccept⟩ | ⟨i, request, srv', w', hw, rfl⟩ := own_cases ha ht
  · exact hm.remaining_lt haccept
  · have hlt := stepWorker_lt hw
    have hsum := sum_update Worker.remaining s.locals i w'
    simp only [remaining, (stepWorker_move hw).main_eq]
    omega

theorem remaining_le {a : Action n} (ha : a.isOwn = false) (ht : step s a = some t) :
    remaining t ≤ remaining s + (3 * n + 17) := by
  cases a with
  | accept result =>
    simp only [step] at ht
    split at ht
    case isTrue hpc =>
      cases ht
      exact accepted_remaining_le hpc result
    case isFalse => cases ht
  | spurious i =>
    simp only [step] at ht
    split at ht
    case isTrue =>
      cases ht
      have hsum : ∑ j, (Function.update s.locals i .relock j).remaining + (s.locals i).remaining =
          ∑ j, (s.locals j).remaining + 3 := sum_update Worker.remaining s.locals i .relock
      simp only [remaining]
      omega
    case isFalse => cases ht
  | main | signal | worker => cases ha

end Moves

section Holders

def QueueHeld (s : State n) : Prop := Held s.shared.mutexQueue (· = true) (sections s)

def Worker.inDonation : Worker → Bool
  | .add _ _ | .unlockDonation _ _ => true
  | _ => false

def donors (s : State n) : Owner n → Bool
  | .main => false
  | .worker i => (s.locals i).inDonation

def DonationHeld (s : State n) : Prop := Held s.shared.mutexDonation (· = true) (donors s)

theorem QueueHeld.main (h : QueueHeld s) (hm : MainMove s t) : QueueHeld t := by
  unfold QueueHeld at h ⊢
  cases hm with
  | lock fd hpc hfree | lockPills hpc hfree =>
    rw [sections_main fun _ => rfl]
    exact Held.acquire rfl
  | unlock hpc | unlockPills hpc => exact Held.none
  | signal woken hpc hwoken | broadcast hpc =>
    rw [sections_main (inSection_wake _ _)]
    exact h.stay fun _ => rfl
  | push fd hpc | pushPill k hpc hk | allPills k hpc hk =>
    rw [sections_main fun _ => rfl]
    exact h.stay fun _ => rfl
  | accepted result hpc =>
    rw [sections_main fun _ => rfl]
    have hsame : (accepted s.shared result).mutexQueue = s.shared.mutexQueue := by
      cases result <;> rfl
    rw [hsame]
    exact h.stay fun hin => by simp [sections, hpc, MainPc.inSection] at hin
  | _ =>
    rw [sections_main fun _ => rfl]
    exact h.stay fun hin => by simp [sections, MainPc.inSection, *] at hin

theorem QueueHeld.worker {i : Fin n} {srv' : Server n} {w' : Worker} (h : QueueHeld s)
    (hm : WorkerMove i s.shared (s.locals i) srv' w') :
    QueueHeld ⟨srv', Function.update s.locals i w'⟩ := by
  unfold QueueHeld at h ⊢
  rw [sections_worker hm.main_eq]
  generalize hw : s.locals i = w at hm
  cases hm with
  | lock hfree | relock hfree => exact Held.acquire rfl
  | wait | unlock fd => exact Held.none
  | empty hq | nonempty hq | pop fd queue hq => exact h.stay fun _ => rfl
  | pill | handle fd hfd => exact h.stay fun hin => by simp [sections, hw, Worker.inSection] at hin
  | serve hhandling hw' hsame =>
    rw [hsame.mutexQueue]
    exact h.stay fun hin => by simp [sections, hw, hhandling.not_inSection] at hin

theorem QueueHeld.step {a : Action n} (h : QueueHeld s) (ht : step s a = some t) : QueueHeld t := by
  rcases step_cases ht with ⟨-, hm⟩ | ⟨i, srv', w', hm, -, rfl⟩ | ⟨i, -, hsleep, rfl⟩
  · exact h.main hm
  · exact h.worker hm
  · unfold QueueHeld at h ⊢
    rw [sections_worker rfl]
    exact h.stay fun hin => by simp [sections, hsleep, Worker.inSection] at hin

theorem donors_worker {i : Fin n} {srv' : Server n} {w' : Worker} :
    donors ⟨srv', Function.update s.locals i w'⟩ =
      Function.update (donors s) (.worker i) w'.inDonation := by
  funext owner
  cases owner with
  | main => rfl
  | worker j =>
    by_cases hji : j = i
    · subst hji
      simp [donors]
    · simp [donors, hji]

theorem stepWorker_holder {i : Fin n} {request : Request} {srv srv' : Server n} {w w' : Worker}
    (h : stepWorker i request srv w = some (srv', w')) :
    srv'.mutexDonation = some (.worker i) ∧ w'.inDonation = true ∨ srv'.mutexDonation = none ∨
      srv'.mutexDonation = srv.mutexDonation ∧ (w.inDonation = true → w'.inDonation = true) := by
  cases w with
  | lockDonation =>
    simp only [stepWorker, Option.map_eq_some_iff, acquire_eq_some] at h
    obtain ⟨m, ⟨-, rfl⟩, h⟩ := h
    cases h
    exact .inl ⟨rfl, rfl⟩
  | unlockDonation =>
    cases h
    exact .inr (.inl rfl)
  | add =>
    cases h
    exact .inr (.inr ⟨rfl, fun _ => rfl⟩)
  | lock | relock =>
    simp only [stepWorker, Option.map_eq_some_iff] at h
    obtain ⟨m, -, h⟩ := h
    cases h
    exact .inr (.inr ⟨rfl, fun hin => by cases hin⟩)
  | pop | check =>
    simp only [stepWorker] at h
    split at h <;> cases h <;> exact .inr (.inr ⟨rfl, fun hin => by cases hin⟩)
  | dispatch fd request =>
    rcases request with _ | _ | (_ | amount) | _ | _ <;> cases h <;>
      exact .inr (.inr ⟨rfl, fun hin => by cases hin⟩)
  | sleep | exited => cases h
  | test | wait | unlock | read | report | close =>
    cases h
    exact .inr (.inr ⟨rfl, fun hin => by cases hin⟩)

theorem MainMove.donors_eq (hm : MainMove s t) :
    t.shared.mutexDonation = s.shared.mutexDonation ∧ donors t = donors s := by
  have hwake : ∀ srv' woken, donors ⟨srv', wake woken s.locals⟩ = donors s := by
    intro srv' woken
    funext owner
    cases owner with
    | main => rfl
    | worker i => exact field_wake Worker.inDonation rfl woken s.locals i
  cases hm with
  | accepted result hpc => cases result <;> exact ⟨rfl, rfl⟩
  | signal woken hpc hwoken | broadcast hpc => exact ⟨rfl, hwake _ _⟩
  | _ => exact ⟨rfl, rfl⟩

theorem DonationHeld.step {a : Action n} (h : DonationHeld s) (ht : step s a = some t) :
    DonationHeld t := by
  unfold DonationHeld at h ⊢
  cases a with
  | worker i request =>
    simp only [HttpServer.step] at ht
    split at ht
    · cases ht
    · obtain ⟨srv', w', hw, rfl⟩ := Config.move_eq_some.mp ht
      rw [donors_worker]
      obtain ⟨hmutex, hin⟩ | hmutex | ⟨hmutex, hin⟩ := stepWorker_holder hw
      · rw [hmutex]
        exact Held.acquire hin
      · rw [hmutex]
        exact Held.none
      · rw [hmutex]
        exact h.stay hin
  | spurious i =>
    simp only [HttpServer.step] at ht
    split at ht
    case isTrue hsleep =>
      cases ht
      rw [donors_worker]
      exact h.stay fun hin => by simp [donors, hsleep, Worker.inDonation] at hin
    case isFalse => cases ht
  | main | accept | signal =>
    rcases step_cases ht with ⟨-, hm⟩ | ⟨i, srv', w', -, ⟨request, ha⟩, -⟩ | ⟨i, ha, -⟩
    · obtain ⟨hmutex, hdonors⟩ := hm.donors_eq
      rwa [hmutex, hdonors]
    · cases ha
    · cases ha

end Holders

theorem Blocked.worker (h : Blocked s) (hmain : s.shared.main ≠ .returned false) (i : Fin n) :
    stepWorker i .other s.shared (s.locals i) = none := by
  have hnone := h (.worker i .other) rfl
  simpa only [step, hmain, if_false, Config.move, Option.map_eq_none_iff] using hnone

structure Sound (s : State n) : Prop where
  inv : ServerInv s
  queueHeld : QueueHeld s
  donationHeld : DonationHeld s

namespace Sound

theorem init : Sound (init n) := ⟨ServerInv.init, Held.none, Held.none⟩

theorem step (hn : 1 ≤ n) {a : Action n} (h : Sound s) (ht : step s a = some t) : Sound t :=
  ⟨h.inv.step hn ht, h.queueHeld.step ht, h.donationHeld.step ht⟩

theorem queue_free (h : Sound s) (hmain : s.shared.main ≠ .returned false) (hblocked : Blocked s) :
    s.shared.mutexQueue = none := by
  cases hmutex : s.shared.mutexQueue with
  | none => rfl
  | some owner =>
    have hin := h.queueHeld owner hmutex
    cases owner with
    | main =>
      have hnone := hblocked .main rfl
      have hnosignal := hblocked (.signal Finset.univ) rfl
      simp only [HttpServer.step] at hnone hnosignal
      cases hpc : s.shared.main <;> simp only [sections, hpc, MainPc.inSection] at hin
      case signal => simp [stepSignal, hpc] at hnosignal
      case pushPill k =>
        simp only [stepMain, hpc] at hnone
        split at hnone <;> cases hnone
      case push | unlock | broadcast | unlockPills =>
        simp only [stepMain, hpc] at hnone
        cases hnone
      all_goals cases hin
    | worker i =>
      have hnone := hblocked.worker hmain i
      have htest := h.inv.tested i
      cases hw : s.locals i <;> simp only [sections, hw, Worker.inSection] at hin
      case pop =>
        rw [hw] at hnone htest
        cases hq : s.shared.queue with
        | nil => exact absurd hq htest
        | cons fd queue => simp [stepWorker, hq] at hnone
      case test | wait | unlock =>
        rw [hw] at hnone
        cases hnone
      all_goals cases hin

theorem donation_free (h : Sound s) (hmain : s.shared.main ≠ .returned false)
    (hblocked : Blocked s) : s.shared.mutexDonation = none := by
  cases hmutex : s.shared.mutexDonation with
  | none => rfl
  | some owner =>
    have hin := h.donationHeld owner hmutex
    cases owner with
    | main => cases hin
    | worker i =>
      have hnone := hblocked.worker hmain i
      cases hw : s.locals i <;> simp only [donors, hw, Worker.inDonation] at hin
      case add | unlockDonation =>
        rw [hw] at hnone
        cases hnone
      all_goals cases hin

theorem asleep (h : Sound s) (hmain : s.shared.main ≠ .returned false) (hblocked : Blocked s)
    (i : Fin n) : s.locals i = .exited ∨ s.locals i = .sleep := by
  have hnone := hblocked.worker hmain i
  have hqueue := h.queue_free hmain hblocked
  have hdonation := h.donation_free hmain hblocked
  have htest := h.inv.tested i
  cases hw : s.locals i <;> rw [hw] at hnone htest
  case exited => exact .inl rfl
  case sleep => exact .inr rfl
  case pop =>
    cases hq : s.shared.queue with
    | nil => exact absurd hq htest
    | cons fd queue => simp [stepWorker, hq] at hnone
  case lock | relock => simp [stepWorker, hqueue, acquire] at hnone
  case lockDonation => simp [stepWorker, hdonation, acquire] at hnone
  case check fd =>
    simp only [stepWorker] at hnone
    split at hnone <;> cases hnone
  case dispatch fd request =>
    rcases request with _ | _ | (_ | amount) | _ | _ <;> cases hnone
  all_goals cases hnone

theorem queue_nil (hn : 1 ≤ n) (h : Sound s) (hmain : s.shared.main ≠ .returned false)
    (hblocked : Blocked s) : s.shared.queue = [] := by
  by_contra hq
  exact h.inv.no_lostWakeup hn ⟨hq, h.queue_free hmain hblocked, h.asleep hmain hblocked⟩

end Sound

end PsOs.HttpServer
