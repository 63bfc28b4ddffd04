import PsOs.ChatSlots

namespace PsOs.ChatServer

open Threads TransitionSystems

variable {admins : Admins} {s t : State}

def Owner.act : Owner → Action
  | .listener => .listener
  | .client i => .client i []

def terminated (s : State) : Owner → Bool
  | .listener => s.shared.listener.terminated
  | .client i => (s.locals i).terminated

def ClientPc.locking : ClientPc → Bool
  | .lockWaiting | .lockLeave => true
  | _ => false

def ListenerPc.locking : ListenerPc → Bool
  | .lockCheck _ | .lockInsert _ => true
  | _ => false

def locking (s : State) : Owner → Bool
  | .listener => s.shared.listener.locking
  | .client i => (s.locals i).pc.locking

def Joins (s : State) (owner : Owner) : Prop :=
  match s.shared.main with
  | .joinListener => owner = .listener
  | .join i => ∃ j, s.shared.clientThreads i = some j ∧ owner = .client j
  | _ => False

def Enters (admins : Admins) (s : State) (owner : Owner) : Prop :=
  ∃ holder : Owner, ∃ k ≤ 5, ∃ t, run (step admins) s (List.replicate k holder.act) = some t ∧
    (step admins t owner.act).isSome = true

structure NoHang (admins : Admins) (s : State) : Prop where
  holder : ∀ owner, s.shared.clientsMutex = some owner → terminated s owner = false
  join : ∀ owner, Joins s owner → locking s owner = true → Enters admins s owner

/-- No cancellation takes effect at one of the two calls of `printf` inside a section. -/
def CancelsOutside (s : State) : Action → Prop
  | .cancelListener => s.shared.listener ≠ .print
  | .cancelClient i => (s.locals i).pc ≠ .printWaiting
  | _ => True

def ListenerPc.toUnlock : ListenerPc → ℕ
  | .storeSocket _ => 5
  | .create _ => 4
  | .increment => 3
  | .check _ | .print => 2
  | .unlockFull _ | .unlockCheck _ | .unlockInsert => 1
  | _ => 0

def ClientPc.toUnlock : ClientPc → ℕ
  | .printWaiting | .leave => 2
  | .unlockWaiting | .unlockLeave => 1
  | _ => 0

def toUnlock (s : State) : Owner → ℕ
  | .listener => s.shared.listener.toUnlock
  | .client i => (s.locals i).pc.toUnlock

theorem toUnlock_pos {owner : Owner} : 0 < toUnlock s owner ↔ sections s owner = true := by
  cases owner with
  | listener =>
    simp only [toUnlock, sections]
    cases s.shared.listener <;> simp [ListenerPc.toUnlock, ListenerPc.inSection]
  | client i =>
    simp only [toUnlock, sections, Client.inSection]
    cases (s.locals i).pc <;> simp [ClientPc.toUnlock]

theorem toUnlock_le (s : State) (owner : Owner) : toUnlock s owner ≤ 5 := by
  cases owner with
  | listener =>
    simp only [toUnlock]
    cases s.shared.listener <;> simp [ListenerPc.toUnlock]
  | client i =>
    simp only [toUnlock]
    cases (s.locals i).pc <;> simp [ClientPc.toUnlock]

theorem outside_of_ended {owner : Owner} (h : terminated s owner = true) :
    sections s owner = false := by
  cases owner with
  | listener =>
    simp only [terminated, sections] at h ⊢
    cases hpc : s.shared.listener <;> simp_all [ListenerPc.terminated, ListenerPc.inSection]
  | client i =>
    simp only [terminated, Client.terminated, sections, Client.inSection] at h ⊢
    cases hpc : (s.locals i).pc <;> simp_all

theorem outside_of_locking {owner : Owner} (h : locking s owner = true) :
    sections s owner = false := by
  cases owner with
  | listener =>
    simp only [locking, sections] at h ⊢
    cases hpc : s.shared.listener <;> simp_all [ListenerPc.locking, ListenerPc.inSection]
  | client i =>
    simp only [locking, sections, Client.inSection] at h ⊢
    cases hpc : (s.locals i).pc <;> simp_all [ClientPc.locking]

section Unlock

variable {owner other : Owner} {k : ℕ}

theorem unlock_enabled (admins : Admins) (h : 0 < toUnlock s owner) :
    (step admins s owner.act).isSome = true := by
  cases owner with
  | listener =>
    simp only [toUnlock] at h
    simp only [Owner.act, step, stepListener]
    cases hpc : s.shared.listener <;> simp [hpc, ListenerPc.toUnlock] at h ⊢
  | client i =>
    simp only [toUnlock] at h
    simp only [Owner.act, step, Config.move, stepClient]
    cases hpc : (s.locals i).pc <;> simp [hpc, ClientPc.toUnlock] at h ⊢

theorem unlock_step (hk : toUnlock s owner = k + 1) (ht : step admins s owner.act = some t) :
    toUnlock t owner = k ∧ (k = 0 → t.shared.clientsMutex = none) := by
  cases owner with
  | listener =>
    simp only [toUnlock] at hk ⊢
    cases step_move ht with
    | listener _ srv' hm =>
      cases hm <;> simp_all [ListenerPc.toUnlock, Server.goto]
    | create client hpc => simp_all [ListenerPc.toUnlock, createThread]
  | client i =>
    simp only [toUnlock] at hk ⊢
    cases step_move ht with
    | client _ _ srv' c' hm =>
      simp only [Function.update_self]
      cases hm <;> simp_all [ClientPc.toUnlock, Client.goto]
    | listener _ srv' hm => cases hm

theorem locking_update {srv' : Server} {i : ℕ} {c' : Client}
    (hlistener : srv'.listener = s.shared.listener) (hne : other ≠ .client i) :
    locking ⟨srv', Function.update s.locals i c'⟩ other = locking s other := by
  cases other with
  | listener => simp only [locking, hlistener]
  | client j =>
    have hji : j ≠ i := fun h => hne (congrArg Owner.client h)
    simp only [locking, Function.update_of_ne hji]

theorem locking_kept (h : SlotInv s) (hne : other ≠ owner) (hl : locking s other = true)
    (ht : step admins s owner.act = some t) : locking t other = true := by
  cases owner with
  | listener =>
    cases other with
    | listener => exact absurd rfl hne
    | client j =>
      cases step_move ht with
      | listener _ srv' hm => exact hl
      | create client hpc =>
        have hj : j ≠ s.shared.spawned := by
          rintro rfl
          simp [locking, h.unborn _ (Nat.le_refl _), ClientPc.locking] at hl
        simpa only [locking, createThread, Function.update_of_ne hj] using hl
  | client i =>
    cases step_move ht with
    | client _ _ srv' c' hm =>
      rw [locking_update hm.frame.listener hne]
      exact hl
    | listener _ srv' hm => cases hm

theorem locking_enabled (hfree : s.shared.clientsMutex = none) (hl : locking s owner = true) :
    (step admins s owner.act).isSome = true := by
  cases owner with
  | listener =>
    simp only [locking] at hl
    simp only [Owner.act, step, stepListener]
    cases hpc : s.shared.listener <;> simp [hpc, ListenerPc.locking, acquire, hfree] at hl ⊢
  | client i =>
    simp only [locking] at hl
    simp only [Owner.act, step, Config.move, stepClient]
    cases hpc : (s.locals i).pc <;> simp [hpc, ClientPc.locking, acquire, hfree] at hl ⊢

theorem enters_of_holder (admins : Admins) (h : SlotInv s) (hne : other ≠ owner)
    (hk : toUnlock s owner = k + 1) (hl : locking s other = true) :
    ∃ t, run (step admins) s (List.replicate (k + 1) owner.act) = some t ∧
      (step admins t other.act).isSome = true := by
  induction k generalizing s with
  | zero =>
    have hpos : 0 < toUnlock s owner := by omega
    obtain ⟨t, ht⟩ := Option.isSome_iff_exists.mp (unlock_enabled admins hpos)
    have hfree := (unlock_step hk ht).2 rfl
    refine ⟨t, by simp [run, ht], locking_enabled hfree (locking_kept h hne hl ht)⟩
  | succ k ih =>
    have hpos : 0 < toUnlock s owner := by omega
    obtain ⟨u, hu⟩ := Option.isSome_iff_exists.mp (unlock_enabled admins hpos)
    obtain ⟨t, ht, henabled⟩ :=
      ih (h.step hu) (unlock_step hk hu).1 (locking_kept h hne hl hu)
    refine ⟨t, ?_, henabled⟩
    rw [List.replicate_succ, run, hu]
    exact ht

end Unlock

structure MutexInv (s : State) : Prop where
  slots : SlotInv s
  held : Held s.shared.clientsMutex (· = true) (sections s)

namespace MutexInv

theorem noHang (h : MutexInv s) : NoHang admins s := by
  constructor
  · intro owner howner
    apply Bool.eq_false_iff.mpr
    intro hended
    have hin := h.held owner howner
    rw [outside_of_ended hended] at hin
    cases hin
  · intro owner _ hl
    cases hmutex : s.shared.clientsMutex with
    | none => exact ⟨owner, 0, by omega, s, rfl, locking_enabled hmutex hl⟩
    | some holder =>
      have hin : 0 < toUnlock s holder := toUnlock_pos.mpr (h.held holder hmutex)
      have hne : owner ≠ holder := by
        rintro rfl
        rw [toUnlock_pos, outside_of_locking hl] at hin
        cases hin
      obtain ⟨k, hk⟩ : ∃ k, toUnlock s holder = k + 1 := ⟨toUnlock s holder - 1, by omega⟩
      obtain ⟨t, ht, henabled⟩ := enters_of_holder admins h.slots hne hk hl
      exact ⟨holder, k + 1, hk ▸ toUnlock_le s holder, t, ht, henabled⟩

theorem client (h : MutexInv s) {i : ℕ} {srv' : Server} {c' : Client}
    (hm : ClientMove i s.shared (s.locals i) srv' c') :
    MutexInv ⟨srv', Function.update s.locals i c'⟩ := by
  refine ⟨h.slots.client hm, ?_⟩
  rw [sections_client (by rw [hm.frame.listener])]
  cases hm with
  | lockWaiting hpc hfree | lockLeave hpc hfree => exact Held.acquire rfl
  | unlockWaiting hpc | unlockLeave hpc => exact Held.none
  | _ => exact h.held.stay (by simp [sections, Client.inSection, Client.goto, *])

theorem cancelClient (h : MutexInv s) {i : ℕ}
    (hpoint : (s.locals i).pc.cancellationPoint = true) (hok : (s.locals i).pc ≠ .printWaiting) :
    MutexInv ⟨s.shared, Function.update s.locals i ((s.locals i).goto .cancelled)⟩ := by
  refine ⟨h.slots.cancelClient hpoint, ?_⟩
  rw [sections_client rfl]
  apply h.held.stay
  intro hin
  simp only [sections, Client.inSection] at hin
  cases hpc : (s.locals i).pc <;> simp_all [ClientPc.cancellationPoint]

theorem listener {a : Action} (h : MutexInv s) {srv' : Server}
    (hm : ListenerMove admins s.shared a srv') (hok : CancelsOutside s a) :
    MutexInv ⟨srv', s.locals⟩ := by
  refine ⟨h.slots.listener hm, ?_⟩
  rw [sections_listener]
  cases hm with
  | lockCheck socket hpc hfree | lockInsert client hpc hfree => exact Held.acquire rfl
  | unlockFull socket hpc | unlockCheck socket hpc | unlockInsert hpc => exact Held.none
  | cancelled hreq hpoint =>
    apply h.held.stay
    intro hin
    simp only [sections] at hin
    simp only [CancelsOutside] at hok
    cases hpc : s.shared.listener <;>
      simp_all [ListenerPc.inSection, ListenerPc.cancellationPoint]
  | accepted result hpc =>
    cases result <;> exact h.held.stay (by simp [sections, ListenerPc.inSection, hpc])
  | _ => exact h.held.stay (by simp [sections, ListenerPc.inSection, Server.goto, *])

theorem create (h : MutexInv s) {client : Client} (hpc : s.shared.listener = .create client) :
    MutexInv (createThread s client) := by
  refine ⟨h.slots.create hpc, ?_⟩
  have hheld : s.shared.clientsMutex = some .listener :=
    h.slots.guards .listener (by simp [sections, hpc, ListenerPc.inSection])
  intro owner howner
  change s.shared.clientsMutex = some owner at howner
  rw [hheld] at howner
  cases howner
  rfl

theorem main (h : MutexInv s) {srv' : Server} (hm : MainMove s srv') :
    MutexInv ⟨srv', s.locals⟩ := by
  refine ⟨h.slots.main hm, ?_⟩
  rw [sections_listener, hm.frame.clientsMutex, hm.frame.listener]
  exact h.held.stay id

theorem step {a : Action} (h : MutexInv s) (hok : CancelsOutside s a)
    (ht : step admins s a = some t) : MutexInv t := by
  have hslots := h.slots.step ht
  cases step_move ht with
  | sigint => exact ⟨hslots, h.held⟩
  | client i received srv' c' hm => exact h.client hm
  | cancelClient i hreq hpoint => exact h.cancelClient hpoint hok
  | listener a srv' hm => exact h.listener hm hok
  | create client hpc => exact h.create hpc
  | main srv' hm => exact h.main hm
  | cancel i j hpc hj =>
    refine ⟨hslots, ?_⟩
    rw [sections_client (by rfl)]
    exact h.held.stay id

theorem init : MutexInv init := ⟨.init, Held.none⟩

end MutexInv

theorem hang_of_cancelled (h : MutexInv s) {a : Action} (hbad : ¬ CancelsOutside s a)
    (ht : step admins s a = some t) : ¬ NoHang admins t := by
  intro hnohang
  cases step_move ht with
  | cancelClient i hreq hpoint =>
    have hpc : (s.locals i).pc = .printWaiting := not_not.mp hbad
    have hheld := h.slots.guards (.client i) (by simp [sections, Client.inSection, hpc])
    have halive := hnohang.holder _ hheld
    simp [terminated, Client.terminated, Client.goto] at halive
  | listener a srv' hm =>
    cases hm with
    | cancelled hreq hpoint =>
      have hpc : s.shared.listener = .print := not_not.mp hbad
      have hheld := h.slots.guards .listener (by simp [sections, hpc, ListenerPc.inSection])
      have halive := hnohang.holder _ hheld
      cases halive
    | _ => exact hbad trivial
  | _ => exact hbad trivial

theorem noHang_iff (admins : Admins) (as : List Action) :
    AllStates (step admins) (NoHang admins) init as ↔
      AllSteps (step admins) CancelsOutside init as := by
  have hkeep : ∀ s, MutexInv s → NoHang admins s := fun _ h => h.noHang
  apply allStates_iff_allSteps hkeep
  · intro s a t h hok ht
    exact h.step hok ht
  · intro s a t h hbad ht
    exact hang_of_cancelled h hbad ht
  · exact MutexInv.init

/-- `main` joins a thread that waits for the mutex of a thread that has terminated. -/
structure Stuck (s : State) (holder target : Owner) : Prop where
  slots : SlotInv s
  mutex : s.shared.clientsMutex = some holder
  ended : terminated s holder = true
  joins : Joins s target
  waits : locking s target = true

namespace Stuck

variable {holder target : Owner}

theorem outside (h : Stuck s holder target) (owner : Owner) : sections s owner = false := by
  apply Bool.eq_false_iff.mpr
  intro hin
  have hheld := h.mutex.symm.trans (h.slots.guards owner hin)
  cases hheld
  rw [outside_of_ended h.ended] at hin
  cases hin

theorem client_eq (h : Stuck s holder target) {i : ℕ} {srv' : Server} {c' : Client}
    (hm : ClientMove i s.shared (s.locals i) srv' c') :
    srv'.clientsMutex = s.shared.clientsMutex ∧ holder ≠ .client i ∧ target ≠ .client i := by
  have hout := h.outside (.client i)
  have hmutex := h.mutex
  have hended := h.ended
  have hwaits := h.waits
  refine ⟨?_, ?_, ?_⟩
  · simp only [sections, Client.inSection] at hout
    cases hm <;> simp_all
  · rintro rfl
    simp only [terminated, Client.terminated] at hended
    cases hm <;> simp_all
  · rintro rfl
    simp only [locking] at hwaits
    cases hm <;> simp_all [ClientPc.locking]

theorem cancel_ne (h : Stuck s holder target) {i : ℕ}
    (hpoint : (s.locals i).pc.cancellationPoint = true) :
    holder ≠ .client i ∧ target ≠ .client i := by
  have hended := h.ended
  have hwaits := h.waits
  constructor
  · rintro rfl
    simp only [terminated, Client.terminated] at hended
    cases hpc : (s.locals i).pc <;> simp_all [ClientPc.cancellationPoint]
  · rintro rfl
    simp only [locking] at hwaits
    cases hpc : (s.locals i).pc <;> simp_all [ClientPc.cancellationPoint, ClientPc.locking]

theorem listener_eq (h : Stuck s holder target) {a : Action} {srv' : Server}
    (hm : ListenerMove admins s.shared a srv') :
    srv'.clientsMutex = s.shared.clientsMutex ∧ srv'.main = s.shared.main ∧
      srv'.clientThreads = s.shared.clientThreads ∧ holder ≠ .listener ∧ target ≠ .listener := by
  have hout := h.outside .listener
  have hmutex := h.mutex
  have hended := h.ended
  have hwaits := h.waits
  simp only [sections] at hout
  refine ⟨?_, ?_, ?_, ?_, ?_⟩
  · cases hm with
    | accepted result hpc => cases result <;> rfl
    | _ => simp_all [ListenerPc.inSection, Server.goto]
  · cases hm with
    | accepted result hpc => cases result <;> rfl
    | _ => rfl
  · cases hm with
    | accepted result hpc => cases result <;> rfl
    | _ => rfl
  · rintro rfl
    simp only [terminated] at hended
    cases hm with
    | cancelled hreq hpoint =>
      cases hpc : s.shared.listener <;>
        simp_all [ListenerPc.terminated, ListenerPc.cancellationPoint]
    | _ => simp_all [ListenerPc.terminated]
  · rintro rfl
    simp only [locking] at hwaits
    cases hm with
    | cancelled hreq hpoint =>
      cases hpc : s.shared.listener <;>
        simp_all [ListenerPc.locking, ListenerPc.cancellationPoint]
    | _ => simp_all [ListenerPc.locking]

theorem main_blocked (h : Stuck s holder target) {srv' : Server} : ¬ MainMove s srv' := by
  intro hm
  have hjoins := h.joins
  have hwaits := h.waits
  simp only [Joins] at hjoins
  cases hm with
  | joinListener hpc hterm =>
    simp only [hpc] at hjoins
    subst hjoins
    simp only [locking] at hwaits
    cases hl : s.shared.listener <;> simp_all [ListenerPc.locking, ListenerPc.terminated]
  | join i j hpc hj hterm =>
    simp only [hpc, hj, Option.some.injEq] at hjoins
    obtain ⟨_, rfl, rfl⟩ := hjoins
    simp only [locking] at hwaits
    simp only [Client.terminated] at hterm
    cases hl : (s.locals j).pc <;> simp_all [ClientPc.locking]
  | _ => simp_all

theorem terminated_update {srv' : Server} {i : ℕ} {c' : Client} {other : Owner}
    (hlistener : srv'.listener = s.shared.listener) (hne : other ≠ .client i) :
    terminated ⟨srv', Function.update s.locals i c'⟩ other = terminated s other := by
  cases other with
  | listener => simp only [terminated, hlistener]
  | client j =>
    have hji : j ≠ i := fun h => hne (congrArg Owner.client h)
    simp only [terminated, Function.update_of_ne hji]

theorem joins_congr (hmain : t.shared.main = s.shared.main)
    (hthreads : t.shared.clientThreads = s.shared.clientThreads) :
    Joins t target ↔ Joins s target := by
  simp only [Joins, hmain, hthreads]

theorem step {a : Action} (h : Stuck s holder target) (ht : step admins s a = some t) :
    Stuck t holder target := by
  have hslots := h.slots.step ht
  have hout := h.outside .listener
  cases step_move ht with
  | sigint => exact ⟨hslots, h.mutex, h.ended, h.joins, h.waits⟩
  | client i received srv' c' hm =>
    obtain ⟨hmutex, hholder, htarget⟩ := h.client_eq hm
    have hf := hm.frame
    refine ⟨hslots, hmutex.trans h.mutex, ?_, (joins_congr hf.main hf.clientThreads).mpr h.joins, ?_⟩
    · rw [terminated_update hf.listener hholder]
      exact h.ended
    · rw [locking_update hf.listener htarget]
      exact h.waits
  | cancelClient i hreq hpoint =>
    obtain ⟨hholder, htarget⟩ := h.cancel_ne hpoint
    refine ⟨hslots, h.mutex, ?_, h.joins, ?_⟩
    · rw [terminated_update rfl hholder]
      exact h.ended
    · rw [locking_update rfl htarget]
      exact h.waits
  | listener a srv' hm =>
    obtain ⟨hmutex, hmain, hthreads, hholder, htarget⟩ := h.listener_eq hm
    refine ⟨hslots, hmutex.trans h.mutex, ?_, (joins_congr hmain hthreads).mpr h.joins, ?_⟩
    · cases holder with
      | listener => exact absurd rfl hholder
      | client i => exact h.ended
    · cases target with
      | listener => exact absurd rfl htarget
      | client i => exact h.waits
  | create client hpc =>
    simp [sections, hpc, ListenerPc.inSection] at hout
  | main srv' hm => exact absurd hm h.main_blocked
  | cancel i j hpc hj =>
    have hjoins := h.joins
    simp [Joins, hpc] at hjoins

end Stuck

theorem stuck_forever {holder target : Owner} (h : Stuck s holder target)
    (ht : Reachable (step admins) s t) : Stuck t holder target :=
  ht.invariant (Stuck · holder target) h fun _ _ _ hs hstep => hs.step hstep

def cancelPrinting : List Action :=
  (connect 5 [newline]).take 10 ++ [.sigint, .main, .main, .cancelListener, .main, .client 0 [],
    .client 0 [], .main, .main, .main]

theorem hang_by_cancelledListener : ∃ s : State, Reachable (step bobOnly) init s ∧
    ∀ t, Reachable (step bobOnly) s t → t.shared.clientsMutex = some .listener ∧
      terminated t .listener = true ∧ Joins t (.client 0) ∧ locking t (.client 0) = true := by
  obtain ⟨s, hs, hp⟩ := exists_reachable_of_run (step bobOnly) init cancelPrinting
    (fun s => decide (s.shared.clientsMutex = some .listener ∧
      s.shared.listener.terminated = true ∧ s.shared.main = .join 0 ∧
      s.shared.clientThreads 0 = some 0 ∧ (s.locals 0).pc.locking = true)) (by decide +kernel)
  obtain ⟨hmutex, hended, hmain, hthread, hwaits⟩ := of_decide_eq_true hp
  have hslots := hs.invariant SlotInv SlotInv.init fun _ _ _ hu hstep => hu.step hstep
  have hjoins : Joins s (.client 0) := by
    simp only [Joins, hmain]
    exact ⟨0, hthread, rfl⟩
  have hstuck : Stuck s .listener (.client 0) := ⟨hslots, hmutex, hended, hjoins, hwaits⟩
  refine ⟨s, hs, fun t ht => ?_⟩
  obtain ⟨_, hmutex, hended, hjoins, hwaits⟩ := stuck_forever hstuck ht
  exact ⟨hmutex, hended, hjoins, hwaits⟩

end PsOs.ChatServer
