import PsOs.ChatTable

/-! The last loop of `main`, which goes over the first `client_count` entries of the table. -/

namespace PsOs.ChatServer

open Threads TransitionSystems

variable {admins : Admins} {s t : State} {threads : List ℕ}

def MainPc.passed : MainPc → Option ℕ
  | .loop i => some i
  | .close i | .cancel i | .join i => some (i + 1)
  | _ => none

def Progress (threads : List ℕ) (s : State) : Prop :=
  match s.shared.main with
  | .loop i | .close i => ∀ j ∈ threads.take i, Handled s j
  | .cancel i => (∀ j ∈ threads.take i, Handled s j) ∧
      ∀ j, threads[i]? = some j → (s.locals j).socket ∈ s.shared.closed
  | .join i => (∀ j ∈ threads.take i, Handled s j) ∧
      ∀ j, threads[i]? = some j →
        (s.locals j).socket ∈ s.shared.closed ∧ (s.locals j).cancelRequested = true
  | .closeServer | .finished => ∀ j ∈ threads, Handled s j
  | _ => True

/-- The loop over the entries of `threads`; only the last of them may have left, and only once
`main` has got to it. -/
structure Closing (threads : List ℕ) (s : State) : Prop where
  listener : s.shared.listener.terminated = true
  started : s.shared.main.closing = true
  entry : ∀ k j : ℕ, threads[k]? = some j →
    s.shared.clientSockets k = (s.locals j).socket ∧ s.shared.clientThreads k = some j
  count_le : s.shared.clientCount ≤ threads.length
  ahead : ∀ k, s.shared.main.passed = some k →
    s.shared.clientCount = threads.length ∨ threads.length ≤ k
  progress : Progress threads s

theorem Progress.mono (h : Progress threads s) (hmain : t.shared.main = s.shared.main)
    (hsocket : ∀ j, (t.locals j).socket = (s.locals j).socket)
    (hcancel : ∀ j, (s.locals j).cancelRequested = true → (t.locals j).cancelRequested = true)
    (hclosed : t.shared.closed = s.shared.closed) (hjoined : t.shared.joined = s.shared.joined) :
    Progress threads t := by
  have hhandled : ∀ j, Handled s j → Handled t j := fun j hj =>
    ⟨by rw [hsocket, hclosed]; exact hj.1, hcancel j hj.2.1, by rw [hjoined]; exact hj.2.2⟩
  unfold Progress at h ⊢
  rw [hmain]
  cases hpc : s.shared.main <;> simp only [hpc] at h ⊢
  case loop i | close i => exact fun j hj => hhandled j (h j hj)
  case cancel i =>
    refine ⟨fun j hj => hhandled j (h.1 j hj), fun j hj => ?_⟩
    rw [hsocket, hclosed]
    exact h.2 j hj
  case join i =>
    refine ⟨fun j hj => hhandled j (h.1 j hj), fun j hj => ?_⟩
    obtain ⟨hsock, hcan⟩ := h.2 j hj
    rw [hsocket, hclosed]
    exact ⟨hsock, hcancel j hcan⟩
  case closeServer | finished => exact fun j hj => hhandled j (h j hj)

theorem count_move {i : ℕ} {srv srv' : Server} {c c' : Client} (hm : ClientMove i srv c srv' c') :
    srv'.clientCount = srv.clientCount ∨
      c.pc = .leave ∧ srv'.clientCount = srv.clientCount - 1 := by
  cases hm with
  | leave hpc => exact .inr ⟨hpc, rfl⟩
  | _ => exact .inl rfl

namespace Closing

theorem ahead_leave (h : Closing threads s) {k : ℕ}
    (hhandles : s.shared.main.handles = some (s.shared.clientCount - 1))
    (hk : s.shared.main.passed = some k) : threads.length ≤ k := by
  rcases h.ahead k hk with hcount | hle
  · cases hpc : s.shared.main <;> simp only [hpc, MainPc.handles, MainPc.passed] at hhandles hk
    case close i | cancel i | join i =>
      simp only [Option.some.injEq] at hhandles hk
      omega
    all_goals cases hhandles
  · exact hle

theorem client (h : Closing threads s) {i : ℕ} {srv' : Server} {c' : Client}
    (hm : ClientMove i s.shared (s.locals i) srv' c')
    (hhandled : (s.locals i).pc = .leave → s.shared.main.closing = true →
      s.shared.main.handles = some (s.shared.clientCount - 1)) :
    Closing threads ⟨srv', Function.update s.locals i c'⟩ := by
  have hf := hm.frame
  have hsocket := field_update Client.socket (f := s.locals) (i := i) hf.socket
  refine ⟨by rw [hf.listener]; exact h.listener, by rw [hf.main]; exact h.started, ?_, ?_, ?_, ?_⟩
  · intro k j hj
    rw [hf.clientSockets, hf.clientThreads, hsocket]
    exact h.entry k j hj
  · have hle := h.count_le
    rcases count_move hm with hcount | ⟨-, hcount⟩
    · rwa [hcount]
    · rw [hcount]
      omega
  · intro k hk
    rw [hf.main] at hk
    rcases count_move hm with hcount | ⟨hpc, -⟩
    · rw [hcount]
      exact h.ahead k hk
    · exact .inr (h.ahead_leave (hhandled hpc h.started) hk)
  · exact h.progress.mono hf.main hsocket
      (fun j hj => by rw [← hj]; exact field_update Client.cancelRequested hf.cancelRequested j)
      hf.closed hf.joined

theorem progress_main (h : Closing threads s) {srv' : Server} (hm : MainMove s srv') :
    Progress threads ⟨srv', s.locals⟩ := by
  have hprogress := h.progress
  unfold Progress at hprogress
  cases hm with
  | enter i hpc hi =>
    simp only [hpc] at hprogress
    exact hprogress
  | exit i hpc hi =>
    simp only [hpc] at hprogress
    have hall : threads.length ≤ i := by
      have hahead := h.ahead i (by rw [hpc]; rfl)
      omega
    rwa [List.take_of_length_le hall] at hprogress
  | close i hpc =>
    simp only [hpc] at hprogress
    refine ⟨fun j hj => ?_, fun j hj => ?_⟩
    · obtain ⟨hclosed, hcancel, hjoined⟩ := hprogress j hj
      exact ⟨List.mem_append_left _ hclosed, hcancel, hjoined⟩
    · change (s.locals j).socket ∈ s.shared.closed ++ [s.shared.clientSockets i]
      rw [(h.entry i j hj).1]
      simp
  | join i j hpc hj hterm =>
    simp only [hpc] at hprogress
    intro k hk
    change k ∈ threads.take (i + 1) at hk
    rw [List.take_add_one, List.mem_append] at hk
    rcases hk with hk | hk
    · obtain ⟨hclosed, hcancel, hjoined⟩ := hprogress.1 k hk
      exact ⟨hclosed, hcancel, List.mem_append_left _ hjoined⟩
    · have hget : threads[i]? = some k := by simpa using hk
      obtain ⟨hclosed, hcancel⟩ := hprogress.2 k hget
      have hkj := (h.entry i k hget).2
      rw [hj] at hkj
      cases hkj
      exact ⟨hclosed, hcancel, List.mem_append_right _ (by simp)⟩
  | closeServer hpc =>
    simp only [hpc] at hprogress
    exact hprogress
  | joinListener hpc hterm => intro j hj; simp at hj
  | _ => trivial

theorem ahead_main (h : Closing threads s) {srv' : Server} (hm : MainMove s srv') (k : ℕ)
    (hk : srv'.main.passed = some k) :
    srv'.clientCount = threads.length ∨ threads.length ≤ k := by
  have hle := h.count_le
  have hahead := h.ahead
  rw [hm.frame.clientCount]
  cases hm with
  | enter i hpc hi =>
    -- an entry that the loop still gets to is within the table
    have hi' := hahead i (by rw [hpc]; rfl)
    exact .inl (by omega)
  | close i hpc | join i j hpc hj hterm =>
    rw [← Option.some.inj hk]
    exact hahead (i + 1) (by rw [hpc]; rfl)
  | joinListener hpc hterm =>
    have hstarted := h.started
    rw [hpc] at hstarted
    cases hstarted
  | _ => cases hk

theorem main (h : Closing threads s) {srv' : Server} (hm : MainMove s srv') :
    Closing threads ⟨srv', s.locals⟩ := by
  have hf := hm.frame
  refine ⟨by rw [hf.listener]; exact h.listener, ?_, ?_, by rw [hf.clientCount]; exact h.count_le,
    h.ahead_main hm, h.progress_main hm⟩
  · have hstarted := h.started
    cases hm with
    | spin hpc | stopped hpc | cancelListener hpc =>
      rw [hpc] at hstarted
      cases hstarted
    | _ => rfl
  · intro k j hj
    rw [hf.clientSockets, hf.clientThreads]
    exact h.entry k j hj

theorem cancel (h : Closing threads s) {i j : ℕ} (hpc : s.shared.main = .cancel i)
    (hj : s.shared.clientThreads i = some j) :
    Closing threads ⟨{ s.shared with main := .join i },
      Function.update s.locals j { s.locals j with cancelRequested := true }⟩ := by
  have hsocket := field_update Client.socket (f := s.locals) (i := j)
    (l := { s.locals j with cancelRequested := true }) rfl
  have hcancel : ∀ k, (s.locals k).cancelRequested = true → (Function.update s.locals j
      { s.locals j with cancelRequested := true } k).cancelRequested = true := by
    intro k hk
    by_cases hkj : k = j
    · simp [hkj]
    · rwa [Function.update_of_ne hkj]
  have hprogress := h.progress
  simp only [Progress, hpc] at hprogress
  refine ⟨h.listener, rfl, fun k l hl => ?_, h.count_le, fun k hk => ?_, ?_, ?_⟩
  · rw [hsocket]
    exact h.entry k l hl
  · exact h.ahead k (by rw [hpc]; exact hk)
  · intro k hk
    obtain ⟨hclosed, hcan, hjoined⟩ := hprogress.1 k hk
    exact ⟨by rw [hsocket]; exact hclosed, hcancel k hcan, hjoined⟩
  · intro k hk
    have hkj := (h.entry i k hk).2
    rw [hj] at hkj
    cases hkj
    simp only [hsocket]
    exact ⟨hprogress.2 j hk, by simp⟩

theorem step {a : Action} (h : Closing threads s) (hok : Orderly s a)
    (ht : step admins s a = some t) : Closing threads t := by
  cases step_move ht with
  | sigint => exact ⟨h.listener, h.started, h.entry, h.count_le, h.ahead, h.progress⟩
  | client i received srv' c' hm => exact h.client hm fun hpc => (hok hpc).2
  | cancelClient i hreq hpoint =>
    have hsocket := field_update Client.socket (f := s.locals) (i := i)
      (l := (s.locals i).goto .cancelled) rfl
    have hcancel := field_update Client.cancelRequested (f := s.locals) (i := i)
      (l := (s.locals i).goto .cancelled) rfl
    refine ⟨h.listener, h.started, fun k j hj => ?_, h.count_le, h.ahead,
      h.progress.mono rfl hsocket (fun k hk => by rw [← hk]; exact hcancel k) rfl rfl⟩
    rw [hsocket]
    exact h.entry k j hj
  | listener a srv' hm =>
    have hterm := (listenerMove_alive hm).1
    rw [h.listener] at hterm
    cases hterm
  | create client hpc =>
    have hterm := h.listener
    rw [hpc] at hterm
    cases hterm
  | main srv' hm => exact h.main hm
  | cancel i j hpc hj => exact h.cancel hpc hj

theorem handled (h : Closing threads s)
    (hmain : s.shared.main = .closeServer ∨ s.shared.main = .finished) :
    ∀ i ∈ threads, Handled s i := by
  have hprogress := h.progress
  unfold Progress at hprogress
  rcases hmain with hpc | hpc <;> simp only [hpc] at hprogress <;> exact hprogress

end Closing

namespace TableInv

theorem closingLoop (h : TableInv s) (hmain : s.shared.main = .loop 0) : Closing (live s) s := by
  have hterm := h.closing (by rw [hmain]; rfl)
  have hcount := h.slots.count_outside (outside_of_terminated hterm)
  refine ⟨hterm, by rw [hmain]; rfl, fun _ _ => h.entry, hcount.le, fun _ _ => .inl hcount, ?_⟩
  simp [Progress, hmain]

theorem live_of_alive (h : TableInv s) (hmain : s.shared.main = .loop 0) {i : ℕ}
    (hi : Alive s i) : i ∈ live s := by
  obtain ⟨hspawned, hterm⟩ := hi
  refine mem_live.mpr ⟨hspawned, ?_⟩
  have hquiet := h.quiet hmain i hspawned
  cases hpc : (s.locals i).pc <;> simp_all [Client.left, Client.terminated]

end TableInv

/-- While `clients_mutex` is free the table lists the live clients, each once; and the threads that
are alive when `main` gets to its last loop are closed, cancelled and joined when it is over. -/
structure Table (admins : Admins) (s : State) : Prop where
  entries : s.shared.clientsMutex = none → Listed s
  final : s.shared.main = .loop 0 → ∀ t, ReachableBy (step admins) Orderly s t →
    t.shared.main = .closeServer ∨ t.shared.main = .finished → ∀ i, Alive s i → Handled t i

theorem TableInv.table (h : TableInv s) : Table admins s := by
  refine ⟨h.listed, fun hmain t ht hend i hi => ?_⟩
  have hclosing := ht.invariant (Closing (live s)) (h.closingLoop hmain)
    fun _ _ _ hs hok hst => hs.step hok hst
  exact hclosing.handled hend i (h.live_of_alive hmain hi)

theorem table_of_orderly (h : ReachableBy (step admins) Orderly init s) :
    Table admins s ∧ ∀ i received t, (s.locals i).pc = .leave →
      s.shared.clientThreads (s.shared.clientCount - 1) ≠ some i →
        step admins s (.client i received) = some t → ¬ Listed t := by
  have hinv := h.invariant TableInv .init fun _ _ _ hs hok ht => hs.step hok ht
  exact ⟨hinv.table, fun _ _ _ hpc hlast ht => not_listed_of_leave hinv hpc hlast ht⟩

def lastLeaves : List Action :=
  connect 5 [newline] ++ connect 6 [newline] ++ disconnect 1 ++ [.sigint, .listener] ++
    List.replicate 3 .main

def closeFirst : List Action := List.replicate 3 .main ++ [.cancelClient 0] ++ List.replicate 3 .main

def orderlyStep (s : State) (a : Action) : Option State :=
  if decide (Orderly s a) = true then step bobOnly s a else none

def firstAboutToLeave : List Action :=
  connect 5 [newline] ++ connect 6 [newline] ++ List.replicate 3 (.client 0 [])

theorem orderly_of_run {as : List Action} (h : run orderlyStep s as = some t) :
    ReachableBy (step bobOnly) Orderly s t :=
  (reachableBy_of_guarded (reachable_of_run h)).mono fun _ _ => of_decide_eq_true

theorem table_lastLeaves : (∃ s t : State, Table bobOnly s ∧ s.shared.clientCount = 1 ∧
    s.shared.main = .loop 0 ∧ Alive s 0 ∧ ReachableBy (step bobOnly) Orderly s t ∧
      t.shared.main = .finished ∧ Handled t 0) ∧
    ∃ s t : State, (s.locals 0).pc = .leave ∧ step bobOnly s (.client 0 []) = some t ∧
      ¬ Listed t := by
  have hrun : ((run orderlyStep init lastLeaves).any fun s =>
      decide (s.shared.clientCount = 1 ∧ s.shared.main = .loop 0 ∧ 0 < s.shared.spawned ∧
        (s.locals 0).terminated = false) &&
      (run orderlyStep s closeFirst).any fun t => decide (t.shared.main = .finished)) = true := by
    decide +kernel
  have hleaving : (run orderlyStep init firstAboutToLeave).any (fun s =>
      decide ((s.locals 0).pc = .leave ∧
        s.shared.clientThreads (s.shared.clientCount - 1) ≠ some 0)) = true := by
    decide +kernel
  constructor
  · obtain ⟨s, hs, hp⟩ := (Option.any_eq_true _ _).mp hrun
    obtain ⟨hstate, hloop⟩ := Bool.and_eq_true_iff.mp hp
    obtain ⟨t, ht, hfinished⟩ := (Option.any_eq_true _ _).mp hloop
    obtain ⟨hcount, hmain, hspawned, halive⟩ := of_decide_eq_true hstate
    have hend := of_decide_eq_true hfinished
    have htable := (table_of_orderly (orderly_of_run hs)).1
    exact ⟨s, t, htable, hcount, hmain, ⟨hspawned, halive⟩, orderly_of_run ht, hend,
      htable.final hmain t (orderly_of_run ht) (.inr hend) 0 ⟨hspawned, halive⟩⟩
  · obtain ⟨s, hs, hp⟩ := (Option.any_eq_true _ _).mp hleaving
    obtain ⟨hpc, hlast⟩ := of_decide_eq_true hp
    have hstep : ∃ t, step bobOnly s (.client 0 []) = some t :=
      ⟨_, Config.move_eq_some.mpr ⟨_, _, by simp only [stepClient, hpc]; rfl, rfl⟩⟩
    obtain ⟨t, ht⟩ := hstep
    exact ⟨s, t, hpc, ht, (table_of_orderly (orderly_of_run hs)).2 0 [] t hpc hlast ht⟩

end PsOs.ChatServer
