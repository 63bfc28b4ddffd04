import PsOs.ChatMoves

namespace PsOs.ChatServer

open Threads TransitionSystems

variable {admins : Admins} {s t : State}

def Client.left (c : Client) : Bool :=
  match c.pc with
  | .unlockLeave | .returned => true
  | _ => false

/-- The clients that have been created and have not counted themselves out, oldest first. -/
def live (s : State) : List ℕ :=
  (List.range s.shared.spawned).filter fun i => !(s.locals i).left

def ListenerPc.inSection : ListenerPc → Bool
  | .check _ | .unlockFull _ | .unlockCheck _ | .storeSocket _ | .create _ | .increment | .print
  | .unlockInsert => true
  | _ => false

def Client.inSection (c : Client) : Bool :=
  match c.pc with
  | .printWaiting | .unlockWaiting | .leave | .unlockLeave => true
  | _ => false

def sections (s : State) : Owner → Bool
  | .listener => s.shared.listener.inSection
  | .client i => (s.locals i).inSection

def ListenerPc.uncounted : ListenerPc → ℤ
  | .increment => 1
  | _ => 0

def ListenerPc.fresh : ListenerPc → Prop
  | .lockInsert client | .storeSocket client | .create client => client.pc = .read
  | _ => True

structure SlotInv (s : State) : Prop where
  guards : Guards s.shared.clientsMutex (· = true) (sections s)
  unborn : ∀ i, s.shared.spawned ≤ i → (s.locals i).pc = .unborn
  fresh : s.shared.listener.fresh
  count : s.shared.clientCount + s.shared.listener.uncounted = (live s).length

section Live

variable {srv' : Server} {i : ℕ} {c' : Client}

theorem mem_live : i ∈ live s ↔ i < s.shared.spawned ∧ (s.locals i).left = false := by
  simp [live]

theorem live_nodup (s : State) : (live s).Nodup := List.nodup_range.filter _

theorem live_update (hs : srv'.spawned = s.shared.spawned) (hleft : c'.left = (s.locals i).left) :
    live ⟨srv', Function.update s.locals i c'⟩ = live s := by
  simp only [live, hs]
  congr 1
  funext j
  by_cases hji : j = i
  · subst hji
    rw [Function.update_self, hleft]
  · rw [Function.update_of_ne hji]

theorem live_leave (hs : srv'.spawned = s.shared.spawned) (hleft : c'.left = true) :
    live ⟨srv', Function.update s.locals i c'⟩ = (live s).erase i := by
  rw [(live_nodup s).erase_eq_filter]
  simp only [live, hs, List.filter_filter]
  congr 1
  funext j
  by_cases hji : j = i
  · subst hji
    simp [hleft]
  · simp [hji]

theorem live_create (hleft : c'.left = false) :
    live (createThread s c') = live s ++ [s.shared.spawned] := by
  simp only [live, createThread, List.range_succ, List.filter_append]
  congr 1
  · apply List.filter_congr
    intro j hj
    rw [Function.update_of_ne (List.mem_range.mp hj).ne]
  · simp [hleft]

end Live

section Sections

variable {srv' : Server} {i : ℕ} {c' : Client}

theorem sections_client (hl : srv'.listener.inSection = s.shared.listener.inSection) :
    sections ⟨srv', Function.update s.locals i c'⟩ =
      Function.update (sections s) (.client i) c'.inSection := by
  funext owner
  cases owner with
  | listener => simpa [sections] using hl
  | client j =>
    by_cases hji : j = i
    · subst hji
      simp [sections]
    · simp [sections, hji]

theorem sections_listener :
    sections ⟨srv', s.locals⟩ =
      Function.update (sections s) .listener srv'.listener.inSection := by
  funext owner
  cases owner <;> simp [sections]

theorem guards_client (h : SlotInv s) (hm : ClientMove i s.shared (s.locals i) srv' c') :
    Guards srv'.clientsMutex (· = true) (sections ⟨srv', Function.update s.locals i c'⟩) := by
  rw [sections_client (by rw [hm.frame.listener])]
  cases hm with
  | lockWaiting hpc hfree | lockLeave hpc hfree =>
    have hguards := h.guards
    rw [hfree] at hguards
    exact hguards.acquire
  | unlockWaiting hpc | unlockLeave hpc =>
    exact h.guards.release (by simp [sections, Client.inSection, hpc])
      (by simp [Client.inSection, Client.goto])
  | _ => exact h.guards.stay (by simp [sections, Client.inSection, Client.goto, *])

theorem guards_listener {a : Action} (h : SlotInv s) (hm : ListenerMove admins s.shared a srv') :
    Guards srv'.clientsMutex (· = true) (sections ⟨srv', s.locals⟩) := by
  rw [sections_listener]
  cases hm with
  | lockCheck socket hpc hfree | lockInsert client hpc hfree =>
    have hguards := h.guards
    rw [hfree] at hguards
    exact hguards.acquire
  | unlockFull socket hpc | unlockCheck socket hpc | unlockInsert hpc =>
    exact h.guards.release (by simp [sections, ListenerPc.inSection, hpc])
      (by simp [ListenerPc.inSection])
  | accepted result hpc =>
    cases result <;> exact h.guards.stay (by simp [accepted, Server.goto, ListenerPc.inSection])
  | _ => exact h.guards.stay (by simp [sections, ListenerPc.inSection, Server.goto, *])

end Sections

theorem left_move {i : ℕ} {srv srv' : Server} {c c' : Client} (hm : ClientMove i srv c srv' c') :
    c.pc = .leave ∨ c'.left = c.left ∧ srv'.clientCount = srv.clientCount := by
  cases hm with
  | leave hpc => exact .inl hpc
  | _ =>
    right
    simp [Client.left, Client.goto, *]

theorem SlotInv.listener_outside (h : SlotInv s) {i : ℕ} (hi : (s.locals i).inSection = true) :
    s.shared.listener.inSection = false := by
  apply Bool.eq_false_iff.mpr
  intro hl
  have hclient : sections s (.client i) = true := hi
  have hlistener : sections s .listener = true := hl
  cases h.guards.exclusive hclient hlistener

theorem SlotInv.count_outside (h : SlotInv s) (hout : s.shared.listener.inSection = false) :
    s.shared.clientCount = (live s).length := by
  have hzero : s.shared.listener.uncounted = 0 := by
    cases hl : s.shared.listener with
    | increment =>
      rw [hl] at hout
      cases hout
    | _ => rfl
  have := h.count
  omega

theorem SlotInv.count_leaving (h : SlotInv s) {i : ℕ} (hpc : (s.locals i).pc = .leave) :
    s.shared.clientCount = (live s).length := by
  apply h.count_outside
  apply h.listener_outside (i := i)
  simp [Client.inSection, hpc]

theorem SlotInv.mem_live_leaving (h : SlotInv s) {i : ℕ} (hpc : (s.locals i).pc = .leave) :
    i ∈ live s := by
  refine mem_live.mpr ⟨?_, by simp [Client.left, hpc]⟩
  by_contra hge
  have := h.unborn i (not_lt.mp hge)
  simp [hpc] at this

theorem listenerMove_count {srv srv' : Server} {a : Action}
    (hm : ListenerMove admins srv a srv') :
    srv'.clientCount + srv'.listener.uncounted = srv.clientCount + srv.listener.uncounted ∧
      srv'.spawned = srv.spawned := by
  cases hm with
  | accepted result hpc =>
    cases result <;> simp [accepted, Server.goto, ListenerPc.uncounted, hpc]
  | cancelled hreq hpoint =>
    cases hpc : srv.listener <;>
      simp_all [Server.goto, ListenerPc.uncounted, ListenerPc.cancellationPoint]
  | _ => simp [Server.goto, ListenerPc.uncounted, *]

theorem listenerMove_fresh {srv srv' : Server} {a : Action}
    (hm : ListenerMove admins srv a srv') (h : srv.listener.fresh) : srv'.listener.fresh := by
  cases hm with
  | login socket l hpc => rfl
  | accepted result hpc => cases result <;> trivial
  | lockInsert client hpc hfree | storeSocket client hpc => simpa [ListenerPc.fresh, hpc] using h
  | _ => trivial

theorem unborn_update {i : ℕ} {c' : Client} {n : ℕ} (h : ∀ j, n ≤ j → (s.locals j).pc = .unborn)
    (hi : i < n) (j : ℕ) (hj : n ≤ j) : (Function.update s.locals i c' j).pc = .unborn := by
  rw [Function.update_of_ne (by omega)]
  exact h j hj

theorem SlotInv.lt_spawned (h : SlotInv s) {i : ℕ} (hi : (s.locals i).pc ≠ .unborn) :
    i < s.shared.spawned := by
  by_contra hge
  exact hi (h.unborn i (not_lt.mp hge))

theorem SlotInv.client (h : SlotInv s) {i : ℕ} {srv' : Server} {c' : Client}
    (hm : ClientMove i s.shared (s.locals i) srv' c') :
    SlotInv ⟨srv', Function.update s.locals i c'⟩ := by
  have hspawned := hm.frame.spawned
  have hlistener := hm.frame.listener
  have hi := h.lt_spawned hm.born
  refine ⟨guards_client h hm, ?_, by rw [hlistener]; exact h.fresh, ?_⟩
  · rw [hspawned]
    exact unborn_update h.unborn hi
  · change srv'.clientCount + srv'.listener.uncounted = _
    rw [hlistener]
    rcases left_move hm with hpc | ⟨hleft, hcount⟩
    · have hlen := h.count_leaving hpc
      have hcount := h.count
      cases hm with
      | leave _ =>
        have hmem := h.mem_live_leaving hpc
        have hleft : ((s.locals i).goto .unlockLeave).left = true := rfl
        rw [live_leave hspawned hleft, List.length_erase_of_mem hmem]
        have := List.length_pos_of_mem hmem
        change s.shared.clientCount - 1 + _ = _
        omega
      | _ => simp [hpc] at *
    · rw [live_update hspawned hleft, hcount]
      exact h.count

theorem left_goto_cancelled {c : Client} (h : c.pc.cancellationPoint = true) :
    (c.goto .cancelled).left = c.left := by
  cases hpc : c.pc <;> simp_all [Client.left, Client.goto, ClientPc.cancellationPoint]

theorem SlotInv.cancelClient (h : SlotInv s) {i : ℕ}
    (hpoint : (s.locals i).pc.cancellationPoint = true) :
    SlotInv ⟨s.shared, Function.update s.locals i ((s.locals i).goto .cancelled)⟩ := by
  have hi := h.lt_spawned (born_of_cancellationPoint hpoint)
  refine ⟨?_, unborn_update h.unborn hi, h.fresh, ?_⟩
  · rw [sections_client rfl]
    exact h.guards.stay (by simp [Client.inSection, Client.goto])
  · rw [live_update rfl (left_goto_cancelled hpoint)]
    exact h.count

theorem SlotInv.listener {a : Action} (h : SlotInv s) {srv' : Server}
    (hm : ListenerMove admins s.shared a srv') : SlotInv ⟨srv', s.locals⟩ := by
  obtain ⟨hcount, hspawned⟩ := listenerMove_count hm
  refine ⟨guards_listener h hm, ?_, listenerMove_fresh hm h.fresh, ?_⟩
  · rw [hspawned]
    exact h.unborn
  · change srv'.clientCount + srv'.listener.uncounted = _
    rw [hcount, h.count]
    simp only [live, hspawned]

theorem SlotInv.create (h : SlotInv s) {client : Client}
    (hpc : s.shared.listener = .create client) : SlotInv (createThread s client) := by
  have hfresh := h.fresh
  have hcount := h.count
  simp only [hpc, ListenerPc.fresh, ListenerPc.uncounted] at hfresh hcount
  have hheld := h.guards .listener (by simp [sections, hpc, ListenerPc.inSection])
  refine ⟨?_, fun j hj => ?_, trivial, ?_⟩
  · rintro owner howner
    cases owner with
    | listener => exact hheld
    | client j =>
      by_cases hj : j = s.shared.spawned
      · subst hj
        simp [sections, createThread, Client.inSection, hfresh] at howner
      · exact h.guards (.client j) (by simpa [sections, createThread, hj] using howner)
  · change s.shared.spawned + 1 ≤ j at hj
    simp only [createThread, Function.update_of_ne (show j ≠ s.shared.spawned by omega)]
    exact h.unborn j (by omega)
  · rw [live_create (by simp [Client.left, hfresh]), List.length_append]
    simp only [createThread, ListenerPc.uncounted, List.length_singleton]
    omega

theorem SlotInv.main (h : SlotInv s) {srv' : Server} (hm : MainMove s srv') :
    SlotInv ⟨srv', s.locals⟩ := by
  have hf := hm.frame
  refine ⟨?_, by rw [hf.spawned]; exact h.unborn, by rw [hf.listener]; exact h.fresh, ?_⟩
  · rw [sections_listener, hf.clientsMutex, hf.listener]
    exact h.guards.stay (by simp [sections])
  · change srv'.clientCount + srv'.listener.uncounted = _
    rw [hf.clientCount, hf.listener, h.count]
    simp only [live, hf.spawned]

theorem SlotInv.cancel (h : SlotInv s) (main : MainPc) (j : ℕ) :
    SlotInv ⟨{ s.shared with main },
      Function.update s.locals j { s.locals j with cancelRequested := true }⟩ := by
  refine ⟨?_, fun k hk => ?_, h.fresh, ?_⟩
  · rw [sections_client (by rfl)]
    exact h.guards.stay (by simp [sections, Client.inSection])
  · rw [field_update Client.pc (by rfl) k]
    exact h.unborn k hk
  · rw [live_update (by rfl) (by simp [Client.left])]
    exact h.count

theorem SlotInv.step {a : Action} (h : SlotInv s) (ht : step admins s a = some t) :
    SlotInv t := by
  cases step_move ht with
  | sigint => exact ⟨h.guards, h.unborn, h.fresh, h.count⟩
  | client i received srv' c' hm => exact h.client hm
  | cancelClient i hreq hpoint => exact h.cancelClient hpoint
  | listener a srv' hm => exact h.listener hm
  | create client hpc => exact h.create hpc
  | main srv' hm => exact h.main hm
  | cancel i j hpc hj => exact h.cancel (.join i) j

theorem SlotInv.init : SlotInv init := by
  refine ⟨?_, fun _ _ => rfl, trivial, rfl⟩
  intro owner howner
  cases owner <;> cases howner

end PsOs.ChatServer
