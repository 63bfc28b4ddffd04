import PsOs.ChatSlots

namespace PsOs.ChatServer

open Threads TransitionSystems

variable {admins : Admins} {s t : State}

def entries (srv : Server) (n : ℕ) : List (ℕ × Option ℕ) :=
  (List.range n).map fun k : ℕ => (srv.clientSockets k, srv.clientThreads k)

def slot (s : State) (i : ℕ) : ℕ × Option ℕ := ((s.locals i).socket, some i)

def Handled (s : State) (i : ℕ) : Prop :=
  (s.locals i).socket ∈ s.shared.closed ∧ (s.locals i).cancelRequested = true ∧
    i ∈ s.shared.joined

def Alive (s : State) (i : ℕ) : Prop :=
  i < s.shared.spawned ∧ (s.locals i).terminated = false

def MainPc.closing : MainPc → Bool
  | .spin | .cancelListener | .joinListener => false
  | _ => true

def MainPc.handles : MainPc → Option ℤ
  | .close i | .cancel i | .join i => some i
  | _ => none

/-- The client that leaves has the last entry, and in the final loop `main` is at that entry; when
`main` gets to the loop no client is between its decrement and its return. -/
def Orderly (s : State) : Action → Prop
  | .client i _ => (s.locals i).pc = .leave →
      s.shared.clientThreads (s.shared.clientCount - 1) = some i ∧
        (s.shared.main.closing = true → s.shared.main.handles = some (s.shared.clientCount - 1))
  | .main => s.shared.main = .joinListener →
      ∀ i < s.shared.spawned, (s.locals i).pc ≠ .unlockLeave
  | _ => True

instance (s : State) : DecidablePred (Orderly s) := fun a =>
  match a with
  | .client i _ => inferInstanceAs (Decidable ((s.locals i).pc = .leave → _))
  | .main => inferInstanceAs (Decidable (s.shared.main = .joinListener → _))
  | .sigint | .listener | .accept _ | .login _ | .cancelListener | .cancelClient _ =>
    inferInstanceAs (Decidable True)

def Listed (s : State) : Prop :=
  0 ≤ s.shared.clientCount ∧
    (entries s.shared s.shared.clientCount.toNat).Perm ((live s).map (slot s))

structure TableInv (s : State) : Prop where
  slots : SlotInv s
  entries : entries s.shared (live s).length = (live s).map (slot s)
  stored : ∀ client, s.shared.listener = .create client →
    s.shared.clientSockets s.shared.clientCount = client.socket
  closing : s.shared.main.closing = true → s.shared.listener.terminated = true
  quiet : s.shared.main = .loop 0 → ∀ i < s.shared.spawned, (s.locals i).pc ≠ .unlockLeave

section Entries

variable {srv srv' : Server}

theorem entries_congr {n : ℕ} (h : ∀ k : ℕ, k < n → srv'.clientSockets k = srv.clientSockets k ∧
    srv'.clientThreads k = srv.clientThreads k) : entries srv' n = entries srv n := by
  apply List.map_congr_left
  intro k hk
  obtain ⟨hsocket, hthread⟩ := h k (List.mem_range.mp hk)
  rw [hsocket, hthread]

theorem entries_succ (n : ℕ) :
    entries srv (n + 1) = entries srv n ++ [(srv.clientSockets n, srv.clientThreads n)] := by
  simp [entries, List.range_succ]

theorem TableInv.entry (h : TableInv s) {k j : ℕ} (hj : (live s)[k]? = some j) :
    s.shared.clientSockets k = (s.locals j).socket ∧ s.shared.clientThreads k = some j := by
  have hk := (List.getElem?_eq_some_iff.mp hj).1
  have hget := congrArg (·[k]?) h.entries
  simp only [ChatServer.entries, slot, List.getElem?_map, List.getElem?_range hk, hj, Option.map_some,
    Option.some.injEq, Prod.mk.injEq] at hget
  exact hget

theorem TableInv.live_eq (h : TableInv s) {i : ℕ} (hpc : (s.locals i).pc = .leave)
    (hlast : s.shared.clientThreads (s.shared.clientCount - 1) = some i) :
    live s = (live s).erase i ++ [i] := by
  have hmem := h.slots.mem_live_leaving hpc
  have hcount := h.slots.count_leaving hpc
  have hpos := List.length_pos_of_mem hmem
  have hne := List.ne_nil_of_mem hmem
  have hget : (live s)[(live s).length - 1]? = some ((live s).getLast hne) := by
    rw [← List.getLast?_eq_getElem?, List.getLast?_eq_some_getLast hne]
  have hentry := (h.entry hget).2
  rw [show s.shared.clientCount - 1 = (((live s).length - 1 : ℕ) : ℤ) by omega, hentry] at hlast
  have hsplit := List.dropLast_append_getLast hne
  rw [Option.some.inj hlast] at hsplit
  have hnotin : i ∉ (live s).dropLast := by
    have hnodup := live_nodup s
    rw [← hsplit, List.nodup_append] at hnodup
    exact fun hi => hnodup.2.2 i hi i (by simp) rfl
  conv_rhs => rw [← hsplit]
  rw [List.erase_append_right _ hnotin]
  simpa using hsplit.symm

end Entries

theorem left_of_leave {i : ℕ} {srv srv' : Server} {c c' : Client}
    (hm : ClientMove i srv c srv' c') (hpc : c.pc = .leave) : c'.left = true := by
  cases hm with
  | leave _ => rfl
  | _ => simp_all

theorem slot_update {i : ℕ} {srv' : Server} {c' : Client}
    (h : c'.socket = (s.locals i).socket) :
    slot ⟨srv', Function.update s.locals i c'⟩ = slot s := by
  funext j
  simp only [slot, field_update Client.socket h j]

theorem leave_of_unlockLeave {i : ℕ} {srv srv' : Server} {c c' : Client}
    (hm : ClientMove i srv c srv' c') (hpc : c'.pc = .unlockLeave) : c.pc = .leave := by
  cases hm with
  | leave hleave => exact hleave
  | _ => cases hpc

theorem TableInv.quiet_client (h : TableInv s) {i : ℕ} {srv' : Server} {c' : Client}
    (hm : ClientMove i s.shared (s.locals i) srv' c')
    (hhandled : (s.locals i).pc = .leave → s.shared.main.closing = true →
      s.shared.main.handles = some (s.shared.clientCount - 1))
    (hmain : srv'.main = .loop 0) {j : ℕ} (hj : j < srv'.spawned) :
    (Function.update s.locals i c' j).pc ≠ .unlockLeave := by
  intro hpc
  rw [hm.frame.main] at hmain
  by_cases hji : j = i
  · subst hji
    rw [Function.update_self] at hpc
    have hhandles := hhandled (leave_of_unlockLeave hm hpc) (by rw [hmain]; rfl)
    rw [hmain] at hhandles
    cases hhandles
  · rw [Function.update_of_ne hji] at hpc
    rw [hm.frame.spawned] at hj
    exact h.quiet hmain j hj hpc

theorem TableInv.client (h : TableInv s) {i : ℕ} {srv' : Server} {c' : Client}
    (hm : ClientMove i s.shared (s.locals i) srv' c')
    (hlast : (s.locals i).pc = .leave →
      s.shared.clientThreads (s.shared.clientCount - 1) = some i)
    (hhandled : (s.locals i).pc = .leave → s.shared.main.closing = true →
      s.shared.main.handles = some (s.shared.clientCount - 1)) :
    TableInv ⟨srv', Function.update s.locals i c'⟩ := by
  have hf := hm.frame
  have hslot : slot ⟨srv', Function.update s.locals i c'⟩ = slot s := slot_update hf.socket
  have hentries : ∀ n, ChatServer.entries srv' n = ChatServer.entries s.shared n := fun n =>
    entries_congr fun k _ => by rw [hf.clientSockets, hf.clientThreads]; exact ⟨rfl, rfl⟩
  have hclosing : srv'.main.closing = true → srv'.listener.terminated = true := by
    rw [hf.main, hf.listener]
    exact h.closing
  have hquiet : srv'.main = .loop 0 → ∀ j < srv'.spawned,
      (Function.update s.locals i c' j).pc ≠ .unlockLeave :=
    fun hmain _ hj => h.quiet_client hm hhandled hmain hj
  rcases left_move hm with hpc | ⟨hleft, hcount⟩
  · -- the client that leaves is the last of the live ones, and so is its entry
    have hsplit := h.live_eq hpc (hlast hpc)
    have hlive := live_leave (i := i) hf.spawned (left_of_leave hm hpc)
    refine ⟨h.slots.client hm, ?_, ?_, hclosing, hquiet⟩
    · have hold := h.entries
      rw [hsplit, List.length_append, List.length_singleton, entries_succ, List.map_append] at hold
      rw [hlive, hslot, hentries]
      exact List.append_inj_left' hold rfl
    · intro client hcreate
      rw [hf.listener] at hcreate
      have hout := h.slots.listener_outside (i := i) (by simp [Client.inSection, hpc])
      simp [hcreate, ListenerPc.inSection] at hout
  · have hlive := live_update hf.spawned hleft
    refine ⟨h.slots.client hm, ?_, ?_, hclosing, hquiet⟩
    · rw [hlive, hslot, hentries]
      exact h.entries
    · change ∀ client, srv'.listener = .create client → srv'.clientSockets srv'.clientCount = _
      rw [hf.listener, hf.clientSockets, hcount]
      exact h.stored

theorem entries_listener {a : Action} {srv' : Server} (h : TableInv s)
    (hm : ListenerMove admins s.shared a srv') :
    entries srv' (live s).length = entries s.shared (live s).length := by
  cases hm with
  | storeSocket client hpc =>
    have hcount := h.slots.count
    simp only [hpc, ListenerPc.uncounted] at hcount
    refine entries_congr fun k hk => ⟨Function.update_of_ne ?_ _ _, rfl⟩
    omega
  | accepted result hpc => cases result <;> rfl
  | _ => rfl

theorem stored_listener {a : Action} {srv srv' : Server} (hm : ListenerMove admins srv a srv')
    {client : Client} (hpc : srv'.listener = .create client) :
    srv'.clientSockets srv'.clientCount = client.socket := by
  cases hm with
  | storeSocket client' hpc' =>
    cases hpc
    exact Function.update_self ..
  | accepted result hpc' => cases result <;> cases hpc
  | _ => cases hpc

theorem listenerMove_alive {a : Action} {srv srv' : Server} (hm : ListenerMove admins srv a srv') :
    srv.listener.terminated = false ∧ srv'.main = srv.main := by
  cases hm with
  | accepted result hpc => cases result <;> simp [ListenerPc.terminated, hpc, accepted, Server.goto]
  | cancelled hreq hpoint =>
    cases hpc : srv.listener <;>
      simp_all [ListenerPc.terminated, ListenerPc.cancellationPoint, Server.goto]
  | _ => simp [ListenerPc.terminated, Server.goto, *]

theorem TableInv.not_closing (h : TableInv s) (hl : s.shared.listener.terminated = false) :
    s.shared.main.closing = false := by
  apply Bool.eq_false_iff.mpr
  intro hclosing
  rw [h.closing hclosing] at hl
  cases hl

theorem TableInv.create (h : TableInv s) {client : Client}
    (hpc : s.shared.listener = .create client) (hslots : SlotInv (createThread s client)) :
    TableInv (createThread s client) := by
  have hcount := h.slots.count
  have hfresh := h.slots.fresh
  simp only [hpc, ListenerPc.uncounted, ListenerPc.fresh, add_zero] at hcount hfresh
  have hmain := h.not_closing (by simp [hpc, ListenerPc.terminated])
  have hstored := h.stored client hpc
  rw [hcount] at hstored
  refine ⟨hslots, ?_, fun c hc => ?_, fun hclosing => ?_, fun hloop => ?_⟩
  · rw [live_create (by simp [Client.left, hfresh]), List.length_append,
      List.length_singleton, entries_succ, List.map_append]
    congr 1
    · rw [← List.map_congr_left (f := slot s), ← h.entries]
      · exact entries_congr fun k hk => ⟨rfl, Function.update_of_ne (by omega) _ _⟩
      · intro j hj
        simp only [slot, createThread, Function.update_of_ne (mem_live.mp hj).1.ne]
    · simp [slot, createThread, hcount, hstored]
  · cases hc
  · cases hclosing.symm.trans hmain
  · have hstart : s.shared.main = .loop 0 := hloop
    rw [hstart] at hmain
    cases hmain

theorem outside_of_terminated {pc : ListenerPc} (h : pc.terminated = true) :
    pc.inSection = false := by
  cases pc with
  | returned | cancelled => rfl
  | _ => cases h

theorem mainMove_closing {srv' : Server} (hm : MainMove s srv')
    (hclosing : srv'.main.closing = true) :
    s.shared.main.closing = true ∨ s.shared.listener.terminated = true := by
  cases hm with
  | joinListener hpc hterm => exact .inr hterm
  | spin | stopped | cancelListener => cases hclosing
  | _ => exact .inl (by simp [MainPc.closing, *])

theorem quiet_main {srv' : Server} (hm : MainMove s srv') (hok : Orderly s .main)
    (hmain : srv'.main = .loop 0) {i : ℕ} (hi : i < srv'.spawned) :
    (s.locals i).pc ≠ .unlockLeave := by
  cases hm with
  | joinListener hpc hterm => exact hok hpc i hi
  | _ => cases hmain

theorem TableInv.main (h : TableInv s) {srv' : Server} (hm : MainMove s srv')
    (hok : Orderly s .main) (hslots : SlotInv ⟨srv', s.locals⟩) : TableInv ⟨srv', s.locals⟩ := by
  have hf := hm.frame
  have hlive : live ⟨srv', s.locals⟩ = live s := by simp only [live, hf.spawned]
  have hentries : ∀ n, ChatServer.entries srv' n = ChatServer.entries s.shared n := fun n =>
    entries_congr fun k _ => by rw [hf.clientSockets, hf.clientThreads]; exact ⟨rfl, rfl⟩
  refine ⟨hslots, ?_, ?_, ?_, fun hmain _ hi => quiet_main hm hok hmain hi⟩
  · rw [hlive, hentries]
    exact h.entries
  · simp only [hf.listener, hf.clientSockets, hf.clientCount]
    exact h.stored
  · simp only [hf.listener]
    intro hclosing
    exact (mainMove_closing hm hclosing).elim h.closing id

theorem TableInv.cancel (h : TableInv s) {i j : ℕ} (hpc : s.shared.main = .cancel i)
    (hslots : SlotInv ⟨{ s.shared with main := .join i },
      Function.update s.locals j { s.locals j with cancelRequested := true }⟩) :
    TableInv ⟨{ s.shared with main := .join i },
      Function.update s.locals j { s.locals j with cancelRequested := true }⟩ := by
  have hlive : live ⟨{ s.shared with main := .join i },
      Function.update s.locals j { s.locals j with cancelRequested := true }⟩ = live s :=
    live_update (by rfl) (by simp [Client.left])
  refine ⟨hslots, ?_, h.stored, fun _ => h.closing (by simp [hpc, MainPc.closing]), ?_⟩
  · rw [hlive, slot_update (by rfl)]
    exact h.entries
  · intro hloop
    cases hloop

theorem TableInv.step {a : Action} (h : TableInv s) (hok : Orderly s a)
    (ht : step admins s a = some t) : TableInv t := by
  have hslots := h.slots.step ht
  cases step_move ht with
  | sigint => exact ⟨hslots, h.entries, h.stored, h.closing, h.quiet⟩
  | client i received srv' c' hm => exact h.client hm (fun hpc => (hok hpc).1) fun hpc => (hok hpc).2
  | cancelClient i hreq hpoint =>
    have hlive : live ⟨s.shared, Function.update s.locals i ((s.locals i).goto .cancelled)⟩ =
        live s := live_update (by rfl) (left_goto_cancelled hpoint)
    refine ⟨hslots, ?_, h.stored, h.closing, fun hmain j hj => ?_⟩
    · rw [hlive, slot_update (by rfl)]
      exact h.entries
    · by_cases hji : j = i
      · subst hji
        simp [Client.goto]
      · simpa only [Function.update_of_ne hji] using h.quiet hmain j hj
  | listener a srv' hm =>
    obtain ⟨hterm, hmain⟩ := listenerMove_alive hm
    have hnot := h.not_closing hterm
    have hspawned := (listenerMove_count hm).2
    have hlive : live ⟨srv', s.locals⟩ = live s := by
      simp only [live, hspawned]
    refine ⟨hslots, ?_, fun client hpc => stored_listener hm hpc, fun hclosing => ?_, ?_⟩
    · rw [hlive]
      exact (entries_listener h hm).trans h.entries
    · rw [hmain, hnot] at hclosing
      cases hclosing
    · rw [hmain, hspawned]
      exact h.quiet
  | create client hpc => exact h.create hpc hslots
  | main srv' hm => exact h.main hm hok hslots
  | cancel i j hpc hj => exact h.cancel hpc hslots

theorem TableInv.init : TableInv init :=
  ⟨.init, rfl, fun _ h => (nomatch h), fun h => (nomatch h), fun h => (nomatch h)⟩

theorem TableInv.listed (h : TableInv s) (hfree : s.shared.clientsMutex = none) : Listed s := by
  have hout : s.shared.listener.inSection = false := by
    apply Bool.eq_false_iff.mpr
    intro hl
    have hheld := h.slots.guards .listener hl
    rw [hfree] at hheld
    cases hheld
  have hcount := h.slots.count_outside hout
  refine ⟨by omega, ?_⟩
  rw [show s.shared.clientCount.toNat = (live s).length by omega, h.entries]

theorem not_listed_of_leave (h : TableInv s) {i : ℕ} {received : List UInt8}
    (hpc : (s.locals i).pc = .leave)
    (hlast : s.shared.clientThreads (s.shared.clientCount - 1) ≠ some i)
    (ht : step admins s (.client i received) = some t) : ¬ Listed t := by
  obtain ⟨srv', c', hm, rfl⟩ := Config.move_eq_some.mp ht
  simp only [stepClient, hpc, Option.some.injEq, Prod.mk.injEq] at hm
  obtain ⟨rfl, rfl⟩ := hm
  rintro ⟨-, hperm⟩
  obtain ⟨k, hk⟩ := List.mem_iff_getElem?.mp (h.slots.mem_live_leaving hpc)
  have hlt := (List.getElem?_eq_some_iff.mp hk).1
  have hcount := h.slots.count_leaving hpc
  have hentry := (h.entry hk).2
  have hne : k ≠ (live s).length - 1 := by
    rintro rfl
    rw [show s.shared.clientCount - 1 = (((live s).length - 1 : ℕ) : ℤ) by omega] at hlast
    exact hlast hentry
  have hmem : (s.shared.clientSockets k, some i) ∈
      entries { s.shared with clientCount := s.shared.clientCount - 1 }
        (s.shared.clientCount - 1).toNat := by
    refine List.mem_map.mpr ⟨k, List.mem_range.mpr ?_, by rw [← hentry]⟩
    omega
  obtain ⟨j, hj, hslot⟩ := List.mem_map.mp (hperm.subset hmem)
  have hji : j = i := Option.some.inj (congrArg Prod.snd hslot)
  have hleft := (mem_live.mp hj).2
  rw [hji] at hleft
  simp [Client.left, Client.goto] at hleft

def disconnect (i : ℕ) : List Action := List.replicate 5 (.client i [])

/-- Of two clients the first leaves: its entry stays, that of the second is out of the table,
and `main` ends without having joined the second. -/
theorem second_client_forgotten : ∃ s : State, Reachable (step bobOnly) init s ∧
    s.shared.clientsMutex = none ∧ entries s.shared s.shared.clientCount.toNat = [(5, some 0)] ∧
      (live s).map (slot s) = [(6, some 1)] ∧ s.shared.main = .finished ∧ 1 ∉ s.shared.joined := by
  obtain ⟨s, hs, hp⟩ := exists_reachable_of_run (step bobOnly) init
    (connect 5 [newline] ++ connect 6 [newline] ++ disconnect 0 ++
      [.sigint, .listener] ++ List.replicate 9 .main)
    (fun s => decide (s.shared.clientsMutex = none ∧
      entries s.shared s.shared.clientCount.toNat = [(5, some 0)] ∧
      (live s).map (slot s) = [(6, some 1)] ∧ s.shared.main = .finished ∧ 1 ∉ s.shared.joined))
    (by decide +kernel)
  exact ⟨s, hs, of_decide_eq_true hp⟩

end PsOs.ChatServer
