import PsOs.ChatSlots

/-! The bound on `client_count` between the capacity check and the store of a client. -/

namespace PsOs.ChatServer

open Threads TransitionSystems

variable {admins : Admins} {s t : State}

/-- The place that the listener has found free and not yet counted as taken. -/
def ListenerPc.reserved : ListenerPc → ℤ
  | .unlockCheck _ | .readName _ | .lockInsert _ | .storeSocket _ | .create _ | .increment => 1
  | _ => 0

def storeIndices (srv : Server) : List ℤ :=
  match srv.listener with
  | .storeSocket _ | .create _ => [srv.clientCount]
  | _ => []

structure CapacityInv (s : State) : Prop where
  slots : SlotInv s
  nonneg : 0 ≤ s.shared.clientCount
  room : s.shared.clientCount + s.shared.listener.reserved ≤ MAX_CONNECTIONS

structure Capacity (s : State) : Prop where
  counted : s.shared.clientsMutex = none → s.shared.clientCount = (live s).length
  nonneg : 0 ≤ s.shared.clientCount
  le_max : s.shared.clientCount ≤ MAX_CONNECTIONS
  stores : ∀ k ∈ storeIndices s.shared, 0 ≤ k ∧ k < MAX_CONNECTIONS

section Moves

variable {srv' : Server} {c' : Client} {i : ℕ}

theorem reserved_nonneg (pc : ListenerPc) : 0 ≤ pc.reserved := by
  unfold ListenerPc.reserved
  split <;> omega

theorem clientMove_count {srv : Server} {c : Client} (hm : ClientMove i srv c srv' c') :
    srv'.clientCount = srv.clientCount ∨
      c.pc = .leave ∧ srv'.clientCount = srv.clientCount - 1 := by
  cases hm with
  | leave hpc => exact .inr ⟨hpc, rfl⟩
  | _ => exact .inl rfl

theorem listenerMove_room {srv : Server} {a : Action} (hm : ListenerMove admins srv a srv')
    (hroom : srv.clientCount + srv.listener.reserved ≤ MAX_CONNECTIONS) :
    srv.clientCount ≤ srv'.clientCount ∧
      srv'.clientCount + srv'.listener.reserved ≤ MAX_CONNECTIONS := by
  have hreserved := reserved_nonneg srv.listener
  cases hm with
  | room socket hpc hlt =>
    refine ⟨le_rfl, ?_⟩
    simp only [Server.goto, ListenerPc.reserved]
    omega
  | increment hpc =>
    simp only [hpc, ListenerPc.reserved] at hroom ⊢
    omega
  | accepted result hpc =>
    cases result <;> simp_all [accepted, Server.goto, ListenerPc.reserved]
  | unlockCheck socket hpc | login socket l hpc | lockInsert client hpc hfree
      | storeSocket client hpc =>
    refine ⟨le_rfl, ?_⟩
    simpa only [hpc, Server.goto, ListenerPc.reserved] using hroom
  | _ =>
    refine ⟨le_rfl, ?_⟩
    simp only [Server.goto, ListenerPc.reserved]
    omega

theorem SlotInv.count_pos (h : SlotInv s) (hpc : (s.locals i).pc = .leave) :
    0 < s.shared.clientCount := by
  have hpos := List.length_pos_of_mem (h.mem_live_leaving hpc)
  have hcount := h.count_leaving hpc
  omega

theorem SlotInv.counted (h : SlotInv s) (hfree : s.shared.clientsMutex = none) :
    s.shared.clientCount = (live s).length := by
  apply h.count_outside
  apply Bool.eq_false_iff.mpr
  intro hinside
  have hheld := h.guards .listener hinside
  rw [hfree] at hheld
  cases hheld

end Moves

theorem CapacityInv.step {a : Action} (h : CapacityInv s) (ht : ChatServer.step admins s a = some t) :
    CapacityInv t := by
  have hslots := h.slots.step ht
  cases step_move ht with
  | sigint => exact ⟨hslots, h.nonneg, h.room⟩
  | client i received srv' c' hm =>
    have hroom := h.room
    have hnonneg := h.nonneg
    have hlistener := hm.frame.listener
    apply CapacityInv.mk hslots
    · obtain hcount | ⟨hpc, hcount⟩ := clientMove_count hm
      · exact hcount ▸ hnonneg
      · have hpos := h.slots.count_pos hpc
        change 0 ≤ srv'.clientCount
        omega
    · change srv'.clientCount + srv'.listener.reserved ≤ _
      rw [hlistener]
      obtain hcount | ⟨-, hcount⟩ := clientMove_count hm <;> omega
  | cancelClient i hreq hpoint => exact ⟨hslots, h.nonneg, h.room⟩
  | listener a srv' hm =>
    obtain ⟨hle, hroom⟩ := listenerMove_room hm h.room
    exact ⟨hslots, h.nonneg.trans hle, hroom⟩
  | create client hpc =>
    have hroom := h.room
    rw [hpc] at hroom
    exact ⟨hslots, h.nonneg, hroom⟩
  | main srv' hm =>
    have hf := hm.frame
    apply CapacityInv.mk hslots
    · change 0 ≤ srv'.clientCount
      rw [hf.clientCount]
      exact h.nonneg
    · change srv'.clientCount + srv'.listener.reserved ≤ _
      rw [hf.clientCount, hf.listener]
      exact h.room
  | cancel i j hpc hj => exact ⟨hslots, h.nonneg, h.room⟩

theorem CapacityInv.init : CapacityInv init := ⟨.init, le_rfl, by decide⟩

theorem CapacityInv.capacity (h : CapacityInv s) : Capacity s := by
  have hreserved := reserved_nonneg s.shared.listener
  have hroom := h.room
  refine ⟨h.slots.counted, h.nonneg, by omega, ?_⟩
  intro k hk
  unfold storeIndices at hk
  split at hk
  case h_1 hpc | h_2 hpc =>
    rw [hpc] at hroom
    obtain rfl := List.mem_singleton.mp hk
    exact ⟨h.nonneg, Int.lt_iff_add_one_le.mpr hroom⟩
  case h_3 => cases hk

theorem tables_of_notMem {a : Action} (ht : step admins s a = some t) {k : ℤ}
    (hk : k ∉ storeIndices s.shared) : t.shared.clientSockets k = s.shared.clientSockets k ∧
      t.shared.clientThreads k = s.shared.clientThreads k := by
  cases step_move ht with
  | client i received srv' c' hm =>
    exact ⟨congrFun hm.frame.clientSockets k, congrFun hm.frame.clientThreads k⟩
  | listener a srv' hm =>
    cases hm with
    | storeSocket client hpc =>
      have hne : k ≠ s.shared.clientCount := by simpa [storeIndices, hpc] using hk
      exact ⟨Function.update_of_ne hne _ _, rfl⟩
    | accepted result hpc => cases result <;> exact ⟨rfl, rfl⟩
    | _ => exact ⟨rfl, rfl⟩
  | create client hpc =>
    have hne : k ≠ s.shared.clientCount := by simpa [storeIndices, hpc] using hk
    exact ⟨rfl, Function.update_of_ne hne _ _⟩
  | main srv' hm => exact ⟨congrFun hm.frame.clientSockets k, congrFun hm.frame.clientThreads k⟩
  | _ => exact ⟨rfl, rfl⟩

theorem capacity_of_reachable (h : Reachable (step admins) init s) :
    Capacity s ∧ ∀ a t k, step admins s a = some t → k ∉ storeIndices s.shared →
      t.shared.clientSockets k = s.shared.clientSockets k ∧
        t.shared.clientThreads k = s.shared.clientThreads k := by
  have hinv := h.invariant CapacityInv .init fun _ _ _ hs ht => hs.step ht
  exact ⟨hinv.capacity, fun a t k ht hk => tables_of_notMem ht hk⟩

theorem capacity_secondClient : ∃ s : State, (s.shared.clientCount = 0 ∧ s.shared.spawned = 1 ∧
    storeIndices s.shared = [0]) ∧ Capacity s := by
  obtain ⟨s, hs, hp⟩ := exists_reachable_of_run (step bobOnly) init
    (connect 5 [newline] ++ (connect 6 [newline]).take 5 ++
      List.replicate 5 (.client 0 []) ++ [.login (freshLogin [newline]), .listener])
    (fun s => decide (s.shared.clientCount = 0 ∧ s.shared.spawned = 1 ∧
      storeIndices s.shared = [0])) (by decide +kernel)
  exact ⟨s, of_decide_eq_true hp, (capacity_of_reachable hs).1⟩

end PsOs.ChatServer
