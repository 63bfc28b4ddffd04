import PsOs.Beehive

namespace PsOs.Beehive

open Threads TransitionSystems

variable {N : ℕ} {dim : FieldGeometry}

inductive Move (dim : FieldGeometry) (i : Fin N) (h : Hive N) (b : Bee) : Hive N → Bee → Prop
  | enter (hpc : b.pc = .guard) (hflag : h.mustTerminate = false) :
      Move dim i h b h (b.goto .lockQueue)
  | exit (hpc : b.pc = .guard) (hflag : h.mustTerminate = true) : Move dim i h b h (b.goto .left)
  | lockQueue (hpc : b.pc = .lockQueue) (hfree : h.queueMutex = none) :
      Move dim i h b { h with queueMutex := some i } (b.goto .isEmpty)
  | isEmpty (hpc : b.pc = .isEmpty) : Move dim i h b h (b.goto .inIsEmpty)
  | empty (hpc : b.pc = .inIsEmpty) (hq : h.queue = []) : Move dim i h b h (b.goto .unlockIdle)
  | nonempty (hpc : b.pc = .inIsEmpty) (hq : h.queue ≠ []) : Move dim i h b h (b.goto .pop)
  | unlockIdle (hpc : b.pc = .unlockIdle) :
      Move dim i h b { h with queueMutex := none } (b.goto (.arrive .first))
  | pop (hpc : b.pc = .pop) : Move dim i h b h (b.goto .inPop)
  | popped (value : ℤ) (queue : List ℤ) (hpc : b.pc = .inPop) (hq : h.queue = value :: queue) :
      Move dim i h b { h with queue } (b.goto (.unlockPop (asSize value)))
  | unlockPop (pos : ℕ) (hpc : b.pc = .unlockPop pos) :
      Move dim i h b { h with queueMutex := none } (b.goto (.lockField pos))
  | lockField (pos : ℕ) (hpc : b.pc = .lockField pos) (hfree : h.fieldMutex = none) :
      Move dim i h b { h with fieldMutex := some i } (b.goto (.readNectar pos))
  | hasNectar (pos : ℕ) (hpc : b.pc = .readNectar pos) (hn : h.hasNectar pos = true) :
      Move dim i h b h (b.goto (.clearNectar pos))
  | noNectar (pos : ℕ) (hpc : b.pc = .readNectar pos) (hn : h.hasNectar pos = false) :
      Move dim i h b h (b.goto .unlockField)
  | clearNectar (pos : ℕ) (hpc : b.pc = .clearNectar pos) :
      Move dim i h b { h with
        hasNectar := Function.update h.hasNectar pos false
        harvests := h.harvests ++ [pos] } (b.goto (.collect pos))
  | collect (pos : ℕ) (hpc : b.pc = .collect pos) :
      Move dim i h b { h with collected := h.collected + 1 } (b.goto (.examine pos 0))
  | skip (pos : ℕ) (k : Fin 4) (hpc : b.pc = .examine pos k)
      (hk : calculatePositions pos dim k = errorValue ∨
        h.hasNectar (calculatePositions pos dim k) = false) :
      Move dim i h b h (b.goto (.examine pos (k + 1)))
  | report (pos : ℕ) (k : Fin 4) (hpc : b.pc = .examine pos k)
      (hk : calculatePositions pos dim k ≠ errorValue)
      (hn : h.hasNectar (calculatePositions pos dim k) = true) :
      Move dim i h b h (b.goto (.push pos k))
  | push (pos : ℕ) (k : Fin 4) (hpc : b.pc = .push pos k) : Move dim i h b h (b.goto (.inPush pos k))
  | pushed (pos : ℕ) (k : Fin 4) (hpc : b.pc = .inPush pos k) :
      Move dim i h b { h with
        queue := h.queue ++ [asInt (calculatePositions pos dim k)]
        reports := h.reports ++ [(pos, calculatePositions pos dim k)] }
        (b.goto (.examine pos (k + 1)))
  | examined (pos k : ℕ) (hpc : b.pc = .examine pos k) (hk : 4 ≤ k) :
      Move dim i h b h (b.goto .unlockField)
  | unlockField (hpc : b.pc = .unlockField) :
      Move dim i h b { h with fieldMutex := none } (b.goto (.arrive .first))
  | arrive (stop : Stop) (serial : Fin N) (hpc : b.pc = .arrive stop) :
      Move dim i h b (h.arrive serial) (b.goto (.await stop h.barrier.generation))
  | leave (stop : Stop) (gen : ℕ) (hpc : b.pc = .await stop gen) (hgen : gen < h.barrier.generation) :
      Move dim i h b h (b.leave i h.serial stop)
  | repelled (hpc : b.pc = .bear) : Move dim i h b h (b.goto (.arrive .second))
  | destroyed (hpc : b.pc = .bear) : Move dim i h b h (b.goto .storeTerminate)
  | storeTerminate (hpc : b.pc = .storeTerminate) :
      Move dim i h b { h with mustTerminate := true } (b.goto .storeDestroyed)
  | storeDestroyed (hpc : b.pc = .storeDestroyed) :
      Move dim i h b { h with beehiveDestroyed := true } (b.goto (.arrive .second))

theorem leave_pc (i : Fin N) (serial : Option (Fin N)) (b : Bee) (stop : Stop) :
    (b.leave i serial stop).pc = .bear ∨ (b.leave i serial stop).pc = .arrive .second ∨
      (b.leave i serial stop).pc = .guard := by
  cases stop with
  | first => by_cases hs : serial = some i <;> simp [Bee.leave, Bee.goto, hs]
  | second => exact .inr (.inr rfl)

theorem examine_move (i : Fin N) {h : Hive N} {b : Bee} {pos k : ℕ} (hpc : b.pc = .examine pos k) :
    Move dim i h b h (b.examine h.hasNectar dim pos k) := by
  unfold Bee.examine
  by_cases hk : k < 4
  · simp only [hk, dif_pos]
    split
    · exact .skip pos ⟨k, hk⟩ hpc (.inl ‹_›)
    · split
      · exact .report pos ⟨k, hk⟩ hpc ‹_› ‹_›
      · exact .skip pos ⟨k, hk⟩ hpc (.inr (by simpa using ‹¬ h.hasNectar _ = true›))
  · rw [dif_neg hk]
    exact .examined pos k hpc (by omega)

theorem stepBee_move {a : Turn N} {h h' : Hive N} {b b' : Bee}
    (ht : stepBee dim a h b = some (h', b')) : Move dim a.bee h b h' b' := by
  unfold stepBee at ht
  cases hpc : b.pc <;> simp only [hpc] at ht
  case guard =>
    cases ht
    cases hflag : h.mustTerminate with
    | false => exact .enter hpc hflag
    | true => exact .exit hpc hflag
  case lockQueue =>
    simp only [Option.map_eq_some_iff, acquire_eq_some] at ht
    obtain ⟨m, ⟨hfree, rfl⟩, ht⟩ := ht
    cases ht
    exact .lockQueue hpc hfree
  case isEmpty => cases ht; exact .isEmpty hpc
  case inIsEmpty =>
    cases ht
    cases hq : h.queue with
    | nil => exact .empty hpc hq
    | cons value queue => exact .nonempty hpc (by simp [hq])
  case unlockIdle => cases ht; exact .unlockIdle hpc
  case pop => cases ht; exact .pop hpc
  case inPop =>
    split at ht <;> cases ht
    exact .popped _ _ hpc ‹_›
  case unlockPop pos => cases ht; exact .unlockPop pos hpc
  case lockField pos =>
    simp only [Option.map_eq_some_iff, acquire_eq_some] at ht
    obtain ⟨m, ⟨hfree, rfl⟩, ht⟩ := ht
    cases ht
    exact .lockField pos hpc hfree
  case readNectar pos =>
    cases ht
    cases hn : h.hasNectar pos with
    | true => exact .hasNectar pos hpc hn
    | false => exact .noNectar pos hpc hn
  case clearNectar pos => cases ht; exact .clearNectar pos hpc
  case collect pos => cases ht; exact .collect pos hpc
  case examine pos k => cases ht; exact examine_move a.bee hpc
  case push pos k => cases ht; exact .push pos k hpc
  case inPush pos k => cases ht; exact .pushed pos k hpc
  case unlockField => cases ht; exact .unlockField hpc
  case arrive stop => cases ht; exact .arrive stop a.serial hpc
  case await stop gen =>
    split at ht <;> cases ht
    exact .leave stop gen hpc ‹_›
  case bear =>
    cases ht
    split
    · exact .destroyed hpc
    · exact .repelled hpc
  case storeTerminate => cases ht; exact .storeTerminate hpc
  case storeDestroyed => cases ht; exact .storeDestroyed hpc
  case left => cases ht

theorem stepMain_eq {s : State N} {h' : Hive N} (hm : stepMain dim s = some h') :
    h' = { s.shared with main := h'.main, mustTerminate := h'.mustTerminate } := by
  unfold stepMain at hm
  cases hpc : s.shared.main <;> simp only [hpc] at hm
  case join i =>
    split at hm
    · split at hm <;> cases hm
      rfl
    · cases hm
      rfl
  case finished => cases hm
  all_goals
    cases hm
    rfl

theorem step_cases {s t : State N} {a : Action N} (ht : step dim s a = some t) :
    (∃ i h' b', Move dim i s.shared (s.locals i) h' b' ∧
      t = ⟨h', Function.update s.locals i b'⟩) ∨
    a = .main ∧ ∃ main flag, (flag = s.shared.mustTerminate ∨
        s.shared.main = .storeTerminate ∧ flag = true) ∧
      t = ⟨{ s.shared with main, mustTerminate := flag }, s.locals⟩ := by
  cases a with
  | bee turn =>
    obtain ⟨h', b', hm, rfl⟩ := Config.move_eq_some.mp ht
    exact .inl ⟨turn.bee, h', b', stepBee_move hm, rfl⟩
  | main =>
    refine .inr ⟨rfl, ?_⟩
    simp only [step, Option.map_eq_some_iff] at ht
    obtain ⟨h', hm, rfl⟩ := ht
    unfold stepMain at hm
    cases hpc : s.shared.main <;> simp only [hpc] at hm
    case storeTerminate =>
      cases hm
      exact ⟨_, true, .inr ⟨rfl, rfl⟩, rfl⟩
    case join i =>
      split at hm
      · split at hm <;> cases hm
        exact ⟨_, _, .inl rfl, rfl⟩
      · cases hm
        exact ⟨_, _, .inl rfl, rfl⟩
    case finished => cases hm
    all_goals
      cases hm
      exact ⟨_, _, .inl rfl, rfl⟩

end PsOs.Beehive
