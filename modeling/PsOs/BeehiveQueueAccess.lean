import PsOs.BeehiveFrontier

namespace PsOs.Beehive

open Grid Threads TransitionSystems

variable {N : ℕ} {dim : FieldGeometry}

def Bee.InQueue (b : Bee) : Prop :=
  match b.pc with
  | .inIsEmpty | .inPop | .inPush _ _ => True
  | _ => False

def Exclusive (s : State N) : Prop :=
  ∀ i j, (s.locals i).InQueue → (s.locals j).InQueue → i = j

def Bee.AtQueue (b : Bee) : Prop :=
  match b.pc with
  | .isEmpty | .inIsEmpty | .unlockIdle | .pop | .inPop | .unlockPop _ => True
  | _ => False

theorem queueGuards_move {s : State N} {i : Fin N} {h' : Hive N} {b' : Bee}
    (h : Guards s.shared.queueMutex Bee.AtQueue s.locals)
    (hm : Move dim i s.shared (s.locals i) h' b') :
    Guards h'.queueMutex Bee.AtQueue (Function.update s.locals i b') := by
  cases hm with
  | lockQueue hpc hfree =>
    rw [hfree] at h
    exact h.acquire
  | unlockIdle hpc | unlockPop pos hpc =>
    exact h.release (by simp [Bee.AtQueue, hpc]) (by simp [Bee.AtQueue, Bee.goto])
  | leave stop gen hpc hgen =>
    apply h.stay
    rcases leave_pc i s.shared.serial (s.locals i) stop with hp | hp | hp <;>
      simp [Bee.AtQueue, hp]
  | _ =>
    apply h.stay
    simp [Bee.AtQueue, Bee.goto, *]

theorem queueGuards_of_reachable {s : State N} (h : Reachable (step dim) (init dim N) s) :
    Guards s.shared.queueMutex Bee.AtQueue s.locals := by
  refine Reachable.invariant (fun s : State N => Guards s.shared.queueMutex Bee.AtQueue s.locals) h
    (fun i (hi : False) => hi.elim) fun s a t hs ht => ?_
  obtain ⟨i, h', b', hm, rfl⟩ | ⟨-, main, flag, -, rfl⟩ := step_cases ht
  · exact queueGuards_move hs hm
  · exact hs

theorem atQueue_of_inQueue (hv : dim.Valid) (hsize : dim.size = 1) {b : Bee}
    (hb : b.InField dim) (h : b.InQueue) : b.AtQueue := by
  unfold Bee.InQueue at h
  unfold Bee.InField at hb
  unfold Bee.AtQueue
  cases hpc : b.pc with
  | inPush pos k =>
    simp only [hpc] at hb
    obtain ⟨hlt, hadj⟩ := hv.adjacent_entry hb.1 hb.2
    exact absurd (by omega) hadj.ne
  | inIsEmpty | inPop => trivial
  | _ => simp only [hpc] at h

theorem exclusive_of_size_one (hv : dim.Valid) (hsize : dim.size = 1) {s : State N}
    (h : Reachable (step dim) (init dim N) s) : Exclusive s := by
  have hfield := Reachable.invariant (FieldInv dim) h (.init hv) fun _ _ _ hs => hs.step hv
  have hat : ∀ i, (s.locals i).InQueue → (s.locals i).AtQueue := fun i =>
    atQueue_of_inQueue hv hsize (hfield.bees i)
  exact fun i j hi hj => (queueGuards_of_reachable h).exclusive (hat i hi) (hat j hj)

section Overlap

variable {i : Fin N} {f : Fin N → Bee} {h : Hive N} {b : Bee} {t : State N}

theorem reachable_of_turn (h' : Hive N) (b' : Bee)
    (hstep : stepBee dim ⟨i, 0, 0, i⟩ h b = some (h', b'))
    (ht : Reachable (step dim) ⟨h', Function.update f i b'⟩ t) :
    Reachable (step dim) ⟨h, Function.update f i b⟩ t := by
  have hfirst : step dim ⟨h, Function.update f i b⟩ (.bee ⟨i, 0, 0, i⟩) =
      some ⟨h', Function.update f i b'⟩ :=
    Config.move_eq_some.mpr ⟨h', b', by simpa using hstep, by simp⟩
  exact (Reachable.refl.tail hfirst).trans ht

def CanPush (dim : FieldGeometry) (i : Fin N) (f : Fin N → Bee) (h : Hive N) (b : Bee) : Prop :=
  ∃ h' b' pos k, Reachable (step dim) ⟨h, Function.update f i b⟩ ⟨h', Function.update f i b'⟩ ∧
    b'.pc = .inPush pos k ∧ h'.queueMutex = none ∧ h'.mustTerminate = false

theorem CanPush.of_turn (h' : Hive N) (b' : Bee)
    (hstep : stepBee dim ⟨i, 0, 0, i⟩ h b = some (h', b')) (hc : CanPush dim i f h' b') :
    CanPush dim i f h b := by
  obtain ⟨h'', b'', pos, k, hreach, hrest⟩ := hc
  exact ⟨h'', b'', pos, k, reachable_of_turn h' b' hstep hreach, hrest⟩

theorem canPush_examine {pos k : ℕ} (hpc : b.pc = .examine pos k)
    (hmutex : h.queueMutex = none) (hflag : h.mustTerminate = false)
    (hnectar : ∀ j, calculatePositions pos dim j ≠ errorValue →
      h.hasNectar (calculatePositions pos dim j) = true)
    (hentry : ∃ j : Fin 4, k ≤ j ∧ calculatePositions pos dim j ≠ errorValue) :
    CanPush dim i f h b := by
  obtain ⟨j, hkj, hj⟩ := hentry
  induction hd : j.val - k generalizing k b with
  | zero =>
    obtain rfl : k = j := by omega
    apply CanPush.of_turn h (b.goto (.push pos j))
      (by simp [stepBee, hpc, Bee.examine, hj, hnectar j hj])
    apply CanPush.of_turn h (b.goto (.inPush pos j)) rfl
    exact ⟨h, b.goto (.inPush pos j), pos, j, .refl, rfl, hmutex, hflag⟩
  | succ d ih =>
    have hk : k < 4 := by omega
    by_cases herr : calculatePositions pos dim ⟨k, hk⟩ = errorValue
    · apply CanPush.of_turn h (b.goto (.examine pos (k + 1)))
        (by simp [stepBee, hpc, Bee.examine, hk, herr])
      exact ih rfl (by omega) (by omega)
    · apply CanPush.of_turn h (b.goto (.push pos ⟨k, hk⟩))
        (by simp [stepBee, hpc, Bee.examine, hk, herr, hnectar _ herr])
      apply CanPush.of_turn h (b.goto (.inPush pos ⟨k, hk⟩)) rfl
      exact ⟨h, b.goto (.inPush pos ⟨k, hk⟩), pos, ⟨k, hk⟩, .refl, rfl, hmutex, hflag⟩

theorem exists_neighbour_of_seed (hv : dim.Valid) (hsize : 2 ≤ dim.size) :
    ∃ q < dim.size, Adjacent dim.width (seed dim) q := by
  have hseed := hv.seed_lt
  have hw := hv.width_pos
  by_cases hcol : 0 < seed dim % dim.width
  · exact ⟨_, by omega, adjacent_sub_one hw hcol⟩
  · by_cases hnext : seed dim % dim.width + 1 < dim.width
    · exact ⟨_, add_one_lt_size hseed hnext, adjacent_add_one hw hnext⟩
    · -- the field has one column
      have hrow : dim.width ≤ seed dim := by
        rw [seed, hv.product] at *
        omega
      exact ⟨_, by omega, adjacent_sub_width hw hrow⟩

theorem canPush_init (hv : dim.Valid) (hsize : 2 ≤ dim.size) (i : Fin N) :
    CanPush dim i (init dim N).locals (init dim N).shared ⟨.guard, 0⟩ := by
  have hseed := hv.seed_lt
  have hlt := hv.size_lt
  have hcast : asSize (asInt (seed dim)) = seed dim := by
    rw [asInt_cast (by omega), asSize_cast (by omega)]
  let h₀ := (init dim N).shared
  let b₀ : Bee := ⟨.guard, 0⟩
  let pos := seed dim
  apply CanPush.of_turn h₀ (b₀.goto .lockQueue) rfl
  apply CanPush.of_turn { h₀ with queueMutex := some i } (b₀.goto .isEmpty) rfl
  apply CanPush.of_turn { h₀ with queueMutex := some i } (b₀.goto .inIsEmpty) rfl
  apply CanPush.of_turn { h₀ with queueMutex := some i } (b₀.goto .pop) rfl
  apply CanPush.of_turn { h₀ with queueMutex := some i } (b₀.goto .inPop) rfl
  apply CanPush.of_turn { h₀ with queueMutex := some i, queue := [] } (b₀.goto (.unlockPop pos))
    (by simp [stepBee, Bee.goto, h₀, init, hcast, pos])
  let h₁ : Hive N := { h₀ with queue := [] }
  apply CanPush.of_turn h₁ (b₀.goto (.lockField pos)) rfl
  apply CanPush.of_turn { h₁ with fieldMutex := some i } (b₀.goto (.readNectar pos)) rfl
  apply CanPush.of_turn { h₁ with fieldMutex := some i } (b₀.goto (.clearNectar pos))
    (by simp [stepBee, Bee.goto, h₁, h₀, pos, hv.init_hasNectar hseed])
  let h₂ : Hive N :=
    { h₁ with
      fieldMutex := some i
      hasNectar := Function.update h₀.hasNectar pos false
      harvests := [pos] }
  apply CanPush.of_turn h₂ (b₀.goto (.collect pos)) rfl
  apply CanPush.of_turn { h₂ with collected := 1 } (b₀.goto (.examine pos 0)) rfl
  refine canPush_examine rfl rfl rfl (fun j hj => ?_) ?_
  · obtain ⟨hq, hadj⟩ := hv.adjacent_entry hseed hj
    exact (Function.update_of_ne hadj.ne.symm _ _).trans (hv.init_hasNectar hq)
  · obtain ⟨q, hq, hadj⟩ := exists_neighbour_of_seed hv hsize
    obtain ⟨j, hj⟩ := hv.exists_entry hseed hq hadj
    exact ⟨j, Nat.zero_le _, by rw [hj]; exact hv.ne_errorValue hq⟩

theorem exists_overlap (hv : dim.Valid) (hsize : 2 ≤ dim.size) (hN : 2 ≤ N) :
    ∃ s : State N, Reachable (step dim) (init dim N) s ∧ ¬ Exclusive s := by
  let i : Fin N := ⟨0, by omega⟩
  let j : Fin N := ⟨1, by omega⟩
  have hji : j ≠ i := by simp [i, j]
  obtain ⟨h', b', pos, k, hreach, hpc, hmutex, hflag⟩ := canPush_init hv hsize i
  have hinit : (⟨(init dim N).shared, Function.update (init dim N).locals i ⟨.guard, 0⟩⟩ :
      State N) = init dim N := by
    rw [show (⟨.guard, 0⟩ : Bee) = (init dim N).locals i from rfl, Function.update_eq_self]
  rw [hinit] at hreach
  let f := Function.update (init dim N).locals i b'
  let b₀ : Bee := ⟨.guard, 0⟩
  have hj : f j = b₀ := Function.update_of_ne hji _ _
  have hother : Reachable (step dim) ⟨h', f⟩
      ⟨{ h' with queueMutex := some j }, Function.update f j (b₀.goto .inIsEmpty)⟩ := by
    rw [← Function.update_eq_self j f, hj, Function.update_idem]
    apply reachable_of_turn h' (b₀.goto .lockQueue) (by simp [stepBee, b₀, hflag])
    apply reachable_of_turn { h' with queueMutex := some j } (b₀.goto .isEmpty)
      (by simp [stepBee, Bee.goto, hmutex, acquire])
    exact reachable_of_turn _ (b₀.goto .inIsEmpty) rfl .refl
  refine ⟨_, hreach.trans hother, fun hex => hji (hex j i ?_ ?_)⟩
  · simp only [Function.update_self]
    trivial
  · simp only [Function.update_of_ne hji.symm, f, Function.update_self, Bee.InQueue, hpc]

end Overlap

theorem exclusive_iff {width height : ℕ} (hw : 1 ≤ width) (hh : 1 ≤ height)
    (hsize : width * height < 2 ^ 31) (N : ℕ) :
    (∀ s, Reachable (step (globalField width height)) (init (globalField width height) N) s →
      Exclusive s) ↔ N ≤ 1 ∨ width * height = 1 := by
  have hv := globalField_valid hw hh hsize
  have hprod : (globalField width height).size = width * height := by
    rw [globalField_eq hw hh hsize]
    rfl
  constructor
  · intro hall
    by_contra hmany
    -- the seed has a neighbour, which its first harvester reports under the other mutex
    have hpos := Nat.mul_pos hw hh
    obtain ⟨s, hs, hbad⟩ := exists_overlap (N := N) hv (by omega) (by omega)
    exact hbad (hall s hs)
  · rintro (hN | hone) s hs
    · intro i j _ _
      ext
      omega
    · exact exclusive_of_size_one hv (by omega) hs

theorem exclusive_iff_twoBees :
    (∀ s, Reachable (step (globalField 2 1)) (init (globalField 2 1) 2) s → Exclusive s) ↔
      2 ≤ 1 ∨ 2 * 1 = 1 :=
  exclusive_iff (by decide) (by decide) (by decide) 2

theorem push_overlaps_isEmpty : ∃ s : State 2,
    Reachable (step (globalField 2 1)) (init (globalField 2 1) 2) s ∧
      (s.locals 0).pc = .inPush 1 2 ∧ (s.locals 1).pc = .inIsEmpty ∧ ¬ Exclusive s := by
  obtain ⟨s, hs, hp⟩ := exists_reachable_of_run (step (globalField 2 1))
    (init (globalField 2 1) 2) (turns 0 15 0 ++ turns 1 3 0)
    (fun s => decide ((s.locals 0).pc = .inPush 1 2 ∧ (s.locals 1).pc = .inIsEmpty))
    (by decide +kernel)
  obtain ⟨h₀, h₁⟩ := of_decide_eq_true hp
  refine ⟨s, hs, h₀, h₁, fun hex => ?_⟩
  have := hex 0 1 (by simp only [Bee.InQueue, h₀]) (by simp only [Bee.InQueue, h₁])
  cases this

end PsOs.Beehive
