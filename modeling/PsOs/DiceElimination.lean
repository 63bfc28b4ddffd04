import Mathlib.Data.Finset.Lattice.Fold
import Mathlib.Order.Lattice.Nat
import PsOs.DiceLockstep

namespace PsOs.DiceGame

open Threads TransitionSystems

variable {N : ℕ}

def EliminationStart (s : State N) : Prop :=
  ∀ i, ∃ gen, (s.locals i).pc = .await .maximum gen ∧ gen < s.shared.barrier.generation

def maxRoll (s : State N) : ℕ :=
  (remaining s).sup s.shared.state.rolls

def top (s : State N) : Finset (Fin N) :=
  (remaining s).filter fun i => s.shared.state.rolls i = maxRoll s

def expected (s : State N) : Finset (Fin N) :=
  if top s = remaining s then ∅ else top s

def eliminated (s t : State N) : Finset (Fin N) :=
  Finset.univ.filter fun i => (s.locals i).loser = false ∧ (t.locals i).loser = true

theorem mem_remaining {s : State N} {i : Fin N} :
    i ∈ remaining s ↔ (s.locals i).loser = false := by
  simp [remaining]

theorem top_subset (s : State N) : top s ⊆ remaining s := Finset.filter_subset ..

theorem expected_subset (s : State N) : expected s ⊆ top s := by
  unfold expected
  split
  · exact Finset.empty_subset _
  · exact subset_rfl

section Start

variable {s : State N}

theorem EliminationStart.player (h : Inv s) (hs : EliminationStart s) (i : Fin N) :
    s.shared.barrier.generation = 4 * (s.locals i).rounds + 2 ∧
      (s.shared.state.rolls i = 0 ↔ (s.locals i).loser = true) := by
  obtain ⟨gen, hpc, hlt⟩ := hs i
  have hi := h.players i
  have hphase := phase h i
  simp only [PlayerOk, hpc, Pc.offset] at hi hphase
  exact ⟨by omega, hi.1.2⟩

theorem EliminationStart.elimination [NeZero N] (h : Inv s) (hs : EliminationStart s) :
    Elimination s := by
  have hgen := (hs.player h 0).1
  exact h.eliminating (by omega)

theorem EliminationStart.maxOver [NeZero N] (h : Inv s) (hs : EliminationStart s) :
    MaxOver s.shared.state N :=
  (hs.elimination h).fresh fun j => (hs j).imp fun _ hj => hj.1

theorem EliminationStart.currentMax_eq [NeZero N] (h : Inv s) (hs : EliminationStart s) :
    s.shared.state.currentMax = maxRoll s := by
  have hmax := hs.maxOver h
  have hpos := (hs.elimination h).max_pos
  apply le_antisymm
  · obtain hzero | ⟨j, -, hj⟩ := hmax.attained
    · omega
    · have hmem : j ∈ remaining s := by
        rw [mem_remaining, ← Bool.not_eq_true]
        intro hl
        have := (hs.player h j).2.mpr hl
        omega
      rw [← hj]
      exact Finset.le_sup hmem
  · exact Finset.sup_le fun j _ => hmax.le j j.isLt

theorem EliminationStart.count_eq [NeZero N] (h : Inv s) (hs : EliminationStart s) :
    s.shared.state.currentMaxCount = (top s).card := by
  have hpos := (hs.elimination h).max_pos
  rw [(hs.maxOver h).count]
  congr 2
  ext j
  simp only [top, ← hs.currentMax_eq h, remaining, Finset.mem_filter, Finset.mem_univ, true_and,
    j.isLt]
  refine ⟨fun hj => ⟨?_, hj⟩, And.right⟩
  rw [← Bool.not_eq_true]
  intro hl
  have := (hs.player h j).2.mpr hl
  omega

theorem EliminationStart.n_eq [NeZero N] (h : Inv s) (hs : EliminationStart s) :
    s.shared.state.n = (remaining s).card := by
  have halive : ∀ j, (s.locals j).Alive ↔ (s.locals j).loser = false := by
    intro j
    obtain ⟨gen, hpc, -⟩ := hs j
    simp [Player.Alive, hpc]
  rw [h.n, tally, remaining]
  simp only [halive]

end Start

section Round

variable {s t : State N}

def EliminationOk (s : State N) (st : GameState N) (i : Fin N) (p : Player) : Prop :=
  match p.pc with
  | .await .maximum _ | .readCount =>
    (p.loser = false ↔ i ∈ remaining s) ∧ st.rolls i = s.shared.state.rolls i
  | .readN count => p.loser = false ∧ i ∈ remaining s ∧
    st.rolls i = s.shared.state.rolls i ∧ count = (top s).card
  | .readRoll => p.loser = false ∧ i ∈ remaining s ∧ st.rolls i = s.shared.state.rolls i ∧
    top s ≠ remaining s
  | .decrement | .clearRoll | .setLoser => p.loser = false ∧ i ∈ expected s
  | .arrive .eliminated | .await .eliminated _ =>
    p.loser = false ↔ i ∈ remaining s ∧ i ∉ expected s
  | _ => False

structure Eliminating (s t : State N) : Prop where
  generation : t.shared.barrier.generation = s.shared.barrier.generation
  currentMax : t.shared.state.currentMax = maxRoll s
  count : t.shared.state.currentMaxCount = (top s).card
  players : ∀ i, EliminationOk s t.shared.state i (t.locals i)

theorem EliminationOk.mem_of_alive {st : GameState N} {i : Fin N} {p : Player}
    (h : EliminationOk s st i p) (hp : p.Alive) : i ∈ remaining s := by
  obtain ⟨hl, -, -⟩ := hp
  unfold EliminationOk at h
  cases hpc : p.pc with
  | arrive stop | await stop gen =>
    cases stop <;> simp only [hpc] at h
    all_goals first
      | exact (h.mp hl).1
      | exact h.1.mp hl
  | readCount => simp only [hpc] at h; exact h.1.mp hl
  | readN count => simp only [hpc] at h; exact h.2.1
  | readRoll => simp only [hpc] at h; exact h.2.1
  | decrement | clearRoll | setLoser =>
    simp only [hpc] at h
    exact top_subset s (expected_subset s h.2)
  | _ => simp only [hpc] at h

theorem EliminationOk.alive {st : GameState N} {i : Fin N} {p : Player}
    (h : EliminationOk s st i p) (hi : i ∈ remaining s) (hi' : i ∉ expected s) : p.Alive := by
  unfold EliminationOk at h
  cases hpc : p.pc with
  | arrive stop | await stop gen =>
    cases stop <;> simp only [hpc] at h
    all_goals first
      | exact ⟨h.mpr ⟨hi, hi'⟩, by simp [hpc], by simp [hpc]⟩
      | exact ⟨h.1.mpr hi, by simp [hpc], by simp [hpc]⟩
  | readCount =>
    simp only [hpc] at h
    exact ⟨h.1.mpr hi, by simp [hpc], by simp [hpc]⟩
  | readN count | readRoll =>
    simp only [hpc] at h
    exact ⟨h.1, by simp [hpc], by simp [hpc]⟩
  | decrement | clearRoll | setLoser =>
    simp only [hpc] at h
    exact absurd h.2 hi'
  | _ => simp only [hpc] at h

theorem Eliminating.alive_iff (he : Eliminating s t) (hsame : top s = remaining s) (i : Fin N) :
    (t.locals i).Alive ↔ i ∈ remaining s := by
  refine ⟨(he.players i).mem_of_alive, fun hi => (he.players i).alive hi ?_⟩
  simp [expected, hsame]

theorem Eliminating.of_check (he : Eliminating s t) (ht : Inv t) {i : Fin N} {count : ℤ}
    (hpc : (t.locals i).pc = .readN count) (hc : count ≠ t.shared.state.n) :
    top s ≠ remaining s := by
  intro hsame
  have hi := he.players i
  simp only [EliminationOk, hpc] at hi
  have hn : t.shared.state.n = (remaining s).card := by
    rw [ht.n, tally]
    simp [he.alive_iff hsame]
  rw [hi.2.2.2, hn, hsame] at hc
  exact hc rfl

theorem Eliminating.of_escape (he : Eliminating s t) (ht : Inv t)
    (hcond : top s = remaining s ∨ 2 * (top s).card ≤ (remaining s).card) {i : Fin N} {count : ℤ}
    (hpc : (t.locals i).pc = .readN count) (hc : count = t.shared.state.n) : i ∉ expected s := by
  intro hexp
  have htop := expected_subset s hexp
  have hne : top s ≠ remaining s := by
    intro hsame
    simp [expected, hsame] at hexp
  have hi := he.players i
  simp only [EliminationOk, hpc] at hi
  have halive : (t.locals i).Alive := ⟨hi.1, by simp [hpc], by simp [hpc]⟩
  -- the player itself and everybody below the maximum are still counted in `n`
  have hsub : insert i (remaining s \ top s) ⊆
      Finset.univ.filter fun j => (t.locals j).Alive := by
    intro j hj
    simp only [Finset.mem_filter, Finset.mem_univ, true_and]
    rcases Finset.mem_insert.mp hj with rfl | hj
    · exact halive
    · obtain ⟨hjr, hjt⟩ := Finset.mem_sdiff.mp hj
      exact (he.players j).alive hjr fun hje => hjt (expected_subset s hje)
  have hcard := Finset.card_le_card hsub
  rw [Finset.card_insert_of_notMem (by simp [htop]),
    Finset.card_sdiff_of_subset (top_subset s)] at hcard
  have hn := ht.n
  rw [tally] at hn
  have htwice := hcond.resolve_left hne
  omega

theorem Eliminating.player_move (he : Eliminating s t) (ht : Inv t)
    (hgen : s.shared.barrier.generation % 4 = 2)
    (hcond : top s = remaining s ∨ 2 * (top s).card ≤ (remaining s).card) {i : Fin N}
    {g' : Game N} {p' : Player} (hm : Move i t.shared (t.locals i) g' p') :
    EliminationOk s g'.state i p' := by
  have hi := he.players i
  unfold EliminationOk at hi
  cases hm with
  | leave stop gen hpc hlt =>
    cases stop <;> simp only [hpc] at hi
    case maximum => exact hi
    case eliminated =>
      have hp := ht.players i
      have hphase := phase ht i
      have := he.generation
      simp only [PlayerOk, hpc, Pc.offset] at hp hphase
      omega
  | arrive stop serial hpc =>
    cases stop <;> simp only [hpc] at hi
    exact hi
  | skip hpc hl =>
    simp only [hpc, hl, Bool.true_eq_false, false_iff] at hi
    simp [EliminationOk, Player.goto, hl, hi.1]
  | readCount hpc hl =>
    simp only [hpc] at hi
    exact ⟨hl, hi.1.mp hl, hi.2, he.count⟩
  | check c hpc hc =>
    simp only [hpc] at hi
    exact ⟨hi.1, hi.2.1, hi.2.2.1, he.of_check ht hpc hc⟩
  | escape c hpc hc =>
    simp only [hpc] at hi
    simp [EliminationOk, Player.goto, hi.1, hi.2.1, he.of_escape ht hcond hpc hc]
  | lose hpc hr =>
    simp only [hpc] at hi
    rw [hi.2.2.1, he.currentMax] at hr
    refine ⟨hi.1, ?_⟩
    rw [expected, if_neg hi.2.2.2]
    exact Finset.mem_filter.mpr ⟨hi.2.1, hr⟩
  | survive hpc hr =>
    simp only [hpc] at hi
    rw [hi.2.2.1, he.currentMax] at hr
    have hexp : i ∉ expected s := fun hexp =>
      hr (Finset.mem_filter.mp (expected_subset s hexp)).2
    simp [EliminationOk, Player.goto, hi.1, hi.2.1, hexp]
  | decrement hpc | clearRoll hpc =>
    simp only [hpc] at hi
    exact hi
  | setLoser hpc =>
    simp only [hpc] at hi
    simp [EliminationOk, hi.2]
  | _ => simp only [*] at hi

theorem Eliminating.other_move (he : Eliminating s t) {i j : Fin N} (hji : j ≠ i) {g' : Game N}
    {p' : Player} (hm : Move i t.shared (t.locals i) g' p') :
    EliminationOk s g'.state j (t.locals j) := by
  have hi := he.players i
  have hj := he.players j
  unfold EliminationOk at hi
  cases hm with
  | roll _ hpc | resetMax hpc | compute _ hpc => simp only [hpc] at hi
  | clearRoll hpc =>
    unfold EliminationOk at hj ⊢
    simpa only [Function.update_of_ne hji] using hj
  | _ => exact hj

theorem Eliminating.state_move (he : Eliminating s t) {i : Fin N} {g' : Game N}
    {p' : Player} (hm : Move i t.shared (t.locals i) g' p') :
    g'.state.currentMax = maxRoll s ∧ g'.state.currentMaxCount = (top s).card := by
  have hi := he.players i
  unfold EliminationOk at hi
  cases hm with
  | resetMax hpc | compute _ hpc => simp only [hpc] at hi
  | _ => exact ⟨he.currentMax, he.count⟩

def Settled (s t : State N) : Prop :=
  ∀ j, (t.locals j).loser = false ↔ j ∈ remaining s ∧ j ∉ expected s

theorem Settled.eliminated_eq (h : Settled s t) : eliminated s t = expected s := by
  ext j
  have hsub : j ∈ expected s → j ∈ remaining s := fun hj =>
    top_subset s (expected_subset s hj)
  have hj := h j
  rw [← Bool.not_eq_true] at hj
  simp only [eliminated, Finset.mem_filter, Finset.mem_univ, true_and, ← mem_remaining]
  tauto

inductive RoundInv (s t : State N) : Prop
  | eliminating (h : Eliminating s t)
  | settled (hgen : t.shared.barrier.generation = s.shared.barrier.generation + 1)
      (h : Settled s t)
  | past (hgen : s.shared.barrier.generation + 1 < t.shared.barrier.generation)

theorem loser_move {i : Fin N} {g g' : Game N} {p p' : Player} (hm : Move i g p g' p') :
    p'.loser = p.loser ∨ p.pc = .setLoser := by
  cases hm with
  | leave stop gen hpc hlt => cases stop <;> exact .inl rfl
  | setLoser hpc => exact .inr hpc
  | _ => exact .inl rfl

theorem Eliminating.step [NeZero N] (he : Eliminating s t) (h : Inv s) (hs : EliminationStart s)
    (ht : Inv t) (hcond : top s = remaining s ∨ 2 * (top s).card ≤ (remaining s).card)
    {i : Fin N} {g' : Game N} {p' : Player} (hm : Move i t.shared (t.locals i) g' p') :
    RoundInv s ⟨g', Function.update t.locals i p'⟩ := by
  have hphase : s.shared.barrier.generation % 4 = 2 := by
    have := (hs.player h 0).1
    omega
  have hplayers : ∀ j, EliminationOk s g'.state j (Function.update t.locals i p' j) := by
    intro j
    by_cases hji : j = i
    · subst hji
      rw [Function.update_self]
      exact he.player_move ht hphase hcond hm
    · rw [Function.update_of_ne hji]
      exact he.other_move hji hm
  by_cases hgen : g'.barrier.generation = t.shared.barrier.generation
  · obtain ⟨hmax, hcount⟩ := he.state_move hm
    exact .eliminating ⟨hgen.trans he.generation, hmax, hcount, hplayers⟩
  · cases hm with
    | arrive stop serial hpc =>
      obtain ⟨hnext, -, hall⟩ := arrive_completes ht serial hpc hgen
      have hi := he.players i
      simp only [EliminationOk, hpc] at hi
      cases stop <;> simp only at hi
      refine .settled (hnext.trans (by rw [he.generation])) fun j => ?_
      obtain ⟨gen, hj⟩ := hall j
      have hok := hplayers j
      simp only [EliminationOk, hj] at hok
      exact hok
    | _ => exact absurd rfl hgen

theorem RoundInv.step [NeZero N] {a : Action N} {u : State N} (hr : RoundInv s t) (h : Inv s)
    (hs : EliminationStart s) (ht : Inv t)
    (hcond : top s = remaining s ∨ 2 * (top s).card ≤ (remaining s).card)
    (hu : step t a = some u) : RoundInv s u := by
  obtain ⟨g', p', hm, rfl⟩ := step_move hu
  have hphase := (hs.player h 0).1
  have hmono : g'.barrier.generation = t.shared.barrier.generation ∨
      g'.barrier.generation = t.shared.barrier.generation + 1 := by
    by_cases hgen : g'.barrier.generation = t.shared.barrier.generation
    · exact .inl hgen
    · cases hm with
      | arrive stop serial hpc => exact .inr (arrive_completes ht serial hpc hgen).1
      | _ => exact absurd rfl hgen
  cases hr with
  | eliminating he => exact he.step h hs ht hcond hm
  | past hgen =>
    refine .past ?_
    change _ < g'.barrier.generation
    omega
  | settled hgen hset =>
    rcases hmono with hsame | hnext
    · refine .settled (hsame.trans hgen) fun j => ?_
      by_cases hji : j = a.player
      · subst hji
        simp only [Function.update_self]
        rcases loser_move hm with hl | hpc
        · rw [hl]
          exact hset _
        · have harr := move_arrivals ht hm
          simp only [hpc, Pc.offset] at harr
          omega
      · simp only [Function.update_of_ne hji]
        exact hset j
    · refine .past ?_
      change _ < g'.barrier.generation
      omega

theorem RoundInv.start [NeZero N] (h : Inv s) (hs : EliminationStart s) : RoundInv s s := by
  refine .eliminating ⟨rfl, hs.currentMax_eq h, hs.count_eq h, fun i => ?_⟩
  obtain ⟨gen, hpc, -⟩ := hs i
  simp [EliminationOk, hpc, mem_remaining]

theorem reachable_roundInv [NeZero N] (h : Inv s) (hs : EliminationStart s)
    (hcond : top s = remaining s ∨ 2 * (top s).card ≤ (remaining s).card)
    (hr : Reachable step s t) : RoundInv s t := by
  have hboth : Inv t ∧ RoundInv s t := by
    apply Reachable.invariant (fun t => Inv t ∧ RoundInv s t) hr ⟨h, .start h hs⟩
    rintro t a u ⟨ht, hr⟩ hu
    exact ⟨inv_step ht hu, hr.step h hs ht hcond hu⟩
  exact hboth.2

end Round

end PsOs.DiceGame
