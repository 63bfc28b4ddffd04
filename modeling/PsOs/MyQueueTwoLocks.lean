import PsOs.MyQueueLocked

/-!
The queue of `myqueue.h` with its pushes under one mutex and its pops under another one, as
`exercise11` has them: `check_nearby_flowers` pushes under `field_mutex`, the bees pop under
`queue_mutex`.
-/

namespace PsOs.MyQueue.TwoLocks

open LinkedLists LockedObjects TransitionSystems

variable {ι : Type}

/-- `pushing` and `taking` are the operations inside of the two mutexes, each with its thread.
`history` lists the operations in the order in which the list changes; no step reads it. -/
structure Lanes (ι : Type) where
  memory : Memory
  pushing : Option (ι × ℤ × Pc)
  taking : Option (ι × Pc)
  history : List (ι × Op × Option ℤ)

def start (memory : Memory) : Lanes ι := ⟨memory, none, none, []⟩

inductive Action (ι : Type) where
  | push (i : ι) (value : ℤ)
  | take (i : ι)
  | pusher (fresh : ℕ × Node ℤ)
  | taker

def commit (i : ι) (value : ℤ) (m : Memory) : Pc → List (ι × Op × Option ℤ)
  | .link _ => [(i, .push value, none)]
  | .setFirst _ v _ => [(i, .take, some v)]
  | .isEmpty => if m.stqh_first.isNone then [(i, .take, none)] else []
  | _ => []

def going : Pc ⊕ Option ℤ → Option Pc
  | .inl pc => some pc
  | .inr _ => none

def stepPusher (s : Lanes ι) (fresh : ℕ × Node ℤ) : Option (Lanes ι) :=
  s.pushing.bind fun (i, value, pc) => (MyQueue.step s.memory pc fresh).map fun (memory, next) =>
    { s with
      memory
      pushing := (going next).map (i, value, ·)
      history := s.history ++ commit i value s.memory pc }

def stepTaker (s : Lanes ι) : Option (Lanes ι) :=
  s.taking.bind fun (i, pc) => (MyQueue.step s.memory pc (0, ⟨0, none⟩)).map fun (memory, next) =>
    { s with
      memory
      taking := (going next).map (i, ·)
      history := s.history ++ commit i 0 s.memory pc }

def step (s : Lanes ι) : Action ι → Option (Lanes ι)
  | .push i value => if s.pushing.isNone then some { s with pushing := some (i, value, .malloc value) }
      else none
  | .take i => if s.taking.isNone then some { s with taking := some (i, .isEmpty) } else none
  | .pusher fresh => stepPusher s fresh
  | .taker => stepTaker s

def LinkedTwice (m : Memory) : Prop := ((m.stqh_first.bind m.heap).bind Node.next).isSome

instance (m : Memory) : Decidable (LinkedTwice m) := inferInstanceAs (Decidable (_ = true))

def Apart (s : Lanes ι) (a : Action ι) : Prop :=
  match a with
  | .take _ => LinkedTwice s.memory
  | _ => True

def PushOk (m : Memory) (cells : List (ℕ × ℤ)) (up : List ℕ) : Option (ι × ℤ × Pc) → Prop
  | none => up = [] ∧ m.stqh_last = lastLink cells
  | some (_, value, .malloc v) => v = value ∧ up = [] ∧ m.stqh_last = lastLink cells
  | some (_, value, .setValue e v) => v = value ∧ up = [e] ∧ m.stqh_last = lastLink cells
  | some (_, value, .setNext e) =>
    (∃ next, m.heap e = some ⟨value, next⟩) ∧ up = [e] ∧ m.stqh_last = lastLink cells
  | some (_, value, .link e) =>
    m.heap e = some ⟨value, none⟩ ∧ up = [e] ∧ m.stqh_last = lastLink cells
  | some (_, _, .setLast e) => up = [] ∧ lastLink cells = some e
  | some _ => False

def TakeOk (m : Memory) (cells : List (ℕ × ℤ)) (down : List ℕ) : Option (ι × Pc) → Prop
  | none => down = []
  | some (_, .isEmpty) | some (_, .assert) | some (_, .first) => down = [] ∧ 2 ≤ cells.length
  | some (_, .value e) => down = [] ∧ ∃ v rest, cells = (e, v) :: rest ∧ rest ≠ []
  | some (_, .next e v) => down = [] ∧ ∃ rest, cells = (e, v) :: rest ∧ rest ≠ []
  | some (_, .setFirst e v next) => down = [] ∧ next.isSome ∧ m.heap e = some ⟨v, next⟩ ∧
      ∃ rest, cells = (e, v) :: rest ∧ rest ≠ []
  | some (_, .free e _) => down = [e]
  | some _ => False

structure Inv (queue₀ : List ℤ) (s : Lanes ι) (cells : List (ℕ × ℤ)) (up down : List ℕ) :
    Prop where
  chain : Chain s.memory cells (up ++ down)
  push : PushOk s.memory cells up s.pushing
  take : TakeOk s.memory cells down s.taking
  legal : Legal apply queue₀ s.history (contents cells)

section Steps

variable {m m' : Memory} {cells rest : List (ℕ × ℤ)} {up down : List ℕ} {e : ℕ} {v : ℤ}
  {next : Option ℕ} {extra : List ℕ}

theorem two_le_length (h : Chain m cells extra) (htwice : LinkedTwice m) : 2 ≤ cells.length := by
  unfold LinkedTwice at htwice
  cases cells with
  | nil =>
    rw [h.segment.eq_none_iff.mpr rfl] at htwice
    simp at htwice
  | cons c cells =>
    obtain ⟨a, x⟩ := c
    obtain ⟨hfirst, p, hnode, hrest⟩ := h.segment.node
    rw [hfirst, Option.bind_some, hnode, Option.bind_some] at htwice
    have hne : cells ≠ [] := mt hrest.eq_none_iff.mpr (Option.isSome_iff_ne_none.mp htwice)
    have := List.length_pos_of_ne_nil hne
    simp only [List.length_cons]
    omega

theorem next_isSome (h : Chain m ((e, v) :: rest) extra) (hrest : rest ≠ [])
    (he : m.heap e = some ⟨v, next⟩) : next.isSome :=
  Option.isSome_iff_ne_none.mpr (mt (h.setFirst he).segment.eq_none_iff.mp hrest)

theorem first_ne_last (h : Chain m ((e, v) :: rest) extra) (hrest : rest ≠ []) :
    lastLink ((e, v) :: rest) ≠ some e := by
  rw [lastLink_cons_of_ne_nil hrest]
  intro hlast
  have hmem : e ∈ addresses rest := List.mem_of_getLast? hlast
  have hnodup := (List.nodup_append.mp h.nodup).1
  exact (List.nodup_cons.mp hnodup).1 hmem

theorem TakeOk.frame {taking : Option (ι × Pc)} (h : TakeOk m cells down taking)
    (hheap : ∀ e v rest, cells = (e, v) :: rest → m'.heap e = m.heap e) :
    TakeOk m' cells down taking := by
  unfold TakeOk at h ⊢
  split at h
  case h_7 =>
    obtain ⟨hdown, hnext, hnode, rest, hcells, hrest⟩ := h
    exact ⟨hdown, hnext, (hheap _ _ _ hcells).trans hnode, rest, hcells, hrest⟩
  all_goals exact h

theorem TakeOk.append {taking : Option (ι × Pc)} (h : TakeOk m cells down taking)
    (hheap : ∀ e v rest, cells = (e, v) :: rest → rest ≠ [] → m'.heap e = m.heap e)
    (more : List (ℕ × ℤ)) : TakeOk m' (cells ++ more) down taking := by
  unfold TakeOk at h ⊢
  split at h
  case h_2 | h_3 | h_4 => exact ⟨h.1, by rw [List.length_append]; omega⟩
  case h_5 =>
    obtain ⟨hdown, v, rest, rfl, hrest⟩ := h
    exact ⟨hdown, v, rest ++ more, rfl, by simp [hrest]⟩
  case h_6 =>
    obtain ⟨hdown, rest, rfl, hrest⟩ := h
    exact ⟨hdown, rest ++ more, rfl, by simp [hrest]⟩
  case h_7 =>
    obtain ⟨hdown, hnext, hnode, rest, rfl, hrest⟩ := h
    exact ⟨hdown, hnext, (hheap _ _ _ rfl hrest).trans hnode, rest ++ more, rfl, by simp [hrest]⟩
  all_goals exact h

theorem PushOk.frame {cells' : List (ℕ × ℤ)} {pushing : Option (ι × ℤ × Pc)}
    (h : PushOk m cells up pushing) (hheap : ∀ e ∈ up, m'.heap e = m.heap e)
    (hlast : m'.stqh_last = m.stqh_last) (hlink : lastLink cells' = lastLink cells) :
    PushOk m' cells' up pushing := by
  unfold PushOk at h ⊢
  rw [hlast, hlink]
  split at h
  case h_4 =>
    obtain ⟨⟨next, hnode⟩, rfl, hm⟩ := h
    exact ⟨⟨next, (hheap _ (List.mem_singleton_self _)).trans hnode⟩, rfl, hm⟩
  case h_5 =>
    obtain ⟨hnode, rfl, hm⟩ := h
    exact ⟨(hheap _ (List.mem_singleton_self _)).trans hnode, rfl, hm⟩
  all_goals exact h

theorem heap_eq_of_store {change : Node ℤ → Node ℤ} (hm : m.store e change = some m') {a : ℕ}
    (ha : a ≠ e) : m'.heap a = m.heap a := by
  obtain ⟨node, -, rfl⟩ := Option.map_eq_some_iff.mp hm
  exact Function.update_of_ne ha _ _

theorem ne_of_head (h : Chain m cells extra) (he : e ∈ extra) {a : ℕ} (hcells : cells = (a, v) :: rest) :
    a ≠ e := by
  rintro rfl
  exact h.notMem he (by rw [hcells]; simp)

end Steps

section Invariant

variable {queue₀ : List ℤ} {s t : Lanes ι} {cells : List (ℕ × ℤ)} {up down : List ℕ}

theorem Inv.pusher (h : Inv queue₀ s cells up down) {fresh : ℕ × Node ℤ}
    (ht : stepPusher s fresh = some t) : ∃ cells' up', Inv queue₀ t cells' up' down := by
  obtain ⟨⟨i, value, pc⟩, hpushing, ht⟩ := Option.bind_eq_some_iff.mp ht
  obtain ⟨⟨m', next⟩, hstep, rfl⟩ := Option.map_eq_some_iff.mp ht
  obtain ⟨hchain, hpush, htake, hlegal⟩ := h
  rw [hpushing] at hpush
  cases pc with
  | malloc v =>
    obtain ⟨rfl, rfl, hlast⟩ := hpush
    simp only [MyQueue.step] at hstep
    split at hstep
    · cases hstep
      have hfree := Option.isNone_iff_eq_none.mp ‹_›
      refine ⟨cells, [fresh.1], hchain.malloc hfree _, ⟨rfl, rfl, hlast⟩, ?_, by simpa [commit]⟩
      apply htake.frame
      rintro a x rest rfl
      apply Function.update_of_ne
      rintro rfl
      have := (hchain.live fresh.1).mpr (by simp)
      rw [hfree] at this
      cases this
    · cases hstep
  | setValue e v =>
    obtain ⟨rfl, rfl, hlast⟩ := hpush
    obtain ⟨m₁, hm, heq⟩ := Option.map_eq_some_iff.mp hstep
    cases heq
    obtain ⟨node, -, hnode⟩ := store_node hm
    have he : e ∈ [e] ++ down := List.mem_cons_self ..
    refine ⟨cells, [e], hchain.store he hm, ⟨⟨node.next, hnode⟩, rfl, (store_last hm).trans hlast⟩,
      ?_, by simpa [commit]⟩
    apply htake.frame
    intro a x rest hcells
    exact heap_eq_of_store hm (ne_of_head hchain he hcells)
  | setNext e =>
    obtain ⟨⟨next, hentry⟩, rfl, hlast⟩ := hpush
    obtain ⟨m₁, hm, heq⟩ := Option.map_eq_some_iff.mp hstep
    cases heq
    obtain ⟨node, hold, hnode⟩ := store_node hm
    cases hold.symm.trans hentry
    have he : e ∈ [e] ++ down := List.mem_cons_self ..
    refine ⟨cells, [e], hchain.store he hm, ⟨hnode, rfl, (store_last hm).trans hlast⟩, ?_,
      by simpa [commit]⟩
    apply htake.frame
    intro a x rest hcells
    exact heap_eq_of_store hm (ne_of_head hchain he hcells)
  | link e =>
    obtain ⟨hentry, rfl, hlast⟩ := hpush
    obtain ⟨m₁, hm, heq⟩ := Option.map_eq_some_iff.mp hstep
    cases heq
    obtain ⟨hlinked, hheap⟩ := hchain.link hlast hentry hm
    refine ⟨cells ++ [(e, value)], [], hlinked, ⟨rfl, lastLink_snoc ..⟩, ?_, ?_⟩
    · apply htake.append
      rintro a x rest rfl hrest
      exact hheap a (first_ne_last hchain hrest)
    · simpa [commit, apply] using hlegal.snoc i (.push value)
  | setLast e =>
    obtain ⟨rfl, hlast⟩ := hpush
    cases hstep
    refine ⟨cells, [], ⟨hchain.segment, hchain.nodup, hchain.live⟩, ⟨rfl, hlast.symm⟩, ?_,
      by simpa [commit]⟩
    exact htake.frame fun _ _ _ _ => rfl
  | _ => exact hpush.elim

theorem Inv.taker (h : Inv queue₀ s cells up down) (ht : stepTaker s = some t) :
    ∃ cells' down', Inv queue₀ t cells' up down' := by
  obtain ⟨⟨i, pc⟩, htaking, ht⟩ := Option.bind_eq_some_iff.mp ht
  obtain ⟨⟨m', next⟩, hstep, rfl⟩ := Option.map_eq_some_iff.mp ht
  obtain ⟨hchain, hpush, htake, hlegal⟩ := h
  rw [htaking] at htake
  cases pc with
  | isEmpty =>
    obtain ⟨rfl, hlen⟩ := htake
    have hfirst : s.memory.stqh_first.isNone = false := by
      rw [Option.isNone_eq_false_iff, Option.isSome_iff_ne_none]
      rintro hnone
      rw [hchain.segment.eq_none_iff.mp hnone] at hlen
      cases hlen
    simp only [MyQueue.step, hfirst] at hstep
    cases hstep
    exact ⟨cells, [], hchain, hpush, ⟨rfl, hlen⟩, by simpa [commit, hfirst]⟩
  | assert =>
    simp only [MyQueue.step] at hstep
    split at hstep
    · cases hstep
    · cases hstep
      exact ⟨cells, down, hchain, hpush, htake, by simpa [commit]⟩
  | first =>
    obtain ⟨rfl, hlen⟩ := htake
    obtain ⟨entry, hfirst, heq⟩ := Option.map_eq_some_iff.mp hstep
    cases heq
    obtain _ | ⟨⟨e, v⟩, _ | ⟨c, rest⟩⟩ := cells
    · cases hlen
    · simp at hlen
    · obtain ⟨hfirst', -⟩ := hchain.segment.node
      cases hfirst.symm.trans hfirst'
      exact ⟨_, [], hchain, hpush, ⟨rfl, v, c :: rest, rfl, by simp⟩, by simpa [commit]⟩
  | value e =>
    obtain ⟨rfl, v, rest, rfl, hrest⟩ := htake
    obtain ⟨node, hnode, heq⟩ := Option.map_eq_some_iff.mp hstep
    cases heq
    obtain ⟨-, link, hentry, -⟩ := hchain.segment.node
    cases hnode.symm.trans hentry
    exact ⟨_, [], hchain, hpush, ⟨rfl, rest, rfl, hrest⟩, by simpa [commit]⟩
  | next e v =>
    obtain ⟨rfl, rest, rfl, hrest⟩ := htake
    obtain ⟨node, hnode, heq⟩ := Option.map_eq_some_iff.mp hstep
    cases heq
    obtain ⟨hfirst, link, hentry, -⟩ := hchain.segment.node
    rw [hfirst, Option.bind_some] at hnode
    cases hnode.symm.trans hentry
    exact ⟨_, [], hchain, hpush, ⟨rfl, next_isSome hchain hrest hentry, hentry, rest, rfl, hrest⟩,
      by simpa [commit]⟩
  | setFirst e v link =>
    obtain ⟨rfl, hlink, hentry, rest, rfl, hrest⟩ := htake
    obtain ⟨b, rfl⟩ := Option.isSome_iff_exists.mp hlink
    cases hstep
    refine ⟨rest, [e], (hchain.setFirst hentry).perm ?_, ?_, rfl, ?_⟩
    · simpa using (List.perm_append_singleton e up).symm
    · exact hpush.frame (fun _ _ => rfl) rfl (lastLink_cons_of_ne_nil hrest).symm
    · simpa [commit, apply] using hlegal.snoc i .take
  | free e v =>
    cases htake
    obtain ⟨node, -, heq⟩ := Option.map_eq_some_iff.mp hstep
    cases heq
    refine ⟨cells, [], ?_, ?_, rfl, by simpa [commit]⟩
    · rw [List.append_nil]
      exact (hchain.perm (List.perm_append_singleton e up)).free
    · refine hpush.frame (fun a ha => ?_) rfl rfl
      apply Function.update_of_ne
      rintro rfl
      have hnodup := (List.nodup_append.mp hchain.nodup).2.1
      exact List.disjoint_of_nodup_append hnodup ha (List.mem_singleton_self a)
  | _ => exact htake.elim

theorem Inv.step (h : ∃ cells up down, Inv queue₀ s cells up down) {a : Action ι} (ha : Apart s a)
    (ht : step s a = some t) : ∃ cells up down, Inv queue₀ t cells up down := by
  obtain ⟨cells, up, down, h⟩ := h
  cases a with
  | push i value =>
    simp only [TwoLocks.step] at ht
    split at ht
    case isFalse => cases ht
    case isTrue hnone =>
      cases ht
      have hpush := h.push
      rw [Option.isNone_iff_eq_none.mp hnone] at hpush
      exact ⟨cells, up, down, h.chain, ⟨rfl, hpush⟩, h.take, h.legal⟩
  | take i =>
    simp only [TwoLocks.step] at ht
    split at ht
    case isFalse => cases ht
    case isTrue hnone =>
      cases ht
      have htake := h.take
      rw [Option.isNone_iff_eq_none.mp hnone] at htake
      exact ⟨cells, up, down, h.chain, h.push, ⟨htake, two_le_length h.chain ha⟩, h.legal⟩
  | pusher fresh =>
    obtain ⟨cells', up', h'⟩ := h.pusher ht
    exact ⟨cells', up', down, h'⟩
  | taker =>
    obtain ⟨cells', down', h'⟩ := h.taker ht
    exact ⟨cells', up, down', h'⟩

theorem Inv.rep (h : Inv queue₀ s cells up down) (hpushing : s.pushing = none)
    (htaking : s.taking = none) : Rep s.memory (contents cells) := by
  obtain ⟨hchain, hpush, htake, -⟩ := h
  rw [hpushing] at hpush
  rw [htaking] at htake
  obtain ⟨rfl, hlast⟩ := hpush
  cases htake
  exact ⟨cells, ⟨hchain, hlast⟩, rfl⟩

theorem Inv.pusher_enabled (h : Inv queue₀ s cells up down) (hpushing : s.pushing ≠ none) :
    ∃ fresh, (stepPusher s fresh).isSome := by
  obtain ⟨⟨i, value, pc⟩, heq⟩ := Option.ne_none_iff_exists'.mp hpushing
  have hpush := h.push
  rw [heq] at hpush
  have hgo : ∀ fresh {p}, MyQueue.step s.memory pc fresh = some p →
      ∃ fresh, (stepPusher s fresh).isSome := by
    intro fresh p hp
    exact ⟨fresh, by simp [stepPusher, heq, hp]⟩
  cases pc with
  | malloc v =>
    obtain ⟨a, ha⟩ := h.chain.exists_fresh
    exact hgo (a, ⟨0, none⟩) (if_pos (by simp [ha]))
  | setValue e v =>
    obtain ⟨-, rfl, -⟩ := hpush
    obtain ⟨node, hnode⟩ := h.chain.exists_node (List.mem_append_left _ (List.mem_singleton_self e))
    obtain ⟨m', hm⟩ := exists_store hnode fun node => { node with data := v }
    exact hgo (0, ⟨0, none⟩) (by rw [MyQueue.step, hm, Option.map_some])
  | setNext e =>
    obtain ⟨⟨next, hnode⟩, -⟩ := hpush
    obtain ⟨m', hm⟩ := exists_store hnode fun node => { node with next := none }
    exact hgo (0, ⟨0, none⟩) (by rw [MyQueue.step, hm, Option.map_some])
  | link e =>
    obtain ⟨-, -, hlast⟩ := hpush
    obtain ⟨m', hm⟩ := h.chain.exists_storeLast hlast e
    exact hgo (0, ⟨0, none⟩) (by rw [MyQueue.step, hm, Option.map_some])
  | setLast e => exact hgo (0, ⟨0, none⟩) rfl
  | _ => exact hpush.elim

theorem Inv.taker_enabled (h : Inv queue₀ s cells up down) (htaking : s.taking ≠ none) :
    (stepTaker s).isSome := by
  obtain ⟨⟨i, pc⟩, heq⟩ := Option.ne_none_iff_exists'.mp htaking
  have htake := h.take
  rw [heq] at htake
  have hgo : ∀ {p}, MyQueue.step s.memory pc (0, ⟨0, none⟩) = some p → (stepTaker s).isSome := by
    intro p hp
    simp [stepTaker, heq, hp]
  have hfirst : 2 ≤ cells.length → ∃ e, s.memory.stqh_first = some e := by
    intro hlen
    apply Option.ne_none_iff_exists'.mp
    intro hnone
    rw [h.chain.segment.eq_none_iff.mp hnone] at hlen
    cases hlen
  cases pc with
  | isEmpty | setFirst => exact hgo rfl
  | assert =>
    obtain ⟨e, he⟩ := hfirst htake.2
    exact hgo (if_neg (by simp [he]))
  | first =>
    obtain ⟨e, he⟩ := hfirst htake.2
    exact hgo (by rw [MyQueue.step, he, Option.map_some])
  | value e =>
    obtain ⟨-, v, rest, rfl, -⟩ := htake
    obtain ⟨-, link, hentry, -⟩ := h.chain.segment.node
    exact hgo (by rw [MyQueue.step, hentry, Option.map_some])
  | next e v =>
    obtain ⟨-, rest, rfl, -⟩ := htake
    obtain ⟨he, link, hentry, -⟩ := h.chain.segment.node
    exact hgo (by rw [MyQueue.step, he, Option.bind_some, hentry, Option.map_some])
  | free e v =>
    cases htake
    obtain ⟨node, hnode⟩ := h.chain.exists_node (List.mem_append_right _ (List.mem_singleton_self e))
    exact hgo (by rw [MyQueue.step, hnode, Option.map_some])
  | _ => exact htake.elim

end Invariant

theorem Inv.start {m : Memory} {queue : List ℤ} (h : Rep m queue) :
    ∃ cells, Inv queue (TwoLocks.start m : Lanes ι) cells [] [] := by
  obtain ⟨cells, hshape, rfl⟩ := h
  exact ⟨cells, hshape.toChain, ⟨rfl, hshape.last⟩, rfl, .nil⟩

/-- The two mutexes are enough as long as no pop starts on a list with fewer than two entries. -/
theorem linearizable_of_apart {m : Memory} {queue : List ℤ} (hm : Rep m queue) {s : Lanes ι}
    (h : ReachableBy step Apart (start m) s) :
    (∃ queue', Legal apply queue s.history queue' ∧
      (s.pushing = none → s.taking = none → Rep s.memory queue')) ∧
    (s.pushing ≠ none → ∃ fresh, (stepPusher s fresh).isSome) ∧
    (s.taking ≠ none → (stepTaker s).isSome) := by
  obtain ⟨cells₀, hstart⟩ := Inv.start (ι := ι) hm
  obtain ⟨cells, up, down, hinv⟩ := h.invariant
    (fun s => ∃ cells up down, Inv queue s cells up down) ⟨cells₀, [], [], hstart⟩
    fun _ _ _ hs ha ht => Inv.step hs ha ht
  exact ⟨⟨contents cells, hinv.legal, hinv.rep⟩, hinv.pusher_enabled, hinv.taker_enabled⟩

def pair : Memory :=
  ⟨fun a => if a = 0 then some ⟨5, some 1⟩ else if a = 1 then some ⟨6, none⟩ else none, some 0, some 1⟩

theorem rep_pair : Rep pair [5, 6] := by
  refine ⟨[(0, 5), (1, 6)], ⟨⟨.cons rfl (.cons rfl (.nil none)), by decide, fun a => ?_⟩, rfl⟩, rfl⟩
  by_cases h₀ : a = 0
  · simp [pair, h₀]
  · by_cases h₁ : a = 1 <;> simp [pair, h₀, h₁]

instance (s : Lanes ι) (a : Action ι) : Decidable (Apart s a) :=
  match a with
  | .take _ => inferInstanceAs (Decidable (LinkedTwice s.memory))
  | .push _ _ | .pusher _ | .taker => .isTrue trivial

def pushAcrossTake : List (Action Bool) :=
  [.take false, .push true 7] ++ List.replicate 3 .taker ++ List.replicate 4 (.pusher (2, ⟨0, none⟩)) ++
    List.replicate 4 .taker ++ List.replicate 1 (.pusher (2, ⟨0, none⟩))

theorem linearizable_pushAcrossTake : ∃ s : Lanes Bool,
    s.history = [(true, .push 7, none), (false, .take, some 5)] ∧ s.pushing = none ∧ s.taking = none ∧
      ∃ queue, Legal apply [5, 6] s.history queue ∧ Rep s.memory queue := by
  obtain ⟨s, hs, hp⟩ := exists_reachableBy_of_run step (fun s a => decide (Apart s a)) (start pair)
    pushAcrossTake (fun s => decide (s.history = [(true, .push 7, none), (false, .take, some 5)] ∧
      s.pushing = none ∧ s.taking = none)) (by decide +kernel)
  obtain ⟨hhistory, hpushing, htaking⟩ := of_decide_eq_true hp
  have happart : ReachableBy step Apart (start pair) s := hs.mono fun _ _ h => of_decide_eq_true h
  obtain ⟨⟨queue, hlegal, hrep⟩, -⟩ := linearizable_of_apart rep_pair happart
  exact ⟨s, hhistory, hpushing, htaking, queue, hlegal, hrep hpushing htaking⟩

section Race

variable {i j : ι} {v x : ℤ} {t : Lanes ι}

def Action.IsWork : Action ι → Prop
  | .pusher _ | .taker => True
  | _ => False

theorem apart_of_isWork {s : Lanes ι} {a : Action ι} (h : a.IsWork) : Apart s a := by
  cases a with
  | take i => exact h.elim
  | _ => trivial

def race (m : Memory) (i j : ι) (v : ℤ) : Lanes ι :=
  ⟨m, some (i, v, .malloc v), some (j, .isEmpty), []⟩

def pushes (e n : ℕ) : List (Action ι) := List.replicate n (.pusher (e, ⟨0, none⟩))

def pops (n : ℕ) : List (Action ι) := List.replicate n .taker

def single (a : ℕ) (x : ℤ) : Memory :=
  ⟨Function.update (fun _ => none) a (some ⟨x, none⟩), some a, some a⟩

theorem eq_init_of_rep {m : Memory} (h : Rep m []) : m = myqueue_init := by
  have hheap : m.heap = fun _ => none := funext h.heap_eq_none
  obtain ⟨cells, hshape, hnil⟩ := h
  obtain rfl : cells = [] := List.map_eq_nil_iff.mp hnil
  have hfirst := hshape.segment.eq_none_iff.mpr rfl
  have hlast : m.stqh_last = none := hshape.last
  rw [myqueue_init, ← hheap, ← hfirst, hfirst, ← hlast]
  cases m
  simp_all

theorem eq_single_of_rep {m : Memory} (h : Rep m [x]) : ∃ a, m = single a x := by
  obtain ⟨cells, hshape, hcells⟩ := h
  obtain ⟨⟨a, y⟩, rfl, rfl⟩ := List.map_eq_singleton_iff.mp hcells
  refine ⟨a, ?_⟩
  obtain ⟨hfirst, next, hnode, hnil⟩ := hshape.segment.node
  cases hnil
  have hheap : m.heap = Function.update (fun _ => none) a (some ⟨y, none⟩) := by
    funext b
    by_cases hb : b = a
    · rw [hb, hnode, Function.update_self]
    · rw [Function.update_of_ne hb]
      simpa [hb] using hshape.live b
  have hlast : m.stqh_last = some a := hshape.last
  cases m
  simp_all [single]

theorem not_rep {m : Memory} {queue : List ℤ} (hfirst : m.stqh_first = none)
    (hbad : m.stqh_last ≠ none ∨ ∃ a, (m.heap a).isSome) : ¬ Rep m queue := by
  rintro ⟨cells, hshape, -⟩
  obtain rfl := hshape.segment.eq_none_iff.mp hfirst
  rcases hbad with hlast | ⟨a, ha⟩
  · exact hlast hshape.last
  · simpa using (hshape.live a).mp ha

theorem isWork_of_mem {e n k l : ℕ} {a : Action ι}
    (h : a ∈ pushes e n ++ pops k ++ pushes e l ∨ a ∈ pops n ++ pushes e k ++ pops l) : a.IsWork := by
  rcases h with h | h
  all_goals
    simp only [pushes, pops, List.mem_append, List.mem_replicate] at h
    rcases h with (⟨-, rfl⟩ | ⟨-, rfl⟩) | ⟨-, rfl⟩ <;> trivial

theorem race_empty : ∃ t : Lanes ι,
    run step (race myqueue_init i j v) (pushes 0 4 ++ pops 8 ++ pushes 0 1) = some t ∧
      t.pushing = none ∧ t.taking = none ∧ t.memory.stqh_first = none ∧
      t.memory.stqh_last = some 0 :=
  ⟨_, rfl, rfl, rfl, rfl, rfl⟩

theorem reads_link (a : ℕ) : run step (race (single a x) i j v) (pops 5) =
    some { race (single a x) i j v with taking := some (j, .setFirst a x none) } := by
  simp [single, run, race, pops, List.replicate, step, stepTaker, MyQueue.step, going, commit]

theorem pushes_whole (a : ℕ) : ∃ t : Lanes ι,
    run step { race (single a x) i j v with taking := some (j, .setFirst a x none) }
      (pushes (a + 1) 5) = some t ∧ t.pushing = none ∧ t.taking = some (j, .setFirst a x none) ∧
      (t.memory.heap a).isSome ∧ (t.memory.heap (a + 1)).isSome := by
  simp [single, run, race, pushes, List.replicate, step, stepPusher, MyQueue.step, going,
    Memory.store, Memory.storeLast, Function.update_apply]

theorem pops_rest {s : Lanes ι} {a : ℕ} (htaking : s.taking = some (j, .setFirst a x none))
    (ha : (s.memory.heap a).isSome) : ∃ t, run step s (pops 3) = some t ∧ t.pushing = s.pushing ∧
      t.taking = none ∧ t.memory.stqh_first = none ∧
      t.memory.heap = Function.update s.memory.heap a none := by
  obtain ⟨node, hnode⟩ := Option.isSome_iff_exists.mp ha
  simp [run, pops, List.replicate, step, stepTaker, htaking, MyQueue.step, going, hnode]

theorem race_single (a : ℕ) : ∃ t : Lanes ι,
    run step (race (single a x) i j v) (pops 5 ++ pushes (a + 1) 5 ++ pops 3) = some t ∧
      t.pushing = none ∧ t.taking = none ∧ t.memory.stqh_first = none ∧
      (t.memory.heap (a + 1)).isSome := by
  obtain ⟨s, hs, hpushing, htaking, ha, hb⟩ := pushes_whole (i := i) (j := j) (v := v) (x := x) a
  obtain ⟨t, ht, hpushing', htaking', hfirst, hheap⟩ := pops_rest htaking ha
  refine ⟨t, ?_, hpushing'.trans hpushing, htaking', hfirst, ?_⟩
  · rw [run_append, run_append, reads_link, Option.bind_some, hs, Option.bind_some, ht]
  · rwa [hheap, Function.update_of_ne (by omega)]

theorem race_linearizable_iff {m : Memory} {queue : List ℤ} (hm : Rep m queue) (i j : ι) (v : ℤ) :
    (∀ t, ReachableBy step (fun _ a => a.IsWork) (race m i j v) t → t.pushing = none →
      t.taking = none → ∃ queue', Legal apply queue t.history queue' ∧ Rep t.memory queue') ↔
      2 ≤ queue.length := by
  constructor
  · intro hall
    match queue, hm with
    | [], hm =>
      obtain rfl := eq_init_of_rep hm
      obtain ⟨t, hrun, hpushing, htaking, hfirst, hlast⟩ := race_empty (i := i) (j := j) (v := v)
      have hreach := reachableBy_of_run (fun a ha _ => isWork_of_mem (.inl ha)) hrun
      obtain ⟨queue', -, hrep⟩ := hall t hreach hpushing htaking
      exact absurd hrep (not_rep hfirst (.inl (by rw [hlast]; simp)))
    | [x], hm =>
      obtain ⟨a, rfl⟩ := eq_single_of_rep hm
      obtain ⟨t, hrun, hpushing, htaking, hfirst, hlive⟩ :=
        race_single (i := i) (j := j) (v := v) (x := x) a
      have hreach := reachableBy_of_run (fun a ha _ => isWork_of_mem (.inr ha)) hrun
      obtain ⟨queue', -, hrep⟩ := hall t hreach hpushing htaking
      exact absurd hrep (not_rep hfirst (.inr ⟨_, hlive⟩))
    | x :: y :: queue, _ => exact Nat.le_add_left 2 _
  · intro hlen t ht hpushing htaking
    obtain ⟨cells, hshape, rfl⟩ := hm
    have hstart : Inv (contents cells) (race m i j v) cells [] [] := by
      refine ⟨hshape.toChain, ⟨rfl, rfl, hshape.last⟩, ⟨rfl, ?_⟩, .nil⟩
      simpa [contents] using hlen
    obtain ⟨cells', up, down, hinv⟩ := ht.invariant
      (fun s => ∃ cells' up down, Inv (contents cells) s cells' up down) ⟨cells, [], [], hstart⟩
      fun s a t hs ha hst => Inv.step hs (apart_of_isWork ha) hst
    exact ⟨contents cells', hinv.legal, hinv.rep hpushing htaking⟩

theorem race_linearizable_iff_pair :
    (∀ t : Lanes Bool, ReachableBy step (fun _ a => a.IsWork) (race pair false true 7) t →
      t.pushing = none → t.taking = none →
        ∃ queue', Legal apply [5, 6] t.history queue' ∧ Rep t.memory queue') ↔
      2 ≤ [(5 : ℤ), 6].length :=
  race_linearizable_iff rep_pair false true 7

end Race

end PsOs.MyQueue.TwoLocks
