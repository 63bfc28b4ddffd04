import PsOs.MyQueue

/-! The queue of `myqueue.h` with all of its operations under one mutex. -/

namespace PsOs.MyQueue

open LinkedLists LockedObjects TransitionSystems

def Mid (queue : List ℤ) (op : Op) (pc : Pc) (m : Memory) : Prop :=
  match pc with
  | .malloc value => op = .push value ∧ Rep m queue
  | .setValue entry value =>
    op = .push value ∧ ∃ cells, Shape m cells [entry] ∧ contents cells = queue
  | .setNext entry => ∃ value next, op = .push value ∧ m.heap entry = some ⟨value, next⟩ ∧
      ∃ cells, Shape m cells [entry] ∧ contents cells = queue
  | .link entry => ∃ value, op = .push value ∧ m.heap entry = some ⟨value, none⟩ ∧
      ∃ cells, Shape m cells [entry] ∧ contents cells = queue
  | .setLast entry => ∃ value cells, op = .push value ∧ Chain m (cells ++ [(entry, value)]) [] ∧
      contents cells = queue
  | .isEmpty => op = .take ∧ Rep m queue
  | .assert | .first => op = .take ∧ queue ≠ [] ∧ Rep m queue
  | .value entry => op = .take ∧ ∃ value rest, Shape m ((entry, value) :: rest) [] ∧
      value :: contents rest = queue
  | .next entry value => op = .take ∧ ∃ rest, Shape m ((entry, value) :: rest) [] ∧
      value :: contents rest = queue
  | .setFirst entry value next => op = .take ∧ m.heap entry = some ⟨value, next⟩ ∧
      ∃ rest, Shape m ((entry, value) :: rest) [] ∧ value :: contents rest = queue
  | .resetLast entry value => op = .take ∧ queue = [value] ∧
      Shape { m with stqh_last := none } [] [entry]
  | .free entry value => op = .take ∧ ∃ rest, Shape m rest [entry] ∧ value :: contents rest = queue

section Implements

variable {queue : List ℤ} {op : Op} {pc next : Pc} {m m' : Memory} {x : ℕ × Node ℤ}
  {r : Option ℤ}

theorem mid_start (op : Op) (h : Rep m queue) : Mid queue op (code.start op) m := by
  cases op with
  | push value => exact ⟨rfl, h⟩
  | take => exact ⟨rfl, h⟩

theorem Shape.store {cells : List (ℕ × ℤ)} {e : ℕ} {change : Node ℤ → Node ℤ}
    (h : Shape m cells [e]) (hm : m.store e change = some m') : Shape m' cells [e] :=
  ⟨h.toChain.store (List.mem_singleton_self e) hm, (store_last hm).trans h.last⟩

theorem mid_goto (h : Mid queue op pc m) (hstep : step m pc x = some (m', .inl next)) :
    Mid queue op next m' := by
  cases pc with
  | malloc value =>
    obtain ⟨rfl, cells, hshape, hq⟩ := h
    simp only [step] at hstep
    split at hstep
    · cases hstep
      exact ⟨rfl, cells, ⟨hshape.malloc (Option.isNone_iff_eq_none.mp ‹_›) _, hshape.last⟩, hq⟩
    · cases hstep
  | setValue entry value =>
    obtain ⟨rfl, cells, hshape, hq⟩ := h
    obtain ⟨m₁, hm, heq⟩ := Option.map_eq_some_iff.mp hstep
    cases heq
    obtain ⟨node, -, hnode⟩ := store_node hm
    exact ⟨value, node.next, rfl, hnode, cells, hshape.store hm, hq⟩
  | setNext entry =>
    obtain ⟨value, link, rfl, hentry, cells, hshape, hq⟩ := h
    obtain ⟨m₁, hm, heq⟩ := Option.map_eq_some_iff.mp hstep
    cases heq
    obtain ⟨node, hold, hnode⟩ := store_node hm
    cases hold.symm.trans hentry
    exact ⟨value, rfl, hnode, cells, hshape.store hm, hq⟩
  | link entry =>
    obtain ⟨value, rfl, hentry, cells, hshape, hq⟩ := h
    obtain ⟨m₁, hm, heq⟩ := Option.map_eq_some_iff.mp hstep
    cases heq
    exact ⟨value, cells, rfl, (hshape.link hshape.last hentry hm).1, hq⟩
  | setLast entry => cases hstep
  | isEmpty =>
    obtain ⟨rfl, cells, hshape, hq⟩ := h
    simp only [step] at hstep
    split at hstep
    · cases hstep
    · cases hstep
      refine ⟨rfl, ?_, cells, hshape, hq⟩
      rintro rfl
      have := hshape.segment.eq_none_iff.mpr (List.map_eq_nil_iff.mp hq)
      simp [this] at *
  | assert =>
    simp only [step] at hstep
    split at hstep
    · cases hstep
    · cases hstep
      exact h
  | first =>
    obtain ⟨rfl, hne, cells, hshape, rfl⟩ := h
    obtain ⟨entry, hfirst, heq⟩ := Option.map_eq_some_iff.mp hstep
    cases heq
    obtain ⟨⟨e, v⟩, rest, rfl⟩ := List.exists_cons_of_ne_nil (mt (congrArg contents) hne)
    obtain ⟨hfirst', -⟩ := hshape.segment.node
    cases hfirst.symm.trans hfirst'
    exact ⟨rfl, v, rest, hshape, rfl⟩
  | value entry =>
    obtain ⟨rfl, v, rest, hshape, hq⟩ := h
    obtain ⟨node, hnode, heq⟩ := Option.map_eq_some_iff.mp hstep
    cases heq
    obtain ⟨-, link, hentry, -⟩ := hshape.segment.node
    cases hnode.symm.trans hentry
    exact ⟨rfl, rest, hshape, hq⟩
  | next entry value =>
    obtain ⟨rfl, rest, hshape, hq⟩ := h
    obtain ⟨node, hnode, heq⟩ := Option.map_eq_some_iff.mp hstep
    cases heq
    obtain ⟨hfirst, link, hentry, -⟩ := hshape.segment.node
    rw [hfirst, Option.bind_some] at hnode
    cases hnode.symm.trans hentry
    exact ⟨rfl, hentry, rest, hshape, hq⟩
  | setFirst entry value link =>
    obtain ⟨rfl, hentry, rest, hshape, hq⟩ := h
    cases hstep
    have hchain := hshape.setFirst hentry
    cases link with
    | none =>
      have hnil := hchain.segment.eq_none_iff.mp rfl
      subst hnil
      exact ⟨rfl, hq.symm, ⟨hchain.segment, hchain.nodup, hchain.live⟩, rfl⟩
    | some b =>
      refine ⟨rfl, rest, ⟨hchain, ?_⟩, hq⟩
      have hne : rest ≠ [] := mt hchain.segment.eq_none_iff.mpr (by simp)
      rw [← lastLink_cons_of_ne_nil hne]
      exact hshape.last
  | resetLast entry value =>
    obtain ⟨rfl, rfl, hshape⟩ := h
    cases hstep
    exact ⟨rfl, [], hshape, rfl⟩
  | free entry value =>
    obtain ⟨node, -, heq⟩ := Option.map_eq_some_iff.mp hstep
    cases heq

theorem mid_result (h : Mid queue op pc m) (hstep : step m pc x = some (m', .inr r)) :
    Rep m' (apply op queue).1 ∧ r = (apply op queue).2 := by
  cases pc with
  | setLast entry =>
    obtain ⟨value, cells, rfl, hchain, rfl⟩ := h
    cases hstep
    exact ⟨⟨_, ⟨⟨hchain.segment, hchain.nodup, hchain.live⟩, (lastLink_snoc ..).symm⟩,
      by simp [apply]⟩, rfl⟩
  | isEmpty =>
    obtain ⟨rfl, cells, hshape, rfl⟩ := h
    simp only [step] at hstep
    split at hstep
    · cases hstep
      have hnil := hshape.segment.eq_none_iff.mp (Option.isNone_iff_eq_none.mp ‹_›)
      subst hnil
      exact ⟨⟨[], hshape, rfl⟩, rfl⟩
    · cases hstep
  | free entry value =>
    obtain ⟨rfl, rest, hshape, rfl⟩ := h
    obtain ⟨node, -, heq⟩ := Option.map_eq_some_iff.mp hstep
    cases heq
    exact ⟨⟨rest, ⟨hshape.free, hshape.last⟩, rfl⟩, rfl⟩
  | malloc value | assert =>
    simp only [step] at hstep
    split at hstep <;> cases hstep
  | resetLast entry value | setFirst entry value link => cases hstep
  | _ =>
    obtain ⟨_, -, heq⟩ := Option.map_eq_some_iff.mp hstep
    cases heq

theorem mid_enabled (h : Mid queue op pc m) : ∃ x m' next, step m pc x = some (m', next) := by
  -- only `malloc` looks at what it is given
  have hany : ∀ {p}, step m pc (0, ⟨0, none⟩) = some p → ∃ x m' next, step m pc x = some (m', next) :=
    fun hp => ⟨_, _, _, hp⟩
  cases pc with
  | malloc value =>
    obtain ⟨-, cells, hshape, -⟩ := h
    obtain ⟨a, ha⟩ := hshape.exists_fresh
    exact ⟨(a, ⟨0, none⟩), _, _, if_pos (by simp [ha])⟩
  | setValue entry value =>
    obtain ⟨-, cells, hshape, -⟩ := h
    obtain ⟨node, hnode⟩ := hshape.exists_node (List.mem_singleton_self _)
    obtain ⟨m', hm⟩ := exists_store hnode fun node => { node with data := value }
    exact hany (by rw [step, hm, Option.map_some])
  | setNext entry =>
    obtain ⟨value, next, -, hnode, -⟩ := h
    obtain ⟨m', hm⟩ := exists_store hnode fun node => { node with next := none }
    exact hany (by rw [step, hm, Option.map_some])
  | link entry =>
    obtain ⟨value, -, -, cells, hshape, -⟩ := h
    obtain ⟨m', hm⟩ := hshape.exists_storeLast hshape.last entry
    exact hany (by rw [step, hm, Option.map_some])
  | assert =>
    obtain ⟨-, hne, cells, hshape, rfl⟩ := h
    have hfirst := mt hshape.segment.eq_none_iff.mp (mt (congrArg contents) hne)
    exact hany (if_neg (by simpa using hfirst))
  | first =>
    obtain ⟨-, hne, cells, hshape, rfl⟩ := h
    have hfirst := mt hshape.segment.eq_none_iff.mp (mt (congrArg contents) hne)
    obtain ⟨entry, hentry⟩ := Option.ne_none_iff_exists'.mp hfirst
    exact hany (by rw [step, hentry, Option.map_some])
  | value entry =>
    obtain ⟨-, v, rest, hshape, -⟩ := h
    obtain ⟨-, link, hentry, -⟩ := hshape.segment.node
    exact hany (by rw [step, hentry, Option.map_some])
  | next entry value =>
    obtain ⟨-, rest, hshape, -⟩ := h
    obtain ⟨hfirst, link, hentry, -⟩ := hshape.segment.node
    exact hany (by rw [step, hfirst, Option.bind_some, hentry, Option.map_some])
  | free entry value =>
    obtain ⟨-, rest, hshape, -⟩ := h
    obtain ⟨node, hnode⟩ := hshape.exists_node (List.mem_singleton_self _)
    exact hany (by rw [step, hnode, Option.map_some])
  | setLast | isEmpty | setFirst | resetLast => exact hany rfl

theorem rank_lt (hstep : step m pc x = some (m', .inl next)) : rank next < rank pc := by
  cases pc with
  | malloc value | assert =>
    simp only [step] at hstep
    split at hstep <;> cases hstep
    simp [rank]
  | isEmpty =>
    simp only [step] at hstep
    split at hstep <;> cases hstep
    simp [rank]
  | setFirst entry value link =>
    cases hstep
    cases link <;> simp [rank]
  | setLast => cases hstep
  | resetLast =>
    cases hstep
    simp [rank]
  | free =>
    obtain ⟨_, -, heq⟩ := Option.map_eq_some_iff.mp hstep
    cases heq
  | _ =>
    obtain ⟨_, -, heq⟩ := Option.map_eq_some_iff.mp hstep
    cases heq
    simp [rank]

theorem implements_queue : Implements code apply Rep Mid rank where
  start op h := mid_start op h
  goto := mid_goto
  result := mid_result
  enabled := mid_enabled
  rank_lt := rank_lt

end Implements

section Runs

variable {ι : Type} {history : List (ι × Op × Option ℤ)} {queue : List ℤ}

def pushed (history : List (ι × Op × Option ℤ)) : List ℤ :=
  history.filterMap fun e =>
    match e.2.1 with
    | .push value => some value
    | .take => none

def taken (history : List (ι × Op × Option ℤ)) : List ℤ := history.filterMap fun e => e.2.2

theorem pushed_eq_of_legal (h : Legal apply [] history queue) :
    pushed history = taken history ++ queue := by
  induction h with
  | nil => rfl
  | @snoc history queue _ i op ih =>
    have hsplit : pushed (history ++ [(i, op, (apply op queue).2)]) =
        pushed history ++ pushed [(i, op, (apply op queue).2)] := List.filterMap_append
    have hsplit' : taken (history ++ [(i, op, (apply op queue).2)]) =
        taken history ++ taken [(i, op, (apply op queue).2)] := List.filterMap_append
    rw [hsplit, hsplit', ih, List.append_assoc, List.append_assoc]
    congr 1
    cases op with
    | push value => rfl
    | take => cases queue <;> simp [pushed, taken, apply]

/-- There are `n` live entries, or up to `slack` more. -/
def Counted (n : ℕ) (m : Memory) (slack : ℕ) : Prop :=
  ∃ entries : List ℕ, entries.Nodup ∧ (∀ a, (m.heap a).isSome ↔ a ∈ entries) ∧
    n ≤ entries.length ∧ entries.length ≤ n + slack

theorem length_addresses (cells : List (ℕ × ℤ)) :
    (addresses cells).length = (contents cells).length := by simp [addresses, contents]

theorem Chain.counted {m : Memory} {cells : List (ℕ × ℤ)} {extra : List ℕ} {n slack : ℕ}
    (h : Chain m cells extra) (hle : n ≤ (contents cells).length + extra.length)
    (hge : (contents cells).length + extra.length ≤ n + slack) : Counted n m slack := by
  refine ⟨_, h.nodup, h.live, ?_, ?_⟩ <;> rwa [List.length_append, length_addresses]

theorem Rep.counted {m : Memory} (h : Rep m queue) (slack : ℕ) :
    Counted queue.length m slack := by
  obtain ⟨cells, hshape, rfl⟩ := h
  exact hshape.counted (by simp) (by simp)

theorem Mid.counted {op : Op} {pc : Pc} {m : Memory} (h : Mid queue op pc m) :
    Counted queue.length m 1 := by
  cases pc with
  | malloc | isEmpty => exact h.2.counted 1
  | assert | first => exact h.2.2.counted 1
  | setValue =>
    obtain ⟨-, cells, hshape, rfl⟩ := h
    exact hshape.counted (by simp) (by simp)
  | setNext =>
    obtain ⟨_, _, -, -, cells, hshape, rfl⟩ := h
    exact hshape.counted (by simp) (by simp)
  | link =>
    obtain ⟨_, -, -, cells, hshape, rfl⟩ := h
    exact hshape.counted (by simp) (by simp)
  | setLast entry =>
    obtain ⟨value, cells, -, hchain, rfl⟩ := h
    exact hchain.counted (by simp) (by simp)
  | value entry =>
    obtain ⟨-, v, rest, hshape, rfl⟩ := h
    exact hshape.counted (by simp) (by simp)
  | next entry v =>
    obtain ⟨-, rest, hshape, rfl⟩ := h
    exact hshape.counted (by simp) (by simp)
  | setFirst entry v link =>
    obtain ⟨-, -, rest, hshape, rfl⟩ := h
    exact hshape.counted (by simp) (by simp)
  | resetLast entry v =>
    obtain ⟨-, rfl, hshape⟩ := h
    exact ⟨_, hshape.nodup, hshape.live, by simp, by simp⟩
  | free entry v =>
    obtain ⟨-, rest, hshape, rfl⟩ := h
    exact hshape.counted (by simp) (by simp)

variable [DecidableEq ι] {s : State ι Memory Pc Op (Option ℤ)}

theorem inv_of_reachable
    (h : Reachable (LockedObjects.step code) (init ι Pc Op (Option ℤ) myqueue_init) s) :
    Inv apply Rep Mid [] s :=
  .of_reachable implements_queue rep_myqueue_init h

theorem linearizable_of_locked
    (h : Reachable (LockedObjects.step code) (init ι Pc Op (Option ℤ) myqueue_init) s) :
    (∃ queue, Legal apply [] s.shared.history queue ∧
      pushed s.shared.history = taken s.shared.history ++ queue ∧
      (s.shared.mutex = none → Rep s.shared.memory queue)) ∧
    (∀ i, (s.shared.history.filter (·.1 = i)).map Prod.snd = (s.locals i).completed) ∧
    ∀ i, s.shared.mutex = some i → ∃ turns : List (Turn (ℕ × Node ℤ) Op), ∃ t,
      run (LockedObjects.step code) s (turns.map (i, ·)) = some t ∧ t.shared.mutex = none := by
  have hinv := inv_of_reachable h
  refine ⟨?_, completed_of_reachable h, fun i hi => hinv.releases implements_queue hi⟩
  cases hm : s.shared.mutex with
  | none =>
    obtain ⟨queue, hlegal, hrep⟩ := hinv.rep hm
    exact ⟨queue, hlegal, pushed_eq_of_legal hlegal, fun _ => hrep⟩
  | some i =>
    obtain ⟨queue, hlegal, -⟩ := hinv.current
    exact ⟨queue, hlegal, pushed_eq_of_legal hlegal, fun hfree => nomatch hfree⟩

theorem counted_of_reachable
    (h : Reachable (LockedObjects.step code) (init ι Pc Op (Option ℤ) myqueue_init) s) :
    Counted ((pushed s.shared.history).length - (taken s.shared.history).length) s.shared.memory
      s.shared.mutex.isSome.toNat := by
  have hinv := inv_of_reachable h
  have hlength : ∀ {queue}, Legal apply [] s.shared.history queue →
      (pushed s.shared.history).length - (taken s.shared.history).length = queue.length := by
    intro queue hlegal
    rw [pushed_eq_of_legal hlegal, List.length_append, Nat.add_sub_cancel_left]
  cases hm : s.shared.mutex with
  | none =>
    obtain ⟨queue, hlegal, hrep⟩ := hinv.rep hm
    rw [hlength hlegal]
    exact hrep.counted 0
  | some i =>
    obtain ⟨queue, hlegal, hmid, hrep⟩ := hinv.current
    rw [hlength hlegal]
    by_cases hin : ∃ i op pc, (s.locals i).client = .inside op pc
    · obtain ⟨i, op, pc, hi⟩ := hin
      exact (hmid i op pc hi).counted
    · exact (hrep fun i op pc hi => hin ⟨i, op, pc, hi⟩).counted 1

def pushThenTake : List (Bool × Turn (ℕ × Node ℤ) Op) :=
  let work : Turn (ℕ × Node ℤ) Op := .work (7, ⟨0, none⟩)
  [(false, .call (.push 5)), (false, .lock), (false, work), (true, .call .take)] ++
    List.replicate 4 (false, work) ++ [(false, .unlock), (true, .lock)] ++
    List.replicate 7 (true, work)

theorem exists_pushThenTake : ∃ s : State Bool Memory Pc Op (Option ℤ),
    Reachable (LockedObjects.step code) (init Bool Pc Op (Option ℤ) myqueue_init) s ∧
      s.shared.mutex = some true ∧ pushed s.shared.history = [5] ∧ taken s.shared.history = [] := by
  obtain ⟨s, hs, hp⟩ := exists_reachable_of_run (LockedObjects.step code)
    (init Bool Pc Op (Option ℤ) myqueue_init) pushThenTake
    (fun s => decide (s.shared.mutex = some true ∧ pushed s.shared.history = [5] ∧
      taken s.shared.history = [])) (by decide +kernel)
  exact ⟨s, hs, of_decide_eq_true hp⟩

theorem linearizable_pushThenTake : ∃ s : State Bool Memory Pc Op (Option ℤ),
    s.shared.mutex = some true ∧ (∃ turns : List (Turn (ℕ × Node ℤ) Op), ∃ t,
      run (LockedObjects.step code) s (turns.map (true, ·)) = some t ∧ t.shared.mutex = none) := by
  obtain ⟨s, hs, hmutex, -, -⟩ := exists_pushThenTake
  exact ⟨s, hmutex, (linearizable_of_locked hs).2.2 true hmutex⟩

theorem counted_pushThenTake : ∃ s : State Bool Memory Pc Op (Option ℤ),
    pushed s.shared.history = [5] ∧ taken s.shared.history = [] ∧ Counted 1 s.shared.memory 1 := by
  obtain ⟨s, hs, hmutex, hpushed, htaken⟩ := exists_pushThenTake
  have hcount := counted_of_reachable hs
  rw [hpushed, htaken, hmutex] at hcount
  exact ⟨s, hpushed, htaken, hcount⟩

end Runs

end PsOs.MyQueue
