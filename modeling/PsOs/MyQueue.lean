import Mathlib.Data.Fintype.EquivFin
import PsOs.LinkedLists
import PsOs.LockedObjects

/-!
`myqueue.h`, the same file in `exercise06/task2`, `exercise06/task3`, `exercise08/task3` and
`exercise11/task1` to `task3`, with the `STAILQ` macros that it uses: one access to the memory a
step. Allocations succeed.
-/

namespace PsOs.MyQueue

open LinkedLists LockedObjects

/-- The heap holds the live entries. `stqh_last` is the entry whose link it points to, `none` when
it points to `stqh_first`. -/
structure Memory where
  heap : Heap ℤ
  stqh_first : Option ℕ
  stqh_last : Option ℕ

def myqueue_init : Memory := ⟨fun _ => none, none, none⟩

def Memory.store (m : Memory) (entry : ℕ) (change : Node ℤ → Node ℤ) : Option Memory :=
  (m.heap entry).map fun node =>
    { m with heap := Function.update m.heap entry (some (change node)) }

def Memory.storeLast (m : Memory) (entry : ℕ) : Option Memory :=
  match m.stqh_last with
  | none => some { m with stqh_first := some entry }
  | some last => m.store last fun node => { node with next := some entry }

inductive Op where
  | push (value : ℤ)
  -- `if (!myqueue_is_empty(q)) value = myqueue_pop(q);`, as every caller has it
  | take
  deriving DecidableEq

inductive Pc where
  | malloc (value : ℤ)
  | setValue (entry : ℕ) (value : ℤ)
  | setNext (entry : ℕ)
  | link (entry : ℕ)
  | setLast (entry : ℕ)
  -- from here on the accesses of `take`
  | isEmpty
  | assert
  | first
  | value (entry : ℕ)
  | next (entry : ℕ) (value : ℤ)
  | setFirst (entry : ℕ) (value : ℤ) (next : Option ℕ)
  | resetLast (entry : ℕ) (value : ℤ)
  | free (entry : ℕ) (value : ℤ)

/-- `fresh` is what `malloc` would return, with what lies there. There is no step from a failed
assertion, nor for an access to what is not allocated. -/
def step (m : Memory) (pc : Pc) (fresh : ℕ × Node ℤ) : Option (Memory × (Pc ⊕ Option ℤ)) :=
  match pc with
  | .malloc value =>
    if (m.heap fresh.1).isNone then
      some ({ m with heap := Function.update m.heap fresh.1 (some fresh.2) },
        .inl (.setValue fresh.1 value))
    else none
  | .setValue entry value =>
    (m.store entry fun node => { node with data := value }).map (·, .inl (.setNext entry))
  | .setNext entry =>
    (m.store entry fun node => { node with next := none }).map (·, .inl (.link entry))
  | .link entry => (m.storeLast entry).map (·, .inl (.setLast entry))
  | .setLast entry => some ({ m with stqh_last := some entry }, .inr none)
  | .isEmpty => some (m, if m.stqh_first.isNone then .inr none else .inl .assert)
  | .assert => if m.stqh_first.isNone then none else some (m, .inl .first)
  | .first => m.stqh_first.map fun entry => (m, .inl (.value entry))
  | .value entry => (m.heap entry).map fun node => (m, .inl (.next entry node.data))
  | .next entry value =>
    (m.stqh_first.bind m.heap).map fun node => (m, .inl (.setFirst entry value node.next))
  | .setFirst entry value next =>
    some ({ m with stqh_first := next },
      .inl (if next.isNone then .resetLast entry value else .free entry value))
  | .resetLast entry value => some ({ m with stqh_last := none }, .inl (.free entry value))
  | .free entry value => (m.heap entry).map fun _ =>
    ({ m with heap := Function.update m.heap entry none }, .inr (some value))

def code : Code Memory Pc (ℕ × Node ℤ) Op (Option ℤ) where
  start
    | .push value => .malloc value
    | .take => .isEmpty
  step := step

def apply (op : Op) (queue : List ℤ) : List ℤ × Option ℤ :=
  match op with
  | .push value => (queue ++ [value], none)
  | .take => (queue.tail, queue.head?)

def rank : Pc → ℕ
  | .isEmpty => 7
  | .assert => 6
  | .first => 5
  | .malloc _ | .value _ => 4
  | .setValue _ _ | .next _ _ => 3
  | .setNext _ | .setFirst _ _ _ => 2
  | .link _ | .resetLast _ _ => 1
  | .setLast _ | .free _ _ => 0

def lastLink (cells : List (ℕ × ℤ)) : Option ℕ := (addresses cells).getLast?

structure Chain (m : Memory) (cells : List (ℕ × ℤ)) (extra : List ℕ) : Prop where
  segment : Segment m.heap m.stqh_first cells none
  nodup : (addresses cells ++ extra).Nodup
  live : ∀ a, (m.heap a).isSome ↔ a ∈ addresses cells ++ extra

structure Shape (m : Memory) (cells : List (ℕ × ℤ)) (extra : List ℕ) : Prop
    extends Chain m cells extra where
  last : m.stqh_last = lastLink cells

def Rep (m : Memory) (queue : List ℤ) : Prop := ∃ cells, Shape m cells [] ∧ contents cells = queue

theorem rep_myqueue_init : Rep myqueue_init [] := by
  refine ⟨[], ⟨⟨.nil none, List.nodup_nil, ?_⟩, rfl⟩, rfl⟩
  intro a
  simp [myqueue_init, addresses]

theorem Rep.heap_eq_none {m : Memory} (h : Rep m []) (a : ℕ) : m.heap a = none := by
  obtain ⟨cells, hshape, hnil⟩ := h
  have hcells : cells = [] := List.map_eq_nil_iff.mp hnil
  have := hshape.live a
  simpa [hcells, addresses] using this

section Chains

@[simp] theorem addresses_append (cells cells' : List (ℕ × ℤ)) :
    addresses (cells ++ cells') = addresses cells ++ addresses cells' := List.map_append

@[simp] theorem addresses_cons (e : ℕ) (v : ℤ) (cells : List (ℕ × ℤ)) :
    addresses ((e, v) :: cells) = e :: addresses cells := rfl

@[simp] theorem addresses_nil : addresses ([] : List (ℕ × ℤ)) = [] := rfl

@[simp] theorem contents_append (cells cells' : List (ℕ × ℤ)) :
    contents (cells ++ cells') = contents cells ++ contents cells' := List.map_append

@[simp] theorem contents_cons (e : ℕ) (v : ℤ) (cells : List (ℕ × ℤ)) :
    contents ((e, v) :: cells) = v :: contents cells := rfl

@[simp] theorem contents_nil : contents ([] : List (ℕ × ℤ)) = [] := rfl

@[simp] theorem lastLink_snoc (cells : List (ℕ × ℤ)) (e : ℕ) (v : ℤ) :
    lastLink (cells ++ [(e, v)]) = some e := by simp [lastLink]

variable {m m' : Memory} {cells rest : List (ℕ × ℤ)} {extra extra' : List ℕ} {e : ℕ} {v : ℤ}

theorem lastLink_cons_of_ne_nil (hrest : rest ≠ []) :
    lastLink ((e, v) :: rest) = lastLink rest := by
  obtain ⟨c, rest, rfl⟩ := List.exists_cons_of_ne_nil hrest
  simp [lastLink, addresses, List.getLast?_cons_cons]

theorem isSome_update (heap : Heap ℤ) (a e : ℕ) (node : Option (Node ℤ)) :
    (Function.update heap e node a).isSome ↔
      (a = e ∧ node.isSome) ∨ (a ≠ e ∧ (heap a).isSome) := by
  by_cases ha : a = e
  · simp [ha]
  · simp [ha]

theorem store_last {change : Node ℤ → Node ℤ} (hm : m.store e change = some m') :
    m'.stqh_last = m.stqh_last := by
  obtain ⟨node, -, rfl⟩ := Option.map_eq_some_iff.mp hm
  rfl

theorem store_node {change : Node ℤ → Node ℤ} (hm : m.store e change = some m') :
    ∃ node, m.heap e = some node ∧ m'.heap e = some (change node) := by
  obtain ⟨node, hnode, rfl⟩ := Option.map_eq_some_iff.mp hm
  exact ⟨node, hnode, Function.update_self ..⟩

theorem exists_store {node : Node ℤ} (h : m.heap e = some node) (change : Node ℤ → Node ℤ) :
    ∃ m', m.store e change = some m' :=
  ⟨_, by rw [Memory.store, h, Option.map_some]⟩

namespace Chain

theorem perm (h : Chain m cells extra) (hp : extra.Perm extra') : Chain m cells extra' := by
  refine ⟨h.segment, (hp.append_left _).nodup_iff.mp h.nodup, fun a => ?_⟩
  rw [h.live a]
  exact (hp.append_left _).mem_iff

theorem notMem (h : Chain m cells extra) (he : e ∈ extra) : e ∉ addresses cells :=
  fun hmem => List.disjoint_of_nodup_append h.nodup hmem he

theorem exists_node (h : Chain m cells extra) (he : e ∈ extra) : ∃ node, m.heap e = some node :=
  Option.isSome_iff_exists.mp ((h.live e).mpr (List.mem_append_right _ he))

theorem exists_fresh (h : Chain m cells extra) : ∃ a, m.heap a = none := by
  obtain ⟨a, ha⟩ := Infinite.exists_notMem_finset (addresses cells ++ extra).toFinset
  refine ⟨a, ?_⟩
  simpa using (h.live a).not.mpr (by simpa using ha)

theorem malloc (h : Chain m cells extra) (hfree : m.heap e = none) (node : Node ℤ) :
    Chain { m with heap := Function.update m.heap e (some node) } cells (e :: extra) := by
  have he : e ∉ addresses cells ++ extra := by simpa [hfree] using (h.live e).not
  refine ⟨h.segment.frame (mt (List.mem_append_left _) he) _, ?_, fun a => ?_⟩
  · exact List.perm_middle.nodup_iff.mpr (List.nodup_cons.mpr ⟨he, h.nodup⟩)
  · rw [isSome_update, h.live a, List.perm_middle.mem_iff, List.mem_cons]
    by_cases ha : a = e <;> simp [ha]

theorem store (h : Chain m cells extra) (he : e ∈ extra) {change : Node ℤ → Node ℤ}
    (hm : m.store e change = some m') : Chain m' cells extra := by
  obtain ⟨node, hnode, rfl⟩ := Option.map_eq_some_iff.mp hm
  refine ⟨h.segment.frame (h.notMem he) _, h.nodup, fun a => ?_⟩
  rw [isSome_update, h.live a]
  by_cases ha : a = e
  · simp [ha, he]
  · simp [ha]

theorem exists_storeLast (h : Chain m cells extra) (hlast : m.stqh_last = lastLink cells) (e : ℕ) :
    ∃ m', m.storeLast e = some m' := by
  unfold Memory.storeLast
  cases cells using List.reverseRecOn with
  | nil =>
    have hnone : m.stqh_last = none := hlast
    simp [hnone]
  | append_singleton cells c =>
    obtain ⟨b, v⟩ := c
    rw [hlast, lastLink_snoc]
    exact exists_store h.segment.last_node _

theorem link (h : Chain m cells (e :: extra)) (hlast : m.stqh_last = lastLink cells)
    (he : m.heap e = some ⟨v, none⟩) (hm : m.storeLast e = some m') :
    Chain m' (cells ++ [(e, v)]) extra ∧
      ∀ a, lastLink cells ≠ some a → m'.heap a = m.heap a := by
  have hfresh := h.notMem (List.mem_cons_self ..)
  have hnodup : (addresses (cells ++ [(e, v)]) ++ extra).Nodup := by simpa using h.nodup
  have hsingle : ∀ {heap : Heap ℤ}, heap e = some ⟨v, none⟩ → Segment heap (some e) [(e, v)] none :=
    fun hnode => .cons hnode (.nil none)
  unfold Memory.storeLast at hm
  cases cells using List.reverseRecOn with
  | nil =>
    have hnone : m.stqh_last = none := hlast
    rw [hnone] at hm
    cases hm
    exact ⟨⟨hsingle he, hnodup, by simpa using h.live⟩, fun _ _ => rfl⟩
  | append_singleton cells c =>
    obtain ⟨b, x⟩ := c
    rw [hlast, lastLink_snoc] at hm
    obtain ⟨node, hnode, rfl⟩ := Option.map_eq_some_iff.mp hm
    cases hnode.symm.trans h.segment.last_node
    have hbc : b ∉ addresses cells := by
      have := h.nodup
      simp only [addresses_append, addresses_cons, addresses_nil, List.append_assoc] at this
      exact fun hmem => List.disjoint_of_nodup_append this hmem (by simp)
    have heb : e ≠ b := by
      rintro rfl
      simp at hfresh
    obtain ⟨q, hfront, hend⟩ := h.segment.split
    obtain ⟨rfl, -⟩ := hend.node
    refine ⟨⟨?_, hnodup, fun a => ?_⟩, fun a ha => ?_⟩
    · rw [List.append_assoc]
      apply (hfront.frame hbc _).append
      refine .cons (Function.update_self ..) (hsingle ?_)
      rwa [Function.update_of_ne heb]
    · rw [isSome_update, h.live a]
      by_cases ha : a = b <;> simp [ha]
    · rw [lastLink_snoc] at ha
      exact Function.update_of_ne (fun hab => ha (by rw [hab])) _ _

theorem setFirst {next : Option ℕ} (h : Chain m ((e, v) :: rest) extra)
    (he : m.heap e = some ⟨v, next⟩) : Chain { m with stqh_first := next } rest (e :: extra) := by
  obtain ⟨-, q, hnode, hrest⟩ := h.segment.node
  cases he.symm.trans hnode
  refine ⟨hrest, List.perm_middle.nodup_iff.mpr h.nodup, fun a => ?_⟩
  rw [h.live a]
  exact List.perm_middle.symm.mem_iff

theorem free (h : Chain m cells (e :: extra)) :
    Chain { m with heap := Function.update m.heap e none } cells extra := by
  have hnodup := List.nodup_cons.mp (List.perm_middle.nodup_iff.mp h.nodup)
  refine ⟨h.segment.frame (h.notMem (List.mem_cons_self ..)) _, hnodup.2, fun a => ?_⟩
  rw [isSome_update, h.live a, List.perm_middle.mem_iff, List.mem_cons]
  by_cases ha : a = e
  · simpa [ha] using hnodup.1
  · simp [ha]

end Chain

end Chains

end PsOs.MyQueue
