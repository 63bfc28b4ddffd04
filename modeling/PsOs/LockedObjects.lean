import PsOs.Threads
import PsOs.TransitionSystems

/-!
Objects whose operations run under one mutex, step by step: whatever the interleaving of the
threads, the operations have the results of a sequential run in the order of their sections.
-/

namespace PsOs.LockedObjects

open Threads TransitionSystems

variable {ι M P X Op R A : Type}

/-- The last step of an operation ends it with a result. -/
structure Code (M P X Op R : Type) where
  start : Op → P
  step : M → P → X → Option (M × (P ⊕ R))

inductive Client (P Op R : Type) where
  | idle
  | waiting (op : Op)
  | inside (op : Op) (pc : P)
  | leaving (op : Op) (result : R)

structure Thread (P Op R : Type) where
  client : Client P Op R
  returned : List (Op × R)

structure Object (ι M Op R : Type) where
  memory : M
  mutex : Option ι
  -- the operations in the order of their last steps; no step reads them
  history : List (ι × Op × R)

abbrev State (ι M P Op R : Type) := Config ι (Object ι M Op R) (Thread P Op R)

def init (ι P Op R : Type) (memory : M) : State ι M P Op R where
  shared := ⟨memory, none, []⟩
  locals := fun _ => ⟨.idle, []⟩

inductive Turn (X Op : Type) where
  | call (op : Op)
  | lock
  | work (x : X)
  | unlock

def finish (i : ι) (o : Object ι M Op R) (l : Thread P Op R) (op : Op) :
    M × (P ⊕ R) → Object ι M Op R × Thread P Op R
  | (memory, .inl pc) => ({ o with memory }, { l with client := .inside op pc })
  | (memory, .inr result) =>
    ({ o with memory, history := o.history ++ [(i, op, result)] },
      { l with client := .leaving op result })

def stepThread (code : Code M P X Op R) (i : ι) (turn : Turn X Op) (o : Object ι M Op R)
    (l : Thread P Op R) : Option (Object ι M Op R × Thread P Op R) :=
  match turn, l.client with
  | .call op, .idle => some (o, { l with client := .waiting op })
  | .lock, .waiting op => (acquire o.mutex i).map fun mutex =>
      ({ o with mutex }, { l with client := .inside op (code.start op) })
  | .work x, .inside op pc => (code.step o.memory pc x).map (finish i o l op)
  | .unlock, .leaving op result =>
    some ({ o with mutex := none }, ⟨.idle, l.returned ++ [(op, result)]⟩)
  | _, _ => none

def step [DecidableEq ι] (code : Code M P X Op R) (s : State ι M P Op R) (a : ι × Turn X Op) :
    Option (State ι M P Op R) :=
  s.move a.1 (stepThread code a.1 a.2 s.shared (s.locals a.1))

inductive Move (code : Code M P X Op R) (i : ι) (o : Object ι M Op R) (l : Thread P Op R) :
    Object ι M Op R → Thread P Op R → Prop
  | call (op : Op) (hl : l.client = .idle) : Move code i o l o { l with client := .waiting op }
  | lock (op : Op) (hl : l.client = .waiting op) (hfree : o.mutex = none) :
      Move code i o l { o with mutex := some i } { l with client := .inside op (code.start op) }
  | goto (op : Op) (pc : P) (x : X) (memory : M) (next : P) (hl : l.client = .inside op pc)
      (hstep : code.step o.memory pc x = some (memory, .inl next)) :
      Move code i o l { o with memory } { l with client := .inside op next }
  | result (op : Op) (pc : P) (x : X) (memory : M) (r : R) (hl : l.client = .inside op pc)
      (hstep : code.step o.memory pc x = some (memory, .inr r)) :
      Move code i o l { o with memory, history := o.history ++ [(i, op, r)] }
        { l with client := .leaving op r }
  | unlock (op : Op) (r : R) (hl : l.client = .leaving op r) :
      Move code i o l { o with mutex := none } ⟨.idle, l.returned ++ [(op, r)]⟩

theorem move_of_stepThread {code : Code M P X Op R} {i : ι} {turn : Turn X Op}
    {o o' : Object ι M Op R} {l l' : Thread P Op R}
    (h : stepThread code i turn o l = some (o', l')) : Move code i o l o' l' := by
  unfold stepThread at h
  split at h
  · cases h
    exact .call _ ‹_›
  · obtain ⟨m, hm, heq⟩ := Option.map_eq_some_iff.mp h
    obtain ⟨hfree, rfl⟩ := acquire_eq_some.mp hm
    cases heq
    exact .lock _ ‹_› hfree
  · obtain ⟨⟨memory, next⟩, hstep, heq⟩ := Option.map_eq_some_iff.mp h
    cases next with
    | inl pc =>
      cases heq
      exact .goto _ _ _ _ _ ‹_› hstep
    | inr r =>
      cases heq
      exact .result _ _ _ _ _ ‹_› hstep
  · cases h
    exact .unlock _ _ ‹_›
  · cases h

theorem step_cases [DecidableEq ι] {code : Code M P X Op R} {s t : State ι M P Op R}
    {a : ι × Turn X Op} (h : step code s a = some t) :
    ∃ o l, Move code a.1 s.shared (s.locals a.1) o l ∧ t = ⟨o, Function.update s.locals a.1 l⟩ := by
  obtain ⟨o, l, hstep, rfl⟩ := Config.move_eq_some.mp h
  exact ⟨o, l, move_of_stepThread hstep, rfl⟩

def Thread.Busy (l : Thread P Op R) : Prop :=
  match l.client with
  | .inside _ _ | .leaving _ _ => True
  | _ => False

def Thread.completed (l : Thread P Op R) : List (Op × R) :=
  match l.client with
  | .leaving op r => l.returned ++ [(op, r)]
  | _ => l.returned

inductive Legal (apply : Op → A → A × R) (a₀ : A) : List (ι × Op × R) → A → Prop
  | nil : Legal apply a₀ [] a₀
  | snoc {history : List (ι × Op × R)} {a : A} (h : Legal apply a₀ history a) (i : ι) (op : Op) :
      Legal apply a₀ (history ++ [(i, op, (apply op a).2)]) (apply op a).1

/-- An operation that runs alone takes `Rep` to `Rep` as `apply` says; `Mid` holds in between. -/
structure Implements (code : Code M P X Op R) (apply : Op → A → A × R) (Rep : M → A → Prop)
    (Mid : A → Op → P → M → Prop) (rank : P → ℕ) : Prop where
  start : ∀ {m a} op, Rep m a → Mid a op (code.start op) m
  goto : ∀ {a op pc m x m' next}, Mid a op pc m → code.step m pc x = some (m', .inl next) →
    Mid a op next m'
  result : ∀ {a op pc m x m' r}, Mid a op pc m → code.step m pc x = some (m', .inr r) →
    Rep m' (apply op a).1 ∧ r = (apply op a).2
  enabled : ∀ {a op pc m}, Mid a op pc m → ∃ x m' next, code.step m pc x = some (m', next)
  rank_lt : ∀ {m pc x m' next}, code.step m pc x = some (m', .inl next) → rank next < rank pc

section Sequential

variable {code : Code M P X Op R} {apply : Op → A → A × R} {Rep : M → A → Prop}
  {Mid : A → Op → P → M → Prop} {rank : P → ℕ} {a a₀ : A} {m m' : M} {r : R}

inductive Executes (code : Code M P X Op R) (r : R) (m' : M) : M → P → Prop
  | result {m : M} {pc : P} (x : X) (h : code.step m pc x = some (m', .inr r)) :
      Executes code r m' m pc
  | goto {m m₁ : M} {pc next : P} (x : X) (h : code.step m pc x = some (m₁, .inl next))
      (hrest : Executes code r m' m₁ next) : Executes code r m' m pc

inductive Replays (code : Code M P X Op R) (m₀ : M) : List (ι × Op × R) → M → Prop
  | nil : Replays code m₀ [] m₀
  | snoc {history : List (ι × Op × R)} {m m' : M} (i : ι) (op : Op) (r : R)
      (h : Replays code m₀ history m) (hexec : Executes code r m' m (code.start op)) :
      Replays code m₀ (history ++ [(i, op, r)]) m'

theorem Legal.eq_of_nil {apply : Op → A → A × R} (h : Legal apply a₀ ([] : List (ι × Op × R)) a) :
    a = a₀ := by
  generalize hnil : ([] : List (ι × Op × R)) = history at h
  cases h with
  | nil => rfl
  | snoc => simp at hnil

theorem Legal.of_snoc {apply : Op → A → A × R} {history : List (ι × Op × R)} {i : ι} {op : Op}
    (h : Legal apply a₀ (history ++ [(i, op, r)]) a) :
    ∃ a₁, Legal apply a₀ history a₁ ∧ a = (apply op a₁).1 ∧ r = (apply op a₁).2 := by
  generalize hsnoc : history ++ [(i, op, r)] = history' at h
  cases h with
  | nil => simp at hsnoc
  | snoc h j op' =>
    obtain ⟨rfl, heq⟩ := List.append_inj' hsnoc rfl
    cases heq
    exact ⟨_, h, rfl, rfl⟩

namespace Implements

theorem executes (himp : Implements code apply Rep Mid rank) {op : Op} {pc : P}
    (h : Executes code r m' m pc) (hmid : Mid a op pc m) :
    Rep m' (apply op a).1 ∧ r = (apply op a).2 := by
  induction h with
  | result x h => exact himp.result hmid h
  | goto x h _ ih => exact ih (himp.goto hmid h)

theorem exists_executes (himp : Implements code apply Rep Mid rank) {op : Op} {pc : P}
    (hmid : Mid a op pc m) : ∃ m', Executes code (apply op a).2 m' m pc := by
  induction hk : rank pc using Nat.strongRecOn generalizing m pc with
  | ind k ih =>
    obtain ⟨x, m₁, next, hstep⟩ := himp.enabled hmid
    cases next with
    | inl next =>
      obtain ⟨m', hrest⟩ := ih _ (hk ▸ himp.rank_lt hstep) (himp.goto hmid hstep) rfl
      exact ⟨m', .goto x hstep hrest⟩
    | inr r =>
      obtain ⟨-, rfl⟩ := himp.result hmid hstep
      exact ⟨m₁, .result x hstep⟩

theorem replays {history : List (ι × Op × R)} (himp : Implements code apply Rep Mid rank)
    (hrep : Rep m a₀) (hlegal : Legal apply a₀ history a) (h : Replays code m history m') :
    Rep m' a := by
  induction h generalizing a with
  | nil => rwa [hlegal.eq_of_nil]
  | snoc i op r _ hexec ih =>
    obtain ⟨a₁, hbefore, rfl, rfl⟩ := hlegal.of_snoc
    exact (himp.executes hexec (himp.start op (ih hbefore))).1

theorem exists_replays {history : List (ι × Op × R)} (himp : Implements code apply Rep Mid rank)
    (hrep : Rep m a₀) (hlegal : Legal apply a₀ history a) : ∃ m', Replays code m history m' := by
  induction hlegal with
  | nil => exact ⟨m, .nil⟩
  | @snoc history a hlegal i op ih =>
    obtain ⟨m₁, h₁⟩ := ih
    obtain ⟨m', hexec⟩ := himp.exists_executes (himp.start op (himp.replays hrep hlegal h₁))
    exact ⟨m', h₁.snoc i op _ hexec⟩

end Implements

end Sequential

section Linearizability

variable {code : Code M P X Op R} {apply : Op → A → A × R} {Rep : M → A → Prop}
  {Mid : A → Op → P → M → Prop} {rank : P → ℕ} {a₀ : A} {s t : State ι M P Op R}

structure Inv (apply : Op → A → A × R) (Rep : M → A → Prop) (Mid : A → Op → P → M → Prop) (a₀ : A)
    (s : State ι M P Op R) : Prop where
  guards : Guards s.shared.mutex Thread.Busy s.locals
  held : Held s.shared.mutex Thread.Busy s.locals
  current : ∃ a, Legal apply a₀ s.shared.history a ∧
    (∀ i op pc, (s.locals i).client = .inside op pc → Mid a op pc s.shared.memory) ∧
    ((∀ i op pc, (s.locals i).client ≠ .inside op pc) → Rep s.shared.memory a)

theorem Inv.init {m : M} (h : Rep m a₀) : Inv apply Rep Mid a₀ (init ι P Op R m) where
  guards := fun _ hi => hi.elim
  held := .none
  current := ⟨a₀, .nil, fun _ _ _ hi => (nomatch hi), fun _ => h⟩

theorem Inv.rep (h : Inv apply Rep Mid a₀ s) (hfree : s.shared.mutex = none) :
    ∃ a, Legal apply a₀ s.shared.history a ∧ Rep s.shared.memory a := by
  obtain ⟨a, hlegal, -, hrep⟩ := h.current
  refine ⟨a, hlegal, hrep fun i op pc hi => ?_⟩
  have := h.guards i (by simp [Thread.Busy, hi])
  rw [hfree] at this
  cases this

variable [DecidableEq ι]

theorem forall_inside_update {f : ι → Thread P Op R} {i : ι} {l : Thread P Op R}
    {Q : Op → P → Prop} :
    (∀ j op pc, (Function.update f i l j).client = .inside op pc → Q op pc) ↔
      (∀ op pc, l.client = .inside op pc → Q op pc) ∧
        ∀ j, j ≠ i → ∀ op pc, (f j).client = .inside op pc → Q op pc :=
  Function.forall_update_iff f fun _ (l : Thread P Op R) => ∀ op pc, l.client = .inside op pc → Q op pc

theorem Inv.move {i : ι} {o : Object ι M Op R} {l : Thread P Op R}
    (himp : Implements code apply Rep Mid rank) (h : Inv apply Rep Mid a₀ s)
    (hm : Move code i s.shared (s.locals i) o l) :
    Inv apply Rep Mid a₀ ⟨o, Function.update s.locals i l⟩ := by
  obtain ⟨hguards, hheld, a, hlegal, hmid, hrep⟩ := h
  -- the others are not inside when `i` is
  have halone : ∀ {op pc}, (s.locals i).client = .inside op pc →
      ∀ j, j ≠ i → ∀ op' pc', (s.locals j).client ≠ .inside op' pc' := by
    intro op pc hi j hji op' pc' hj
    exact hji (hguards.exclusive (by simp [Thread.Busy, hj]) (by simp [Thread.Busy, hi]))
  cases hm with
  | call op hl =>
    refine ⟨hguards.stay (by simp [Thread.Busy]), hheld.stay (by simp [Thread.Busy, hl]), a, hlegal,
      forall_inside_update.mpr ⟨by simp, fun j _ => hmid j⟩, fun hno => hrep fun j => ?_⟩
    by_cases hji : j = i
    · subst hji
      simp [hl]
    · exact (forall_inside_update.mp hno).2 j hji
  | lock op hl hfree =>
    have hnone : ∀ j op pc, (s.locals j).client ≠ .inside op pc := by
      intro j op' pc hj
      have := hguards j (by simp [Thread.Busy, hj])
      rw [hfree] at this
      cases this
    rw [hfree] at hguards
    refine ⟨hguards.acquire, .acquire (by simp [Thread.Busy]), a, hlegal,
      forall_inside_update.mpr ⟨?_, fun j _ => hmid j⟩, fun hno => ?_⟩
    · intro op' pc hi
      cases hi
      exact himp.start op (hrep hnone)
    · exact absurd rfl ((forall_inside_update.mp hno).1 op (code.start op))
  | goto op pc x memory next hl hstep =>
    refine ⟨hguards.stay (by simp [Thread.Busy, hl]), hheld.stay (by simp [Thread.Busy]), a, hlegal,
      forall_inside_update.mpr ⟨?_, fun j hji op' pc' hj => absurd hj (halone hl j hji op' pc')⟩,
      fun hno => ?_⟩
    · intro op' pc' hi
      cases hi
      exact himp.goto (hmid i op pc hl) hstep
    · exact absurd rfl ((forall_inside_update.mp hno).1 op next)
  | result op pc x memory r hl hstep =>
    obtain ⟨hrep', rfl⟩ := himp.result (hmid i op pc hl) hstep
    exact ⟨hguards.stay (by simp [Thread.Busy, hl]), hheld.stay (by simp [Thread.Busy]), _,
      hlegal.snoc i op, forall_inside_update.mpr
        ⟨by simp, fun j hji op' pc' hj => absurd hj (halone hl j hji op' pc')⟩, fun _ => hrep'⟩
  | unlock op r hl =>
    refine ⟨hguards.release (by simp [Thread.Busy, hl]) (by simp [Thread.Busy]), .none, a, hlegal,
      forall_inside_update.mpr ⟨by simp, fun j _ => hmid j⟩, fun hno => hrep fun j => ?_⟩
    by_cases hji : j = i
    · subst hji
      simp [hl]
    · exact (forall_inside_update.mp hno).2 j hji

theorem Inv.of_reachable {m : M} (himp : Implements code apply Rep Mid rank) (hm : Rep m a₀)
    (h : Reachable (step code) (LockedObjects.init ι P Op R m) s) : Inv apply Rep Mid a₀ s := by
  apply Reachable.invariant _ h (.init hm)
  intro s a t hs ht
  obtain ⟨o, l, hmove, rfl⟩ := step_cases ht
  exact hs.move himp hmove

theorem completed_of_reachable {m : M} (h : Reachable (step code) (LockedObjects.init ι P Op R m) s)
    (i : ι) : (s.shared.history.filter (·.1 = i)).map Prod.snd = (s.locals i).completed := by
  revert i
  refine Reachable.invariant (fun s : State ι M P Op R => ∀ i,
    (s.shared.history.filter (·.1 = i)).map Prod.snd = (s.locals i).completed) h (fun _ => rfl) ?_
  intro s a t hs ht i
  obtain ⟨o, l, hmove, rfl⟩ := step_cases ht
  have hi := hs i
  by_cases hia : i = a.1
  · subst hia
    cases hmove with
    | call op hl | lock op hl | goto op pc x memory next hl =>
      simpa [Thread.completed, hl] using hi
    | result op pc x memory r hl =>
      simpa [Thread.completed, hl] using hi
    | unlock op r hl => simpa [Thread.completed, hl] using hi
  · have hlocal : Function.update s.locals a.1 l i = s.locals i := Function.update_of_ne hia _ _
    simp only [hlocal]
    cases hmove with
    | result op pc x memory r hl => simpa [Ne.symm hia] using hi
    | _ => exact hi

variable (code) in
theorem unlocks {i : ι} {op : Op} {r : R} (hl : (s.locals i).client = .leaving op r) :
    ∃ t, run (step code) s [(i, .unlock)] = some t ∧ t.shared.mutex = none := by
  have hmove : step code s (i, .unlock) =
      some ⟨{ s.shared with mutex := none }, Function.update s.locals i
        ⟨.idle, (s.locals i).returned ++ [(op, r)]⟩⟩ :=
    Config.move_eq_some.mpr ⟨_, _, by simp only [stepThread, hl], rfl⟩
  exact ⟨_, by rw [run, hmove]; rfl, rfl⟩

theorem Inv.works (himp : Implements code apply Rep Mid rank) (h : Inv apply Rep Mid a₀ s) {i : ι}
    {op : Op} {pc : P} (hl : (s.locals i).client = .inside op pc) :
    ∃ turns : List (Turn X Op), ∃ t,
      run (step code) s (turns.map (i, ·)) = some t ∧ t.shared.mutex = none := by
  induction hk : rank pc using Nat.strongRecOn generalizing s pc with
  | ind k ih =>
    obtain ⟨a, -, hmid, -⟩ := h.current
    obtain ⟨x, memory, next, hstep⟩ := himp.enabled (hmid i op pc hl)
    let done := finish i s.shared (s.locals i) op (memory, next)
    have hfirst : step code s (i, .work x) = some ⟨done.1, Function.update s.locals i done.2⟩ :=
      Config.move_eq_some.mpr ⟨_, _, by simp [stepThread, hl, hstep, done], rfl⟩
    obtain ⟨o, l, hmove, heq⟩ := step_cases hfirst
    have hnext := heq ▸ h.move himp hmove
    cases next with
    | inl next =>
      obtain ⟨turns, t, hrun, ht⟩ := ih _ (hk ▸ himp.rank_lt hstep) hnext
        (by simp [done, finish]) rfl
      exact ⟨.work x :: turns, t, by simpa [run, hfirst] using hrun, ht⟩
    | inr r =>
      let t₁ : State ι M P Op R := ⟨done.1, Function.update s.locals i done.2⟩
      have hl' : (t₁.locals i).client = .leaving op r := by
        simp [t₁, done, finish]
      obtain ⟨t, hrun, ht⟩ := unlocks code hl'
      exact ⟨[.work x, .unlock], t, by simpa [run, hfirst] using hrun, ht⟩

theorem Inv.releases (himp : Implements code apply Rep Mid rank) (h : Inv apply Rep Mid a₀ s)
    {i : ι} (hi : s.shared.mutex = some i) : ∃ turns : List (Turn X Op), ∃ t,
      run (step code) s (turns.map (i, ·)) = some t ∧ t.shared.mutex = none := by
  have hbusy := h.held i hi
  unfold Thread.Busy at hbusy
  split at hbusy
  · exact h.works himp ‹_›
  · obtain ⟨t, ht, hfree⟩ := unlocks code ‹_›
    exact ⟨[.unlock], t, ht, hfree⟩
  · exact hbusy.elim

end Linearizability

end PsOs.LockedObjects
