import Mathlib.Data.List.Induction
import Mathlib.Data.List.Perm.Basic
import Mathlib.Order.Lattice

/-!
Queues that give out the oldest of the entries with the highest priority: what they owe to their
users, and the sorted lists that implement them.
-/

namespace PsOs.PriorityQueues

variable {α β κ : Type}

inductive Event (α κ : Type) where
  | sent (x : α)
  | received (receiver : κ) (x : α)

def sent (events : List (Event α κ)) : List α :=
  events.filterMap fun
    | .sent x => some x
    | .received _ _ => none

def received (events : List (Event α κ)) : List α :=
  events.filterMap fun
    | .sent _ => none
    | .received _ x => some x

def receivedBy [DecidableEq κ] (k : κ) (events : List (Event α κ)) : List α :=
  events.filterMap fun
    | .sent _ => none
    | .received k' x => if k' = k then some x else none

section Events

variable {events : List (Event α κ)} {x : α} {k k' : κ}

@[simp] theorem sent_sent : sent (events ++ [.sent x]) = sent events ++ [x] :=
  List.filterMap_append

@[simp] theorem sent_received : sent (events ++ [.received k x]) = sent events := by
  simp [sent]

@[simp] theorem received_sent : received (events ++ [.sent x]) = received events := by
  simp [received]

@[simp] theorem received_received : received (events ++ [.received k x]) = received events ++ [x] :=
  List.filterMap_append

variable [DecidableEq κ]

@[simp] theorem receivedBy_sent : receivedBy k (events ++ [.sent x]) = receivedBy k events := by
  simp [receivedBy]

@[simp] theorem receivedBy_self :
    receivedBy k (events ++ [.received k x]) = receivedBy k events ++ [x] := by
  simp [receivedBy]

theorem received_of_receivedBy (h : x ∈ receivedBy k events) : x ∈ received events := by
  obtain ⟨event, hmem, heq⟩ := List.mem_filterMap.mp h
  apply List.mem_filterMap.mpr
  refine ⟨event, hmem, ?_⟩
  cases event with
  | sent y => cases heq
  | received k' y =>
    dsimp only at heq ⊢
    split at heq
    · exact heq
    · cases heq

theorem receivedBy_of_ne (h : k' ≠ k) :
    receivedBy k (events ++ [.received k' x]) = receivedBy k events := by
  simp [receivedBy, h]

end Events

variable [LinearOrder β] {prio : α → β} {pending rest queue : List α} {x y : α}

/-- `pending` is in the order of sending. -/
def Takes (prio : α → β) (pending : List α) (x : α) (rest : List α) : Prop :=
  ∃ older newer, pending = older ++ x :: newer ∧ rest = older ++ newer ∧
    (∀ y ∈ older, prio y < prio x) ∧ ∀ y ∈ newer, prio y ≤ prio x

inductive Legal (prio : α → β) : List (Event α κ) → List α → Prop
  | nil : Legal prio [] []
  | sent {events : List (Event α κ)} {pending : List α} (h : Legal prio events pending) (x : α) :
      Legal prio (events ++ [.sent x]) (pending ++ [x])
  | received {events : List (Event α κ)} {pending rest : List α} {x : α}
      (h : Legal prio events pending) (k : κ) (htake : Takes prio pending x rest) :
      Legal prio (events ++ [.received k x]) rest

theorem Takes.perm (h : Takes prio pending x rest) : pending.Perm (x :: rest) := by
  obtain ⟨older, newer, rfl, rfl, -, -⟩ := h
  exact List.perm_middle

theorem Takes.le (h : Takes prio pending x rest) : ∀ y ∈ pending, prio y ≤ prio x := by
  obtain ⟨older, newer, rfl, -, holder, hnewer⟩ := h
  intro y hy
  obtain hy | hy := List.mem_append.mp hy
  · exact le_of_lt (holder y hy)
  · obtain rfl | hy := List.mem_cons.mp hy
    · exact le_refl _
    · exact hnewer y hy

theorem Takes.concat (h : Takes prio pending x rest) (hy : prio y ≤ prio x) :
    Takes prio (pending ++ [y]) x (rest ++ [y]) := by
  obtain ⟨older, newer, rfl, rfl, holder, hnewer⟩ := h
  refine ⟨older, newer ++ [y], by simp, by simp, holder, ?_⟩
  intro z hz
  obtain hz | hz := List.mem_append.mp hz
  · exact hnewer z hz
  · rwa [List.mem_singleton.mp hz]

theorem Legal.perm {events : List (Event α κ)} (h : Legal prio events pending) :
    (PriorityQueues.sent events).Perm (PriorityQueues.received events ++ pending) := by
  induction h with
  | nil => exact List.Perm.refl _
  | sent _ x ih =>
    rw [sent_sent, received_sent, ← List.append_assoc]
    exact ih.append_right [x]
  | received _ k htake ih =>
    rw [sent_received, received_received, List.append_assoc]
    exact ih.trans (htake.perm.append_left _)

section Sorted

variable (prio)

def enqueue (x : α) : List α → List α
  | [] => [x]
  | y :: ys => if prio x ≤ prio y then y :: enqueue x ys else x :: y :: ys

def represent (pending : List α) : List α := pending.foldl (fun queue x => enqueue prio x queue) []

@[simp] theorem represent_concat (pending : List α) (x : α) :
    represent prio (pending ++ [x]) = enqueue prio x (represent prio pending) := by
  rw [represent, represent, List.foldl_concat]

theorem enqueue_perm (x : α) (queue : List α) : (enqueue prio x queue).Perm (x :: queue) := by
  induction queue with
  | nil => exact List.Perm.refl _
  | cons y ys ih =>
    rw [enqueue]
    split
    · exact (ih.cons y).trans (List.Perm.swap x y ys)
    · exact List.Perm.refl _

theorem represent_perm (pending : List α) : (represent prio pending).Perm pending := by
  induction pending using List.reverseRecOn with
  | nil => exact List.Perm.refl _
  | append_singleton pending x ih =>
    rw [represent_concat]
    have hfirst : (x :: pending).Perm (pending ++ [x]) := (List.perm_append_singleton x pending).symm
    exact (enqueue_perm prio x _).trans ((ih.cons x).trans hfirst)

variable {prio}

theorem takes_of_represent (h : represent prio pending = x :: queue) :
    ∃ rest, Takes prio pending x rest ∧ represent prio rest = queue := by
  induction pending using List.reverseRecOn generalizing x queue with
  | nil => cases h
  | append_singleton pending y ih =>
    rw [represent_concat] at h
    cases hq : represent prio pending with
    | nil =>
      have hempty : pending = [] := List.perm_nil.mp (hq ▸ represent_perm prio pending).symm
      rw [hq] at h
      cases h
      exact ⟨[], ⟨[], [], by simp [hempty], rfl, by simp, by simp⟩, rfl⟩
    | cons z zs =>
      rw [hq, enqueue] at h
      obtain ⟨rest, htake, hrest⟩ := ih hq
      split at h
      case isTrue hle =>
        cases h
        exact ⟨rest ++ [y], htake.concat hle, by rw [represent_concat, hrest]⟩
      case isFalse hlt =>
        cases h
        refine ⟨pending, ⟨pending, [], rfl, (List.append_nil _).symm, ?_, by simp⟩, hq⟩
        exact fun w hw => (htake.le w hw).trans_lt (not_le.mp hlt)

end Sorted

end PsOs.PriorityQueues
