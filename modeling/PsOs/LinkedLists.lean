import Mathlib.Data.Finset.Card
import Mathlib.Data.Finset.Range

/-! Singly linked lists in a heap whose addresses are natural numbers. -/

namespace PsOs.LinkedLists

variable {α : Type}

structure Node (α : Type) where
  data : α
  next : Option ℕ

abbrev Heap (α : Type) := ℕ → Option (Node α)

/-- The cells, with their addresses, that lead from a pointer to another one. -/
inductive Segment (h : Heap α) : Option ℕ → List (ℕ × α) → Option ℕ → Prop
  | nil (p : Option ℕ) : Segment h p [] p
  | cons {a : ℕ} {x : α} {p q : Option ℕ} {cells : List (ℕ × α)} (hnode : h a = some ⟨x, p⟩)
      (hrest : Segment h p cells q) : Segment h (some a) ((a, x) :: cells) q

def addresses (cells : List (ℕ × α)) : List ℕ := cells.map Prod.fst

def contents (cells : List (ℕ × α)) : List α := cells.map Prod.snd

def Reads (h : Heap α) (p : Option ℕ) (xs : List α) : Prop :=
  ∃ cells, Segment h p cells none ∧ contents cells = xs

namespace Segment

variable {h : Heap α} {p q r : Option ℕ} {a : ℕ} {x : α} {cells cells' : List (ℕ × α)}

theorem append (h₁ : Segment h p cells q) (h₂ : Segment h q cells' r) :
    Segment h p (cells ++ cells') r := by
  induction h₁ with
  | nil p => exact h₂
  | cons hnode _ ih => exact .cons hnode (ih h₂)

theorem split (hs : Segment h p (cells ++ cells') r) :
    ∃ q, Segment h p cells q ∧ Segment h q cells' r := by
  induction cells generalizing p with
  | nil => exact ⟨p, .nil p, hs⟩
  | cons c cells ih =>
    cases hs with
    | cons hnode hrest =>
      obtain ⟨q, h₁, h₂⟩ := ih hrest
      exact ⟨q, .cons hnode h₁, h₂⟩

theorem node (hs : Segment h p ((a, x) :: cells) q) :
    p = some a ∧ ∃ next, h a = some ⟨x, next⟩ ∧ Segment h next cells q := by
  cases hs with
  | cons hnode hrest => exact ⟨rfl, _, hnode, hrest⟩

theorem last_node (hs : Segment h p (cells ++ [(a, x)]) none) : h a = some ⟨x, none⟩ := by
  obtain ⟨q, -, hlast⟩ := hs.split
  obtain ⟨-, next, hnode, hnil⟩ := hlast.node
  cases hnil
  exact hnode

theorem eq_none_iff (hs : Segment h p cells none) : p = none ↔ cells = [] := by
  cases hs <;> simp

theorem frame (hs : Segment h p cells q) (ha : a ∉ addresses cells) (v : Option (Node α)) :
    Segment (Function.update h a v) p cells q := by
  induction hs with
  | nil p => exact .nil p
  | @cons b x p q cells hnode _ ih =>
    obtain ⟨hab, hcells⟩ := not_or.mp (mt List.mem_cons.mpr ha)
    refine .cons ?_ (ih hcells)
    rwa [Function.update_of_ne (Ne.symm hab)]

theorem unique (hs : Segment h p cells none) (hs' : Segment h p cells' none) : cells = cells' := by
  induction cells generalizing p cells' with
  | nil =>
    cases hs
    cases hs'
    rfl
  | cons c cells ih =>
    cases hs with
    | cons hnode hrest =>
      cases hs' with
      | cons hnode' hrest' =>
        rw [hnode] at hnode'
        cases hnode'
        rw [ih hrest hrest']

end Segment

theorem Reads.unique {h : Heap α} {p : Option ℕ} {xs ys : List α} (hx : Reads h p xs)
    (hy : Reads h p ys) : xs = ys := by
  obtain ⟨cells, hcells, rfl⟩ := hx
  obtain ⟨cells', hcells', rfl⟩ := hy
  rw [hcells.unique hcells']

/-- `while (tmp->next != NULL) tmp = tmp->next;`, with a bound on the number of rounds. -/
def lastNode (h : Heap α) : ℕ → ℕ → Option ℕ
  | 0, _ => none
  | fuel + 1, a => (h a).bind fun node =>
    match node.next with
    | none => some a
    | some b => lastNode h fuel b

def countFrom (h : Heap α) : ℕ → ℕ → ℕ → Option ℕ
  | 0, _, _ => none
  | fuel + 1, a, count => (h a).bind fun node =>
    match node.next with
    | none => some count
    | some b => countFrom h fuel b (count + 1)

def traverse (h : Heap α) : ℕ → Option ℕ → Option Unit
  | _, none => some ()
  | 0, some _ => none
  | fuel + 1, some a => (h a).bind fun node => traverse h fuel node.next

section Loops

variable {h : Heap α} {a b : ℕ} {x : α} {cells : List (ℕ × α)} {fuel : ℕ}

theorem lastNode_eq (hs : Segment h (some a) (cells ++ [(b, x)]) none) (hfuel : cells.length < fuel) :
    lastNode h fuel a = some b := by
  induction fuel generalizing a cells with
  | zero => exact absurd hfuel (Nat.not_lt_zero _)
  | succ fuel ih =>
    cases cells with
    | nil =>
      obtain ⟨ha, next, hnode, hnext⟩ := hs.node
      cases ha
      cases hnext
      simp [lastNode, hnode]
    | cons c cells =>
      obtain ⟨ha, next, hnode, hrest⟩ := hs.node
      cases ha
      cases next with
      | none => cases cells <;> cases hrest
      | some next =>
        simp only [lastNode, hnode, Option.bind_some]
        exact ih hrest (by simpa using hfuel)

theorem countFrom_eq {count : ℕ} (hs : Segment h (some a) cells none) (hfuel : cells.length ≤ fuel) :
    countFrom h fuel a count = some (count + cells.length - 1) := by
  induction fuel generalizing a cells count with
  | zero =>
    cases hs
    exact absurd hfuel (Nat.not_succ_le_zero _)
  | succ fuel ih =>
    cases cells with
    | nil => cases hs
    | cons c cells =>
      obtain ⟨ha, next, hnode, hrest⟩ := hs.node
      cases ha
      simp only [countFrom, hnode, Option.bind_some]
      cases next with
      | none =>
        cases hrest
        rfl
      | some next =>
        have hlen : cells.length ≤ fuel := by simpa using hfuel
        simp only [ih hrest hlen, List.length_cons, Option.some.injEq]
        omega

theorem traverse_eq {p : Option ℕ} (hs : Segment h p cells none) (hfuel : cells.length ≤ fuel) :
    traverse h fuel p = some () := by
  induction cells generalizing p fuel with
  | nil =>
    cases hs
    cases fuel <;> rfl
  | cons c cells ih =>
    obtain ⟨fuel, rfl⟩ : ∃ k, fuel = k + 1 := ⟨fuel - 1, by simp at hfuel; omega⟩
    obtain ⟨rfl, next, hnode, hrest⟩ := hs.node
    simp only [traverse, hnode, Option.bind_some]
    exact ih hrest (by simpa using hfuel)

end Loops

theorem length_le_of_addresses {cells : List (ℕ × α)} {bound : ℕ} (hnodup : (addresses cells).Nodup)
    (hlt : ∀ a ∈ addresses cells, a < bound) : cells.length ≤ bound := by
  have hsub : (addresses cells).toFinset ⊆ Finset.range bound := by
    intro a ha
    exact Finset.mem_range.mpr (hlt a (List.mem_toFinset.mp ha))
  have hcard := Finset.card_le_card hsub
  rw [List.toFinset_card_of_nodup hnodup, Finset.card_range] at hcard
  simpa [addresses] using hcard

end PsOs.LinkedLists
