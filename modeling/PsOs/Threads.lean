import Mathlib.Algebra.BigOperators.Group.Finset.Piecewise
import Mathlib.Algebra.Order.BigOperators.Group.Finset
import Mathlib.Algebra.Order.Group.Multiset
import Mathlib.Data.Fintype.Card
import Mathlib.Tactic.Ring

/-! Threads over shared memory, the mutexes between them and the counting of threads. -/

namespace PsOs.Threads

variable {ι S L : Type}

structure Config (ι S L : Type) where
  shared : S
  locals : ι → L

namespace Config

variable [DecidableEq ι]

def move (c : Config ι S L) (i : ι) (next : Option (S × L)) : Option (Config ι S L) :=
  next.map fun p => ⟨p.1, Function.update c.locals i p.2⟩

theorem move_eq_some {c d : Config ι S L} {i : ι} {next : Option (S × L)} :
    c.move i next = some d ↔ ∃ s l, next = some (s, l) ∧ d = ⟨s, Function.update c.locals i l⟩ := by
  simp only [move, Option.map_eq_some_iff, Prod.exists]
  constructor
  · rintro ⟨s, l, h, rfl⟩
    exact ⟨s, l, h, rfl⟩
  · rintro ⟨s, l, h, rfl⟩
    exact ⟨s, l, h, rfl⟩

end Config

theorem field_update [DecidableEq ι] {α : Type} (field : L → α) {f : ι → L} {i : ι} {l : L}
    (h : field l = field (f i)) (j : ι) : field (Function.update f i l j) = field (f j) := by
  by_cases hji : j = i
  · subst hji
    rw [Function.update_self, h]
  · rw [Function.update_of_ne hji]

/-- `pthread_mutex_lock` on a mutex that is `none` when free: blocked while it is held. -/
def acquire {ω : Type} (mutex : Option ω) (owner : ω) : Option (Option ω) :=
  match mutex with
  | none => some (some owner)
  | some _ => none

@[simp] theorem acquire_eq_some {ω : Type} {mutex m : Option ω} {owner : ω} :
    acquire mutex owner = some m ↔ mutex = none ∧ m = some owner := by
  cases mutex <;> simp [acquire, eq_comm]

section Guards

variable {inside : L → Prop} {mutex : Option ι} {f : ι → L} {i : ι} {l : L}

def Guards (mutex : Option ι) (inside : L → Prop) (f : ι → L) : Prop :=
  ∀ i, inside (f i) → mutex = some i

theorem Guards.exclusive {j : ι} (h : Guards mutex inside f) (hi : inside (f i))
    (hj : inside (f j)) : i = j :=
  Option.some.inj ((h i hi).symm.trans (h j hj))

variable [DecidableEq ι]

theorem Guards.stay (h : Guards mutex inside f) (hl : inside l → inside (f i)) :
    Guards mutex inside (Function.update f i l) := by
  intro j hj
  by_cases hji : j = i
  · subst hji
    rw [Function.update_self] at hj
    exact h j (hl hj)
  · rw [Function.update_of_ne hji] at hj
    exact h j hj

theorem Guards.acquire (h : Guards none inside f) :
    Guards (some i) inside (Function.update f i l) := by
  intro j hj
  by_cases hji : j = i
  · rw [hji]
  · rw [Function.update_of_ne hji] at hj
    cases h j hj

theorem Guards.release (h : Guards mutex inside f) (hi : inside (f i)) (hl : ¬ inside l) :
    Guards none inside (Function.update f i l) := by
  intro j hj
  by_cases hji : j = i
  · subst hji
    rw [Function.update_self] at hj
    exact absurd hj hl
  · rw [Function.update_of_ne hji] at hj
    exact absurd (h.exclusive hj hi) hji

def Held (mutex : Option ι) (inside : L → Prop) (f : ι → L) : Prop :=
  ∀ i, mutex = some i → inside (f i)

omit [DecidableEq ι] in
theorem Held.none : Held none inside f := by
  intro i hi
  cases hi

theorem Held.acquire (hl : inside l) : Held (some i) inside (Function.update f i l) := by
  intro j hj
  cases hj
  rwa [Function.update_self]

theorem Held.stay (h : Held mutex inside f) (hl : inside (f i) → inside l) :
    Held mutex inside (Function.update f i l) := by
  intro j hj
  by_cases hji : j = i
  · subst hji
    rw [Function.update_self]
    exact hl (h j hj)
  · rw [Function.update_of_ne hji]
    exact h j hj

end Guards

theorem sum_update {M : Type} [AddCommMonoid M] [Fintype ι] [DecidableEq ι] (value : L → M)
    (f : ι → L) (i : ι) (l : L) :
    ∑ j, value (Function.update f i l j) + value (f i) = ∑ j, value (f j) + value l := by
  have hrest : ∑ j ∈ Finset.univ.erase i, value (Function.update f i l j) =
      ∑ j ∈ Finset.univ.erase i, value (f j) := by
    apply Finset.sum_congr rfl
    intro j hj
    rw [Function.update_of_ne (Finset.ne_of_mem_erase hj)]
  rw [← Finset.sum_erase_add _ _ (Finset.mem_univ i), ← Finset.sum_erase_add _ (fun j => value (f j))
    (Finset.mem_univ i), hrest, Function.update_self, add_assoc, add_assoc, add_comm (value l)]

theorem sum_le_sum_add [Fintype ι] (value : L → ℕ) {f g : ι → L} {k : ℕ}
    (h : ∀ i, value (g i) ≤ value (f i) + k) :
    ∑ i, value (g i) ≤ ∑ i, value (f i) + k * Fintype.card ι :=
  calc ∑ i, value (g i)
    _ ≤ ∑ i, (value (f i) + k) := Finset.sum_le_sum fun i _ => h i
    _ = ∑ i, value (f i) + k * Fintype.card ι := by
      rw [Finset.sum_add_distrib, Finset.sum_const_nat fun _ _ => rfl, Finset.card_univ, Nat.mul_comm]

section Gather

variable {ι L α : Type} [Fintype ι] {field : L → Option α} {f : ι → L}

def gather (field : L → Option α) (f : ι → L) : Multiset α := ∑ i, ((field (f i)).toList : Multiset α)

theorem gather_update [DecidableEq ι] (field : L → Option α) (f : ι → L) (i : ι) (l : L) :
    gather field (Function.update f i l) + ((field (f i)).toList : Multiset α) =
      gather field f + ((field l).toList : Multiset α) :=
  sum_update (fun l => ((field l).toList : Multiset α)) f i l

theorem gather_eq_zero_iff : gather field f = 0 ↔ ∀ i, field (f i) = none := by
  simp [gather, Finset.sum_eq_zero_iff]

theorem gather_congr {g : ι → L} (h : ∀ i, field (g i) = field (f i)) :
    gather field g = gather field f := by
  simp only [gather, h]

end Gather

section Tally

variable {ι L : Type} [Fintype ι] {p : L → Prop} [DecidablePred p] {f : ι → L}

def tally (p : L → Prop) [DecidablePred p] (f : ι → L) : ℕ :=
  (Finset.univ.filter fun i => p (f i)).card

theorem tally_pos {i : ι} (h : p (f i)) : 0 < tally p f :=
  Finset.card_pos.mpr ⟨i, by simpa using h⟩

theorem tally_eq_zero_iff : tally p f = 0 ↔ ∀ i, ¬ p (f i) := by
  simp [tally, Finset.filter_eq_empty_iff]

theorem tally_lt_iff : tally p f < Fintype.card ι ↔ ∃ i, ¬ p (f i) := by
  rw [tally, Finset.card_lt_iff_ne_univ, Ne, Finset.filter_eq_self]
  simp

theorem tally_congr {g : ι → L} (h : ∀ i, p (g i) ↔ p (f i)) : tally p g = tally p f := by
  simp only [tally, h]

theorem tally_lt_tally {q : L → Prop} [DecidablePred q] {g : ι → L}
    (h : ∀ i, p (f i) → q (g i)) {i : ι} (hf : ¬ p (f i)) (hg : q (g i)) :
    tally p f < tally q g := by
  apply Finset.card_lt_card
  rw [Finset.ssubset_iff_of_subset (Finset.monotone_filter_right _ fun j _ => h j)]
  exact ⟨i, by simpa using hg, by simpa using hf⟩

theorem tally_add_not (p : L → Prop) [DecidablePred p] (f : ι → L) :
    tally p f + tally (fun l => ¬ p l) f = Fintype.card ι :=
  Finset.card_filter_add_card_filter_not fun i => p (f i)

variable [DecidableEq ι] {i : ι} {l : L}

theorem tally_update (p : L → Prop) [DecidablePred p] (f : ι → L) (i : ι) (l : L) :
    tally p (Function.update f i l) + (if p (f i) then 1 else 0) =
      tally p f + (if p l then 1 else 0) := by
  simp only [tally, Finset.card_filter]
  exact sum_update (fun l => if p l then 1 else 0) f i l

theorem tally_update_of_iff (h : p l ↔ p (f i)) :
    tally p (Function.update f i l) = tally p f := by
  have := tally_update p f i l
  simp only [h] at this
  omega

theorem tally_update_gain (hi : ¬ p (f i)) (hl : p l) :
    tally p (Function.update f i l) = tally p f + 1 := by
  simpa [hi, hl] using tally_update p f i l

theorem tally_update_loss (hi : p (f i)) (hl : ¬ p l) :
    tally p (Function.update f i l) + 1 = tally p f := by
  simpa [hi, hl] using tally_update p f i l

end Tally

end PsOs.Threads
