import Mathlib.Data.List.Basic
import Mathlib.Logic.Relation

/-!
Deterministic step functions with labels: `step s a = none` says that `a` is not
enabled in `s`. All nondeterminism (the scheduler, the environment) is in the labels.
-/

namespace PsOs.TransitionSystems

variable {σ α : Type}

def run (step : σ → α → Option σ) : σ → List α → Option σ
  | s, [] => some s
  | s, a :: as => (step s a).bind fun t => run step t as

theorem run_append (step : σ → α → Option σ) (s : σ) (as bs : List α) :
    run step s (as ++ bs) = (run step s as).bind fun t => run step t bs := by
  induction as generalizing s with
  | nil => rfl
  | cons a as ih =>
    simp only [List.cons_append, run, Option.bind_assoc]
    congr 1
    funext t
    exact ih t

def trace {β : Type} (step : σ → α → Option σ) (out : σ → α → List β) : σ → List α → List β
  | _, [] => []
  | s, a :: as => out s a ++ (step s a).elim [] fun t => trace step out t as

inductive ReachableBy (step : σ → α → Option σ) (ok : σ → α → Prop) (init : σ) : σ → Prop
  | refl : ReachableBy step ok init init
  | tail {s : σ} {a : α} {t : σ} (hs : ReachableBy step ok init s) (hok : ok s a)
      (ht : step s a = some t) : ReachableBy step ok init t

abbrev Reachable (step : σ → α → Option σ) (init : σ) : σ → Prop :=
  ReachableBy step (fun _ _ => True) init

variable {step : σ → α → Option σ} {ok : σ → α → Prop} {init s t u : σ}

theorem Reachable.refl : Reachable step init init := ReachableBy.refl

theorem Reachable.tail {a : α} (hs : Reachable step init s) (ht : step s a = some t) :
    Reachable step init t := ReachableBy.tail hs trivial ht

theorem ReachableBy.mono {ok' : σ → α → Prop} (h : ReachableBy step ok init s)
    (hok : ∀ s a, ok s a → ok' s a) : ReachableBy step ok' init s := by
  induction h with
  | refl => exact .refl
  | tail _ ha ht ih => exact .tail ih (hok _ _ ha) ht

theorem ReachableBy.trans (h : ReachableBy step ok init s) (h' : ReachableBy step ok s t) :
    ReachableBy step ok init t := by
  induction h' with
  | refl => exact h
  | tail _ ha ht ih => exact .tail ih ha ht

theorem ReachableBy.invariant (Inv : σ → Prop) (h : ReachableBy step ok init s) (h₀ : Inv init)
    (hstep : ∀ s a t, Inv s → ok s a → step s a = some t → Inv t) : Inv s := by
  induction h with
  | refl => exact h₀
  | tail _ ha ht ih => exact hstep _ _ _ ih ha ht

theorem Reachable.invariant (Inv : σ → Prop) (h : Reachable step init s) (h₀ : Inv init)
    (hstep : ∀ s a t, Inv s → step s a = some t → Inv t) : Inv s :=
  ReachableBy.invariant Inv h h₀ fun s a t hs _ ht => hstep s a t hs ht

theorem reachableBy_of_run {as : List α} (hok : ∀ a ∈ as, ∀ s, ok s a)
    (h : run step s as = some t) : ReachableBy step ok s t := by
  induction as generalizing s with
  | nil => cases h; exact .refl
  | cons a as ih =>
    obtain ⟨u, hu, ht⟩ := Option.bind_eq_some_iff.mp h
    have hfirst := ReachableBy.refl.tail (hok a (List.mem_cons_self ..) s) hu
    exact hfirst.trans (ih (fun b hb => hok b (List.mem_cons_of_mem _ hb)) ht)

theorem reachable_of_run {as : List α} (h : run step s as = some t) : Reachable step s t :=
  reachableBy_of_run (fun _ _ _ => trivial) h

section Measure

variable {Inv : σ → Prop} {m : σ → ℕ}

theorem length_le_of_run (hkeep : ∀ s a t, Inv s → step s a = some t → Inv t)
    (hdec : ∀ s a t, Inv s → step s a = some t → m t < m s) (hs : Inv s) {as : List α}
    (h : run step s as = some t) : as.length ≤ m s := by
  induction as generalizing s with
  | nil => exact Nat.zero_le _
  | cons a as ih =>
    obtain ⟨u, hu, ht⟩ := Option.bind_eq_some_iff.mp h
    exact Nat.lt_of_le_of_lt (ih (hkeep s a u hs hu) ht) (hdec s a u hs hu)

theorem length_add_le_of_run (hkeep : ∀ s a t, Inv s → step s a = some t → Inv t)
    (hinc : ∀ s a t, Inv s → step s a = some t → m s < m t) (hs : Inv s) {as : List α}
    (h : run step s as = some t) : as.length + m s ≤ m t := by
  induction as generalizing s with
  | nil =>
    cases h
    simp
  | cons a as ih =>
    obtain ⟨u, hu, ht⟩ := Option.bind_eq_some_iff.mp h
    have hrest := ih (hkeep s a u hs hu) ht
    have hlt := hinc s a u hs hu
    rw [List.length_cons]
    omega

theorem exists_terminal (hkeep : ∀ s a t, Inv s → step s a = some t → Inv t)
    (hdec : ∀ s a t, Inv s → step s a = some t → m t < m s) (hs : Inv s) :
    ∃ t, Reachable step s t ∧ Inv t ∧ ∀ a, step t a = none := by
  induction hm : m s using Nat.strongRecOn generalizing s with
  | ind k ih =>
    by_cases hnone : ∀ a, step s a = none
    · exact ⟨s, .refl, hs, hnone⟩
    · obtain ⟨a, ha⟩ := not_forall.mp hnone
      obtain ⟨u, hu⟩ := Option.ne_none_iff_exists'.mp ha
      obtain ⟨t, ht, hinv, hend⟩ := ih (m u) (hm ▸ hdec s a u hs hu) (hkeep s a u hs hu) rfl
      exact ⟨t, ReachableBy.trans (Reachable.refl.tail hu) ht, hinv, hend⟩

/-- The steps in `p` use up what the others put in, `c` at most in each of them. -/
theorem countP_le_of_run {p : α → Bool} {c : ℕ}
    (hkeep : ∀ s a t, Inv s → step s a = some t → Inv t)
    (hdec : ∀ s a t, Inv s → p a = true → step s a = some t → m t < m s)
    (hinc : ∀ s a t, Inv s → p a = false → step s a = some t → m t ≤ m s + c) (hs : Inv s)
    {as : List α} (h : run step s as = some t) :
    as.countP p + m t ≤ m s + c * as.countP (!p ·) := by
  induction as generalizing s with
  | nil =>
    cases h
    simp
  | cons a as ih =>
    obtain ⟨u, hu, ht⟩ := Option.bind_eq_some_iff.mp h
    have hrest := ih (hkeep s a u hs hu) ht
    cases ha : p a with
    | true =>
      have hlt := hdec s a u hs ha hu
      simp only [List.countP_cons, ha, if_true, Bool.not_true, Bool.false_eq_true, if_false,
        Nat.add_zero]
      omega
    | false =>
      have hle := hinc s a u hs ha hu
      simp only [List.countP_cons, ha, Bool.not_false, if_true, Bool.false_eq_true, if_false,
        Nat.mul_add, Nat.mul_one, Nat.add_zero]
      omega

end Measure

theorem trace_invariant {β : Type} {out : σ → α → List β} (R : List β → σ → Prop)
    (hstep : ∀ os s a t, R os s → step s a = some t → R (os ++ out s a) t) {os : List β}
    {as : List α} (hs : R os s) (h : run step s as = some t) : R (os ++ trace step out s as) t := by
  induction as generalizing s os with
  | nil =>
    cases h
    simpa [trace] using hs
  | cons a as ih =>
    obtain ⟨u, hu, ht⟩ := Option.bind_eq_some_iff.mp h
    have hrest := ih (hstep os s a u hs hu) ht
    simpa only [trace, hu, Option.elim_some, List.append_assoc] using hrest

def AllStates (step : σ → α → Option σ) (P : σ → Prop) : σ → List α → Prop
  | s, [] => P s
  | s, a :: as => P s ∧ ∀ t ∈ step s a, AllStates step P t as

def AllSteps (step : σ → α → Option σ) (ok : σ → α → Prop) : σ → List α → Prop
  | _, [] => True
  | s, a :: as => ∀ t ∈ step s a, ok s a ∧ AllSteps step ok t as

theorem AllStates.head {P : σ → Prop} {as : List α} (h : AllStates step P s as) : P s := by
  cases as with
  | nil => exact h
  | cons a as => exact h.1

theorem allSteps_true (step : σ → α → Option σ) (s : σ) (as : List α) :
    AllSteps step (fun _ _ => True) s as := by
  induction as generalizing s with
  | nil => trivial
  | cons a as ih => exact fun t _ => ⟨trivial, ih t⟩

theorem AllSteps.mono {ok' : σ → α → Prop} {as : List α} (h : AllSteps step ok s as)
    (hok : ∀ s a, ok s a → ok' s a) : AllSteps step ok' s as := by
  induction as generalizing s with
  | nil => trivial
  | cons a as ih =>
    intro t ht
    obtain ⟨ha, hrest⟩ := h t ht
    exact ⟨hok s a ha, ih hrest⟩

/-- When among the steps in `dom` those that meet `ok` keep `Inv` and the others end outside of
`P`, the runs that stay in `P` are exactly the runs whose steps meet `ok`. -/
theorem allStates_iff_allSteps_of {P Inv : σ → Prop} {dom : σ → α → Prop}
    (hP : ∀ s, Inv s → P s)
    (hkeep : ∀ s a t, Inv s → dom s a → ok s a → step s a = some t → Inv t)
    (hbreak : ∀ s a t, Inv s → dom s a → ¬ ok s a → step s a = some t → ¬ P t)
    (as : List α) (hdom : AllSteps step dom s as) (hs : Inv s) :
    AllStates step P s as ↔ AllSteps step ok s as := by
  induction as generalizing s with
  | nil => simp [AllStates, AllSteps, hP s hs]
  | cons a as ih =>
    simp only [AllStates, AllSteps, hP s hs, true_and]
    apply forall₂_congr
    intro t ht
    obtain ⟨hd, hrest⟩ := hdom t ht
    by_cases ha : ok s a
    · simp only [ha, true_and]
      exact ih hrest (hkeep s a t hs hd ha ht)
    · have hout : ¬ AllStates step P t as := fun h => hbreak s a t hs hd ha ht h.head
      simp [ha, hout]

theorem allStates_iff_allSteps {P Inv : σ → Prop} (hP : ∀ s, Inv s → P s)
    (hkeep : ∀ s a t, Inv s → ok s a → step s a = some t → Inv t)
    (hbreak : ∀ s a t, Inv s → ¬ ok s a → step s a = some t → ¬ P t)
    (as : List α) (hs : Inv s) : AllStates step P s as ↔ AllSteps step ok s as :=
  allStates_iff_allSteps_of hP (fun s a t hi _ => hkeep s a t hi) (fun s a t hi _ => hbreak s a t hi)
    as (allSteps_true step s as) hs

theorem allSteps_of_invariant (Inv : σ → Prop) (hkeep : ∀ s a t, Inv s → step s a = some t → Inv t)
    (hok : ∀ s a t, Inv s → step s a = some t → ok s a) (hs : Inv s) (as : List α) :
    AllSteps step ok s as := by
  induction as generalizing s with
  | nil => trivial
  | cons a as ih => exact fun t ht => ⟨hok s a t hs ht, ih (hkeep s a t hs ht)⟩

theorem exists_reachable_of_run (step : σ → α → Option σ) (init : σ) (as : List α) (p : σ → Bool)
    (h : (run step init as).any p = true) : ∃ s, Reachable step init s ∧ p s = true := by
  obtain ⟨s, hs, hp⟩ := (Option.any_eq_true _ _).mp h
  exact ⟨s, reachable_of_run hs, hp⟩

theorem exists_reachable_of_runs (step : σ → α → Option σ) (init : σ) (as bs : List α)
    (p : σ → σ → Bool) (h : ((run step init as).any fun s => (run step s bs).any (p s)) = true) :
    ∃ s t, Reachable step init s ∧ Reachable step s t ∧ p s t = true := by
  obtain ⟨s, hs, h⟩ := exists_reachable_of_run step init as _ h
  obtain ⟨t, ht, hp⟩ := exists_reachable_of_run step s bs _ h
  exact ⟨s, t, hs, ht, hp⟩

theorem reachableBy_of_guarded {ok : σ → α → Bool}
    (h : Reachable (fun s a => if ok s a then step s a else none) init s) :
    ReachableBy step (fun s a => ok s a = true) init s := by
  induction h with
  | refl => exact .refl
  | tail _ _ ht ih =>
    split at ht
    · exact .tail ih ‹_› ht
    · cases ht

theorem exists_reachableBy_of_run (step : σ → α → Option σ) (ok : σ → α → Bool) (init : σ)
    (as : List α) (p : σ → Bool)
    (h : (run (fun s a => if ok s a then step s a else none) init as).any p = true) :
    ∃ s, ReachableBy step (fun s a => ok s a = true) init s ∧ p s = true := by
  obtain ⟨s, hs, hp⟩ := exists_reachable_of_run _ init as p h
  exact ⟨s, reachableBy_of_guarded hs, hp⟩

theorem allSteps_of_run (step : σ → α → Option σ) (ok : σ → α → Bool) (init : σ) (as : List α)
    (h : (run (fun s a => if ok s a then step s a else none) init as).isSome = true) :
    AllSteps step (fun s a => ok s a = true) init as := by
  induction as generalizing init with
  | nil => trivial
  | cons a as ih =>
    intro t ht
    cases ha : ok init a with
    | true =>
      simp only [run, ha, if_true, Option.mem_def.mp ht, Option.bind_some] at h
      exact ⟨ha, ih t h⟩
    | false => simp [run, ha] at h

end PsOs.TransitionSystems
