import PsOs.ProducerMoves

/-!
The arrays that `main` of `exercise06/task2` and `exercise06/task3` gets from `calloc` and
where its creation loop and its join loop access them.
-/

namespace PsOs.ProducerConsumer

open TransitionSystems

structure Parameters where
  c : Int32
  n : Int32
  accepted : ¬ (n ≤ 0 ∨ c ≤ 0)

inductive Arr where
  | tid
  | data
  deriving DecidableEq

structure Access where
  arr : Arr
  index : ℕ
  deriving DecidableEq

namespace Parameters

variable {p : Parameters} {task : Task}

def consumers (p : Parameters) : ℕ := p.c.toInt.toNat

def elements (p : Parameters) : ℕ := p.n.toInt.toNat

def calloc (p : Parameters) : Arr → ℕ
  | .tid => p.elements
  | .data => p.consumers

def InRange (p : Parameters) (access : Access) : Prop := access.index < p.calloc access.arr

instance (p : Parameters) : DecidablePred p.InRange := fun _ => Nat.decLt _ _

def accesses (p : Parameters) : MainPc → List Access
  | .create i => if i < p.consumers then [⟨.data, i⟩, ⟨.data, i⟩, ⟨.tid, i⟩, ⟨.data, i⟩] else []
  | .join i _ => if i < p.consumers then [⟨.tid, i⟩, ⟨.data, i⟩] else []
  | _ => []

theorem mem_accesses {main : MainPc} {access : Access} (h : access ∈ p.accesses main) :
    access.index < p.consumers := by
  unfold accesses at h
  cases main with
  | create i =>
    obtain ⟨hi, h⟩ := List.mem_ite_nil_right.mp h
    simp only [List.mem_cons, List.not_mem_nil, or_false] at h
    obtain rfl | rfl | rfl | rfl := h <;> exact hi
  | join i sum =>
    obtain ⟨hi, h⟩ := List.mem_ite_nil_right.mp h
    simp only [List.mem_cons, List.not_mem_nil, or_false] at h
    obtain rfl | rfl := h <;> exact hi
  | _ => cases h

theorem data_inRange {main : MainPc} {access : Access} (h : access ∈ p.accesses main)
    (hdata : access.arr = .data) : p.InRange access := by
  rw [InRange, hdata]
  exact mem_accesses h

theorem consumers_le_elements : p.consumers ≤ p.elements ↔ p.c ≤ p.n := by
  rw [consumers, elements, Int32.le_iff_toInt_le]
  have hpos := p.accepted
  simp only [not_or, Int32.not_le, Int32.lt_iff_toInt_lt, Int32.toInt_zero] at hpos
  omega

def AccessesInRange (p : Parameters) (task : Task) : Prop :=
  ∀ s, Reachable (step task p.elements) (init p.consumers) s →
    ∀ access ∈ p.accesses s.shared.main, p.InRange access

/-- With more consumers than elements the creation loop writes behind `tid`. -/
theorem accessesInRange_iff (p : Parameters) (task : Task) :
    p.AccessesInRange task ↔ p.c ≤ p.n := by
  rw [← consumers_le_elements]
  constructor
  · intro h
    by_contra hlt
    -- the creation loop gets to the first index behind `tid`
    have hmore : p.elements < p.consumers := not_le.mp hlt
    obtain ⟨s, hs, hmain⟩ := reachable_create task hmore.le le_rfl
    have hmem : ⟨.tid, p.elements⟩ ∈ p.accesses s.shared.main := by
      rw [hmain, accesses, if_pos hmore]
      simp
    exact lt_irrefl _ (h s hs _ hmem)
  · intro hle s _ access haccess
    have hindex := mem_accesses haccess
    cases harr : access.arr with
    | data => exact data_inRange haccess harr
    | tid =>
      rw [InRange, harr]
      exact hindex.trans_le hle

theorem not_accessesInRange : ¬ ∀ (p : Parameters) (task : Task), p.AccessesInRange task := by
  intro h
  have hfirst : Reachable (step .task2 1) (init 2) ⟨⟨[], none, .create 1, [], []⟩, Function.update
      (fun _ => ⟨.unborn, 0⟩) 0 ⟨.poll, 0⟩⟩ := Reachable.refl.tail (a := .main) rfl
  have htid := h ⟨2, 1, by decide⟩ .task2 _ hfirst ⟨.tid, 1⟩ (by decide)
  exact absurd htid (by decide)

end Parameters

end PsOs.ProducerConsumer
