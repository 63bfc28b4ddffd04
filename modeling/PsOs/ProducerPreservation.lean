import PsOs.ProducerInvariant

namespace PsOs.ProducerConsumer

open Threads WorkQueues

variable {c n : ℕ} {task : Task} {s t : State c}

section Fed

theorem num_ne_pill (i : ℕ) : (Element.value i).num ≠ INT_MAX := by
  by_cases hi : i % 2 = 0 <;> simp [Element.num, hi, INT_MAX]

theorem pill_notMem_values : INT_MAX ∉ values n := by
  intro h
  obtain ⟨i, -, hi⟩ := List.mem_map.mp h
  exact num_ne_pill i hi

theorem length_values (n : ℕ) : (values n).length = n := by simp [values]

theorem feed_index {element : Element} (h : element.Bound n c) :
    (feed n c)[element.index n]? = some element.num := by
  cases element with
  | value i =>
    have hi : i < (values n).length := by rwa [length_values]
    rw [feed, Element.index, List.getElem?_append_left hi, values, List.getElem?_map,
      List.getElem?_range h]
    rfl
  | pill i =>
    have hi : i < c := h
    rw [feed, Element.index, List.getElem?_append_right (by simp [length_values]), length_values,
      Nat.add_sub_cancel_left, List.getElem?_replicate, if_pos hi]
    rfl

theorem take_push {element : Element} (h : element.Bound n c) :
    (feed n c).take (element.index n) ++ [element.num] =
      (feed n c).take (element.index n + 1) := by
  rw [List.take_add_one, feed_index h]
  rfl

theorem not_joinOverrun (h : Inv n s) {i : ℕ} {sum : ℤ} (hpc : s.shared.main = .join i sum)
    (hi : i < c) : i < n := by
  have hinside := h.inside
  rw [hpc] at hinside
  exact hi.trans_le hinside

theorem inside_main (h : Inv n s) (hm : MainMove task n s t) : t.shared.main.Inside n c := by
  have hinside := h.inside
  cases hm with
  | create i hpc hn => exact hn
  | created i hpc hi =>
    rw [hpc] at hinside
    exact hi.trans hinside
  | createOverrun | joinOverrun | failed => trivial
  | pillsDone i hpc hi =>
    rw [hpc] at hinside
    cases task <;> exact hinside
  | push element hpc =>
    rw [hpc] at hinside
    cases task <;> exact hinside
  | unlock element hpc =>
    rw [hpc] at hinside
    cases element <;> exact hinside
  | _ =>
    simp only [*] at hinside
    exact hinside

theorem fed_main (h : Inv n s) (hm : MainMove task n s t) :
    t.shared.pushed = (feed n c).take (t.shared.main.count n c) ∧ t.shared.main.Bound n c := by
  have hfed := h.fed
  have hbound := h.bound
  cases hm with
  | push element hpc =>
    simp only [hpc, MainPc.count, MainPc.Bound] at hfed hbound
    have hpush := take_push hbound
    rw [← hfed] at hpush
    cases task <;> exact ⟨hpush, hbound⟩
  | unlock element hpc =>
    simp only [hpc, MainPc.count, MainPc.Bound] at hfed hbound
    cases element <;> exact ⟨hfed, hbound⟩
  | valuesDone i hpc hi =>
    simp only [hpc, MainPc.count, MainPc.Bound] at hfed hbound
    have : i = n := Nat.le_antisymm hbound hi
    subst this
    exact ⟨hfed, Nat.zero_le _⟩
  | pillsDone i hpc hi =>
    simp only [hpc, MainPc.count, MainPc.Bound] at hfed hbound
    have : i = c := Nat.le_antisymm hbound hi
    subst this
    cases task <;> exact ⟨hfed, trivial⟩
  | value i hpc hi | pill i hpc hi =>
    simp only [hpc, MainPc.count] at hfed
    exact ⟨hfed, hi⟩
  | created i hpc hi =>
    simp only [hpc, MainPc.count] at hfed
    exact ⟨hfed, Nat.zero_le _⟩
  | lock element hpc hfree | signal element woken hpc hwoken =>
    simp only [hpc, MainPc.count, MainPc.Bound] at hfed hbound
    exact ⟨hfed, hbound⟩
  | joinOverrun i sum hpc hi hn => exact absurd (not_joinOverrun h hpc hi) (not_lt.mpr hn)
  | _ =>
    simp only [*, MainPc.count] at hfed
    exact ⟨hfed, trivial⟩

theorem MainMove.queue (hm : MainMove task n s t) : t.shared.taken = s.shared.taken ∧
    ∃ new, t.shared.queue = s.shared.queue ++ new ∧ t.shared.pushed = s.shared.pushed ++ new := by
  cases hm with
  | push element hpc => exact ⟨rfl, [element.num], rfl, rfl⟩
  | _ => exact ⟨rfl, [], (List.append_nil _).symm, (List.append_nil _).symm⟩

end Fed

section Books

variable {i : Fin c} {srv' : Server c} {consumer' : Consumer}

theorem ConsumerMove.books (hm : ConsumerMove task i s.shared (s.locals i) srv' consumer')
    (h : Books (share i s.shared.taken) (s.locals i)) : Books (share i srv'.taken) consumer' := by
  obtain ⟨hsum, hsmall, hpills⟩ := h
  cases hm with
  | pop value queue hpc hq =>
    rw [hpc] at hsum hsmall hpills
    simp only [ConsumerPc.carried, abs_zero, add_zero] at hsum hsmall
    constructor
    · rw [share_append_self, List.map_append, List.sum_append, ← hsum]
      simp [Consumer.goto, ConsumerPc.carried]
    · rw [share_append_self, List.map_append, List.sum_append]
      simpa [Consumer.goto, ConsumerPc.carried] using hsmall
    · rw [share_append_self, List.count_append, hpills]
      by_cases hv : value = INT_MAX <;> simp [Consumer.goto, ConsumerPc.tookPill, hv]
  | add temp hpc htemp =>
    rw [hpc] at hsum hsmall hpills
    simp only [ConsumerPc.carried, worth, if_neg htemp] at hsum hsmall
    constructor
    · simpa [ConsumerPc.carried] using hsum
    · have hadd := abs_add_le (s.locals i).sum temp
      simpa [ConsumerPc.carried, worth] using hadd.trans hsmall
    · simpa [ConsumerPc.tookPill, htemp] using hpills
  | poll pc hpc hnext =>
    rw [hpc] at hsum hsmall hpills
    rcases hnext with rfl | rfl <;> exact ⟨hsum, hsmall, hpills⟩
  | lock hpc hfree =>
    rcases hpc with hpc | hpc <;> rw [hpc] at hsum hsmall hpills <;> exact ⟨hsum, hsmall, hpills⟩
  | _ =>
    simp only [*] at hsum hsmall hpills
    exact ⟨hsum, hsmall, hpills⟩

theorem ConsumerMove.share_other (hm : ConsumerMove task i s.shared (s.locals i) srv' consumer')
    {j : Fin c} (hji : j ≠ i) : share j srv'.taken = share j s.shared.taken := by
  cases hm with
  | pop value queue hpc hq => exact share_append_other _ hji value
  | _ => rfl

theorem ConsumerMove.fifo (hm : ConsumerMove task i s.shared (s.locals i) srv' consumer') :
    srv'.taken.map Prod.snd ++ srv'.queue = s.shared.taken.map Prod.snd ++ s.shared.queue := by
  cases hm with
  | pop value queue hpc hq => simp [hq]
  | _ => rfl

theorem found_consumer (h : Inv n s)
    (hm : ConsumerMove task i s.shared (s.locals i) srv' consumer') (j : Fin c)
    (hj : (Function.update s.locals i consumer' j).pc = .pop) : srv'.queue ≠ [] := by
  by_cases hji : j = i
  · subst hji
    rw [Function.update_self] at hj
    cases hm with
    | find hpc hq => exact hq
    | poll pc hpc hnext => rcases hnext with rfl | rfl <;> cases hj
    | _ => cases hj
  · rw [Function.update_of_ne hji] at hj
    have hfound := h.found j hj
    cases hm with
    | pop value queue hpc hq =>
      have hin : sections s (.consumer i) = true := by simp [sections, hpc, ConsumerPc.inSection]
      have hin' : sections s (.consumer j) = true := by simp [sections, hj, ConsumerPc.inSection]
      cases h.guards.exclusive hin hin'
      exact absurd rfl hji
    | _ => exact hfound

theorem running_consumer (h : Inv n s)
    (hm : ConsumerMove task i s.shared (s.locals i) srv' consumer') :
    consumer'.pc ≠ .aborted := by
  intro hpc'
  cases hm with
  | abort hpc hq => exact h.found i hpc hq
  | poll pc hpc hnext => rcases hnext with rfl | rfl <;> cases hpc'
  | _ => cases hpc'

theorem ConsumerMove.not_exited (hm : ConsumerMove task i s.shared (s.locals i) srv' consumer') :
    (s.locals i).pc ≠ .exited ∧ (s.locals i).pc ≠ .unborn := by
  cases hm with
  | lock hpc hfree => rcases hpc with hpc | hpc <;> simp [hpc]
  | _ => simp [*]

end Books

section Join

theorem Joined.keep (h : Joined s) (hmain : t.shared.main = s.shared.main)
    (hkeep : ∀ j, (s.locals j).pc = .exited → t.locals j = s.locals j) : Joined t := by
  unfold Joined at h ⊢
  rw [hmain]
  cases hpc : s.shared.main <;> simp only [hpc] at h ⊢
  case join k sum =>
    obtain ⟨hexited, hsum⟩ := h
    refine ⟨fun j hj => by rw [hkeep j (hexited j hj)]; exact hexited j hj, ?_⟩
    rw [hsum]
    congr 1
    apply Finset.sum_congr rfl
    intro j _
    by_cases hj : j.val < k
    · rw [if_pos hj, if_pos hj, hkeep j (hexited j hj)]
    · rw [if_neg hj, if_neg hj]
  case finished sum =>
    obtain ⟨hexited, hsum⟩ := h
    have hsame : t.locals = s.locals := funext fun j => hkeep j (hexited j)
    rw [hsame]
    exact ⟨hexited, hsum⟩

theorem joined_zero (locals : Fin c → Consumer) (srv : Server c) :
    Joined ⟨srv.goto (.join 0 0), locals⟩ := by
  refine ⟨fun j hj => absurd hj (Nat.not_lt_zero _), ?_⟩
  simp

theorem sum_below_succ (f : Fin c → ℤ) (i : Fin c) :
    (∑ j : Fin c, if j.val < i.val + 1 then f j else 0) =
      (∑ j : Fin c, if j.val < i.val then f j else 0) + f i := by
  have hsplit : ∀ j : Fin c, (if j.val < i.val + 1 then f j else 0) =
      (if j.val < i.val then f j else 0) + if j = i then f j else 0 := by
    intro j
    by_cases hji : j = i
    · subst hji
      simp
    · have hne : j.val ≠ i.val := fun heq => hji (Fin.ext heq)
      have hlt : j.val < i.val + 1 ↔ j.val < i.val := by omega
      simp [hji, hlt]
  rw [Finset.sum_congr rfl fun j _ => hsplit j, Finset.sum_add_distrib, Finset.sum_ite_eq',
    if_pos (Finset.mem_univ i)]

theorem joined_main (h : Inv n s) (hm : MainMove task n s t) : Joined t := by
  have hjoined := h.joined
  cases hm with
  | join i sum hpc hexited =>
    simp only [Joined, hpc] at hjoined
    obtain ⟨hall, hsum⟩ := hjoined
    constructor
    · intro j hj
      rcases Nat.lt_succ_iff_lt_or_eq.mp hj with hj | hj
      · exact hall j hj
      · rw [Fin.ext hj]
        exact hexited
    · rw [sum_below_succ fun j => (s.locals j).sum, hsum]
      rw [addInt, Int.bmod_add_bmod]
  | joined i sum hpc hi =>
    simp only [Joined, hpc] at hjoined
    obtain ⟨hall, hsum⟩ := hjoined
    have hlt : ∀ j : Fin c, j.val < i := fun j => Nat.lt_of_lt_of_le j.isLt hi
    refine ⟨fun j => hall j (hlt j), ?_⟩
    simpa only [hlt, if_true] using hsum
  | pillsDone i hpc hi =>
    cases task with
    | task2 => exact joined_zero s.locals s.shared
    | task3 => trivial
  | broadcast hpc => exact joined_zero _ s.shared
  | push element hpc => cases task <;> trivial
  | unlock element hpc => cases element <;> trivial
  | _ => trivial

end Join

namespace Inv

theorem main (h : Inv n s) (hm : MainMove task n s t) : Inv n t := by
  have hr := hm.restarted h.unborn
  obtain ⟨hfed, hbound⟩ := fed_main h hm
  obtain ⟨htaken, new, hqueue, hpushed⟩ := hm.queue
  refine ⟨guards_main h hm, ?_, ?_, ?_, hfed, hbound, inside_main h hm, ?_, ?_, joined_main h hm⟩
  · intro i hi
    have hfound := h.found i ((hr.pop i).mp hi)
    rw [hqueue]
    exact List.append_ne_nil_of_left_ne_nil hfound new
  · intro i hi
    exact h.running i ((hr.aborted i).mp hi)
  · rw [htaken, hqueue, hpushed, ← h.fifo, List.append_assoc]
  · intro i
    rw [htaken]
    exact hr.books (h.books i)
  · intro k hk i hi
    cases hm with
    | create j hpc =>
      cases hk
      have hij : i ≠ j := by
        rintro rfl
        omega
      simp only [Function.update_of_ne hij]
      exact h.unborn j hpc i (by omega)
    | pillsDone j hpc hj => cases task <;> cases hk
    | push element hpc => cases task <;> cases hk
    | unlock element hpc => cases element <;> cases hk
    | _ => cases hk

theorem consumer (h : Inv n s) {i : Fin c} {srv' : Server c} {consumer' : Consumer}
    (hm : ConsumerMove task i s.shared (s.locals i) srv' consumer') :
    Inv n ⟨srv', Function.update s.locals i consumer'⟩ := by
  obtain ⟨hmain, hpushed⟩ := hm.frame
  obtain ⟨hexited, hborn⟩ := hm.not_exited
  refine ⟨guards_consumer h hm, found_consumer h hm, ?_, ?_, ?_, ?_, ?_, ?_, ?_, ?_⟩
  · intro j
    by_cases hji : j = i
    · subst hji
      simpa using running_consumer h hm
    · simpa [hji] using h.running j
  · rw [hm.fifo, hpushed]
    exact h.fifo
  · rw [hpushed, hmain]
    exact h.fed
  · rw [hmain]
    exact h.bound
  · rw [hmain]
    exact h.inside
  · intro j
    by_cases hji : j = i
    · subst hji
      simpa using hm.books (h.books j)
    · simpa [hji, hm.share_other hji] using h.books j
  · intro k hk j hj
    rw [hmain] at hk
    have hji : j ≠ i := by
      rintro rfl
      exact hborn (h.unborn k hk j hj)
    simpa [hji] using h.unborn k hk j hj
  · apply h.joined.keep hmain
    intro j hj
    have hji : j ≠ i := by
      rintro rfl
      exact hexited hj
    exact Function.update_of_ne hji _ _

theorem spurious (h : Inv n s) {i : Fin c} (hpc : (s.locals i).pc = .sleep) :
    Inv n ⟨s.shared, Function.update s.locals i ((s.locals i).goto .relock)⟩ := by
  have hr : Restarted s.locals (Function.update s.locals i ((s.locals i).goto .relock)) :=
    restarted_update (by rw [hpc]; rfl) rfl
  refine ⟨?_, fun j hj => h.found j ((hr.pop j).mp hj), fun j hj => ?_, h.fifo, h.fed, h.bound,
    h.inside, fun j => hr.books (h.books j), ?_, ?_⟩
  · rw [sections_main hr]
    exact h.guards.stay (by simp [sections])
  · exact h.running j ((hr.aborted j).mp hj)
  · intro k hk j hj
    have hji : j ≠ i := by
      rintro rfl
      rw [h.unborn k hk j hj] at hpc
      cases hpc
    simpa [hji] using h.unborn k hk j hj
  · refine Joined.keep h.joined (by rfl) ?_
    intro j hj
    have hji : j ≠ i := by
      rintro rfl
      rw [hj] at hpc
      cases hpc
    exact Function.update_of_ne hji _ _

theorem step {a : Action c} (h : Inv n s) (ht : step task n s a = some t) : Inv n t := by
  cases step_move ht with
  | main hm => exact h.main hm
  | consumer i hm => exact h.consumer hm
  | spurious i hpc => exact h.spurious hpc

theorem init : Inv n (init c) := by
  refine ⟨?_, fun i hi => ?_, fun i hi => ?_, rfl, rfl, trivial, n.zero_le,
    fun i => ⟨rfl, le_refl 0, rfl⟩, fun _ _ _ _ => rfl, trivial⟩
  · intro owner howner
    cases owner <;> cases howner
  · cases hi
  · cases hi

end Inv

end PsOs.ProducerConsumer
