import Mathlib.Data.Sym.Sym2
import PsOs.BeehiveAccounting
import PsOs.BeehiveNeighbours
import PsOs.GridEdges

/-!
The pushes over a whole run. All bees together harvest and report like a single one, because they
do it inside of the section that `field_mutex` guards.
-/

namespace PsOs.Beehive

open Grid Threads TransitionSystems

variable {N : ℕ} {dim : FieldGeometry}

/-- Where the only bee at the field stands: entry `k` is the next one of the harvested `pos`. -/
inductive Scan where
  | outside
  | examine (pos k : ℕ)
  | push (pos : ℕ) (k : Fin 4)

def Bee.scan (b : Bee) : Scan :=
  match b.pc with
  | .collect pos => .examine pos 0
  | .examine pos k => .examine pos k
  | .push pos k | .inPush pos k => .push pos k
  | _ => .outside

def Hive.scan (h : Hive N) (f : Fin N → Bee) : Scan :=
  match h.fieldMutex with
  | none => .outside
  | some i => (f i).scan

abbrev Reported := List (ℕ × ℕ)

inductive ScanMove (dim : FieldGeometry) :
    (ℕ → Bool) → Reported → Scan → (ℕ → Bool) → Reported → Scan → Prop
  | stay (n : ℕ → Bool) (r : Reported) (c : Scan) : ScanMove dim n r c n r c
  | harvest (n : ℕ → Bool) (r : Reported) (pos : ℕ) (hpos : pos < dim.size) (hn : n pos = true) :
      ScanMove dim n r .outside (Function.update n pos false) r (.examine pos 0)
  | skip (n : ℕ → Bool) (r : Reported) (pos : ℕ) (k : Fin 4)
      (hk : calculatePositions pos dim k = errorValue ∨ n (calculatePositions pos dim k) = false) :
      ScanMove dim n r (.examine pos k) n r (.examine pos (k + 1))
  | report (n : ℕ → Bool) (r : Reported) (pos : ℕ) (k : Fin 4)
      (hk : calculatePositions pos dim k ≠ errorValue)
      (hn : n (calculatePositions pos dim k) = true) :
      ScanMove dim n r (.examine pos k) n r (.push pos k)
  | push (n : ℕ → Bool) (r : Reported) (pos : ℕ) (k : Fin 4) :
      ScanMove dim n r (.push pos k) n (r ++ [(pos, calculatePositions pos dim k)])
        (.examine pos (k + 1))
  | finish (n : ℕ → Bool) (r : Reported) (pos k : ℕ) (hk : 4 ≤ k) :
      ScanMove dim n r (.examine pos k) n r .outside

def Scan.Covers (dim : FieldGeometry) (c : Scan) (p q : ℕ) : Prop :=
  match c with
  | .outside => False
  | .examine pos k => pos = p ∧ ∃ j : Fin 4, k ≤ j ∧ calculatePositions pos dim j = q
  | .push pos k => pos = p ∧ ∃ j : Fin 4, k ≤ j ∧ calculatePositions pos dim j = q

structure Fresh (dim : FieldGeometry) (n : ℕ → Bool) (r : Reported) (pos k : ℕ) : Prop where
  inField : pos < dim.size
  harvested : n pos = false
  unreported : ∀ j : Fin 4, k ≤ j → (pos, calculatePositions pos dim j) ∉ r

def Scan.Ok (dim : FieldGeometry) (n : ℕ → Bool) (r : Reported) (c : Scan) : Prop :=
  match c with
  | .outside => True
  | .examine pos k => Fresh dim n r pos k
  | .push pos k => Fresh dim n r pos k ∧ calculatePositions pos dim k ≠ errorValue ∧
      n (calculatePositions pos dim k) = true

structure ReportInv (dim : FieldGeometry) (n : ℕ → Bool) (r : Reported) (c : Scan) : Prop where
  once : r.Nodup
  adjacent : ∀ p q, (p, q) ∈ r → p < dim.size ∧ q < dim.size ∧ Adjacent dim.width p q
  harvested : ∀ p q, (p, q) ∈ r → n p = false
  oneWay : ∀ p q, (p, q) ∈ r → (q, p) ∉ r
  settled : ∀ p q, p < dim.size → q < dim.size → Adjacent dim.width p q → n p = false →
    n q = false → (p, q) ∈ r ∨ (q, p) ∈ r
  reported : ∀ p q, p < dim.size → q < dim.size → Adjacent dim.width p q → n p = false →
    n q = true → (p, q) ∈ r ∨ c.Covers dim p q
  scan : c.Ok dim n r

theorem ReportInv.init (hv : dim.Valid) :
    ReportInv dim (init dim N).shared.hasNectar [] .outside := by
  refine ⟨List.nodup_nil, ?_, ?_, ?_, ?_, ?_, trivial⟩
  · intro p q h
    cases h
  · intro p q h
    cases h
  · intro p q h
    cases h
  · intro p q hp _ _ hn
    rw [hv.init_hasNectar hp] at hn
    cases hn
  · intro p q hp _ _ hn
    rw [hv.init_hasNectar hp] at hn
    cases hn

section Scan

variable {n n' : ℕ → Bool} {r r' : Reported} {c c' : Scan}

theorem Fresh.next {pos : ℕ} {k : Fin 4} (h : Fresh dim n r pos k) : Fresh dim n r pos (k + 1) :=
  ⟨h.inField, h.harvested, fun j hj => h.unreported j (by omega)⟩

theorem Fresh.push {pos : ℕ} {k : Fin 4} (hv : dim.Valid) (h : Fresh dim n r pos k)
    (hk : calculatePositions pos dim k ≠ errorValue) :
    Fresh dim n (r ++ [(pos, calculatePositions pos dim k)]) pos (k + 1) := by
  refine ⟨h.inField, h.harvested, fun j hj => ?_⟩
  have hlt := hv.size_lt
  rw [List.mem_append, List.mem_singleton, Prod.mk.injEq, not_or]
  refine ⟨h.unreported j (by omega), ?_⟩
  rintro ⟨-, hentry⟩
  have hkj := entry_injective hv.width_pos (by omega) h.inField hk hentry.symm
  rw [hkj] at hj
  omega

theorem covers_skip {pos p q : ℕ} {k : Fin 4} (hv : dim.Valid) (hq : q < dim.size)
    (hn : n q = true)
    (hk : calculatePositions pos dim k = errorValue ∨ n (calculatePositions pos dim k) = false)
    (h : (Scan.examine pos k).Covers dim p q) : (Scan.examine pos (k + 1)).Covers dim p q := by
  obtain ⟨rfl, j, hkj, rfl⟩ := h
  have hne : j ≠ k := by
    rintro rfl
    obtain herr | hempty := hk
    · exact hv.ne_errorValue hq herr
    · rw [hempty] at hn
      cases hn
  exact ⟨rfl, j, by omega, rfl⟩

theorem ReportInv.harvest (hv : dim.Valid) {pos : ℕ} (h : ReportInv dim n r .outside)
    (hpos : pos < dim.size) (hn : n pos = true) :
    ReportInv dim (Function.update n pos false) r (.examine pos 0) := by
  have hmono : ∀ p, n p = false → Function.update n pos false p = false := by
    intro p hp
    by_cases hpp : p = pos
    · rw [hpp, Function.update_self]
    · rwa [Function.update_of_ne hpp]
  have hfrom : ∀ q, (pos, q) ∉ r := by
    intro q hmem
    rw [h.harvested pos q hmem] at hn
    cases hn
  refine ⟨h.once, h.adjacent, fun p q hmem => hmono p (h.harvested p q hmem), h.oneWay, ?_, ?_, ?_⟩
  · intro p q hp hq hadj hnp hnq
    by_cases hpp : p = pos
    · subst hpp
      rw [Function.update_of_ne hadj.ne.symm] at hnq
      exact .inr ((h.reported q p hq hp hadj.symm hnq hn).resolve_right id)
    · rw [Function.update_of_ne hpp] at hnp
      by_cases hqp : q = pos
      · subst hqp
        exact .inl ((h.reported p q hp hq hadj hnp hn).resolve_right id)
      · rw [Function.update_of_ne hqp] at hnq
        exact h.settled p q hp hq hadj hnp hnq
  · intro p q hp hq hadj hnp hnq
    have hqp : q ≠ pos := by
      rintro rfl
      rw [Function.update_self] at hnq
      cases hnq
    rw [Function.update_of_ne hqp] at hnq
    by_cases hpp : p = pos
    · subst hpp
      obtain ⟨j, hj⟩ := hv.exists_entry hp hq hadj
      exact .inr ⟨rfl, j, Nat.zero_le _, hj⟩
    · rw [Function.update_of_ne hpp] at hnp
      exact .inl ((h.reported p q hp hq hadj hnp hnq).resolve_right id)
  · exact ⟨hpos, Function.update_self .., fun j _ => hfrom _⟩

theorem ReportInv.push (hv : dim.Valid) {pos : ℕ} {k : Fin 4} (h : ReportInv dim n r (.push pos k)) :
    ReportInv dim n (r ++ [(pos, calculatePositions pos dim k)]) (.examine pos (k + 1)) := by
  obtain ⟨hfresh, hk, hn⟩ := h.scan
  obtain ⟨hentry, hadj⟩ := hv.adjacent_entry hfresh.inField hk
  have hnew : ∀ p q, (p, q) ∈ r ++ [(pos, calculatePositions pos dim k)] →
      (p, q) ∈ r ∨ p = pos ∧ q = calculatePositions pos dim k := by
    intro p q hmem
    rwa [List.mem_append, List.mem_singleton, Prod.mk.injEq] at hmem
  have hback : ∀ p, (calculatePositions pos dim k, p) ∉ r := by
    intro p hmem
    rw [h.harvested _ _ hmem] at hn
    cases hn
  refine ⟨?_, ?_, ?_, ?_, ?_, ?_, hfresh.push hv hk⟩
  · have hdisjoint := List.disjoint_singleton.mpr (hfresh.unreported k le_rfl)
    exact h.once.append (List.nodup_singleton _) hdisjoint
  · intro p q hmem
    obtain hold | ⟨rfl, rfl⟩ := hnew p q hmem
    · exact h.adjacent p q hold
    · exact ⟨hfresh.inField, hentry, hadj⟩
  · intro p q hmem
    obtain hold | ⟨rfl, -⟩ := hnew p q hmem
    · exact h.harvested p q hold
    · exact hfresh.harvested
  · intro p q hmem hmem'
    obtain hold | ⟨rfl, rfl⟩ := hnew p q hmem
    · obtain hold' | ⟨rfl, rfl⟩ := hnew q p hmem'
      · exact h.oneWay p q hold hold'
      · exact hback _ hold
    · obtain hold' | ⟨heq, -⟩ := hnew _ _ hmem'
      · exact hback _ hold'
      · exact hadj.ne heq.symm
  · intro p q hp hq hpq hnp hnq
    exact (h.settled p q hp hq hpq hnp hnq).imp (List.mem_append_left _) (List.mem_append_left _)
  · intro p q hp hq hpq hnp hnq
    obtain hold | ⟨rfl, j, hkj, rfl⟩ := h.reported p q hp hq hpq hnp hnq
    · exact .inl (List.mem_append_left _ hold)
    · by_cases hjk : j = k
      · rw [hjk]
        exact .inl (List.mem_append_right _ (List.mem_singleton_self _))
      · exact .inr ⟨rfl, j, by omega, rfl⟩

theorem ReportInv.step (hv : dim.Valid) (h : ReportInv dim n r c) (hm : ScanMove dim n r c n' r' c') :
    ReportInv dim n' r' c' := by
  cases hm with
  | stay => exact h
  | harvest pos hpos hn => exact h.harvest hv hpos hn
  | push pos k => exact h.push hv
  | skip pos k hk =>
    refine ⟨h.once, h.adjacent, h.harvested, h.oneWay, h.settled, ?_, Fresh.next h.scan⟩
    intro p q hp hq hadj hnp hnq
    exact (h.reported p q hp hq hadj hnp hnq).imp_right (covers_skip hv hq hnq hk)
  | report pos k hk hn =>
    exact ⟨h.once, h.adjacent, h.harvested, h.oneWay, h.settled, h.reported, h.scan, hk, hn⟩
  | finish pos k hk =>
    refine ⟨h.once, h.adjacent, h.harvested, h.oneWay, h.settled, ?_, trivial⟩
    intro p q hp hq hadj hnp hnq
    left
    obtain hmem | ⟨-, j, hkj, -⟩ := h.reported p q hp hq hadj hnp hnq
    · exact hmem
    · omega

end Scan

section Moves

variable {s t : State N} {i : Fin N} {h' : Hive N} {b' : Bee}

theorem scan_holder {h : Hive N} {f : Fin N → Bee} (hi : h.fieldMutex = some i) :
    h.scan f = (f i).scan := by
  rw [Hive.scan, hi]

theorem scan_other {h : Hive N} {f : Fin N → Bee} (hmutex : h'.fieldMutex = h.fieldMutex)
    (hi : h.fieldMutex ≠ some i) : h'.scan (Function.update f i b') = h.scan f := by
  rw [Hive.scan, Hive.scan, hmutex]
  cases hj : h.fieldMutex with
  | none => rfl
  | some j =>
    have hji : j ≠ i := by
      rintro rfl
      exact hi hj
    simp only [Function.update_of_ne hji]

theorem scan_move (h : AccountInv dim s) (hm : Move dim i s.shared (s.locals i) h' b') :
    ScanMove dim s.shared.hasNectar s.shared.reports (s.shared.scan s.locals) h'.hasNectar h'.reports
      (h'.scan (Function.update s.locals i b')) := by
  have hold : (s.locals i).AtField → s.shared.scan s.locals = (s.locals i).scan :=
    fun hat => scan_holder (h.field.field i hat)
  have hnew : (s.locals i).AtField → h'.fieldMutex = s.shared.fieldMutex →
      h'.scan (Function.update s.locals i b') = b'.scan := by
    intro hat hmutex
    rw [scan_holder (hmutex.trans (h.field.field i hat)), Function.update_self]
  have hother : s.shared.fieldMutex ≠ some i → h'.fieldMutex = s.shared.fieldMutex →
      h'.scan (Function.update s.locals i b') = s.shared.scan s.locals :=
    fun hi hmutex => scan_other hmutex hi
  cases hm with
  | lockField pos hpc hfree =>
    have hbefore : s.shared.scan s.locals = .outside := by rw [Hive.scan, hfree]
    have hafter : ({ s.shared with fieldMutex := some i } : Hive N).scan
        (Function.update s.locals i ((s.locals i).goto (.readNectar pos))) = .outside := by
      rw [scan_holder rfl, Function.update_self]
      rfl
    rw [hbefore, hafter]
    exact .stay _ _ _
  | unlockField hpc =>
    rw [hold (by simp [Bee.AtField, hpc]), Bee.scan, hpc]
    exact .stay _ _ _
  | hasNectar pos hpc hn | noNectar pos hpc hn =>
    have hat : (s.locals i).AtField := by simp [Bee.AtField, hpc]
    rw [hold hat, hnew hat rfl, Bee.scan, hpc]
    exact .stay _ _ _
  | clearNectar pos hpc =>
    have hat : (s.locals i).AtField := by simp [Bee.AtField, hpc]
    have hb := h.field.bees i
    simp only [Bee.InField, hpc] at hb
    rw [hold hat, hnew hat rfl, Bee.scan, hpc]
    exact .harvest _ _ pos hb (h.clears i pos hpc)
  | collect pos hpc | push pos k hpc =>
    have hat : (s.locals i).AtField := by simp [Bee.AtField, hpc]
    rw [hold hat, hnew hat rfl, Bee.scan, hpc]
    exact .stay _ _ _
  | skip pos k hpc hk =>
    have hat : (s.locals i).AtField := by simp [Bee.AtField, hpc]
    rw [hold hat, hnew hat rfl, Bee.scan, hpc]
    exact .skip _ _ pos k hk
  | report pos k hpc hk hn =>
    have hat : (s.locals i).AtField := by simp [Bee.AtField, hpc]
    rw [hold hat, hnew hat rfl, Bee.scan, hpc]
    exact .report _ _ pos k hk hn
  | pushed pos k hpc =>
    have hat : (s.locals i).AtField := by simp [Bee.AtField, hpc]
    rw [hold hat, hnew hat rfl, Bee.scan, hpc]
    exact .push _ _ pos k
  | examined pos k hpc hk =>
    have hat : (s.locals i).AtField := by simp [Bee.AtField, hpc]
    rw [hold hat, hnew hat rfl, Bee.scan, hpc]
    exact .finish _ _ pos k hk
  | _ =>
    have hi : s.shared.fieldMutex ≠ some i := by
      intro hi
      have hat := h.held i hi
      simp [Bee.AtField, *] at hat
    rw [hother hi rfl]
    exact .stay _ _ _

/-- The bees simulate the single scanner. -/
theorem scan_step {a : Action N} (h : AccountInv dim s) (ht : step dim s a = some t) :
    ScanMove dim s.shared.hasNectar s.shared.reports (s.shared.scan s.locals)
      t.shared.hasNectar t.shared.reports (t.shared.scan t.locals) := by
  obtain ⟨i, h', b', hm, rfl⟩ | ⟨-, main, flag, -, rfl⟩ := step_cases ht
  · exact scan_move h hm
  · exact .stay _ _ _

end Moves

section Count

variable {n : ℕ → Bool} {r : Reported} {c : Scan}

def ordered (e : ℕ × ℕ) : ℕ × ℕ := (min e.1 e.2, max e.1 e.2)

theorem ordered_eq {p q p' q' : ℕ} (h : ordered (p, q) = ordered (p', q')) :
    (p', q') = (p, q) ∨ (p', q') = (q, p) := by
  simp only [ordered, Prod.mk.injEq] at h ⊢
  omega

theorem ReportInv.nodup_ordered (h : ReportInv dim n r c) : (r.map ordered).Nodup := by
  apply List.Nodup.map_on _ h.once
  rintro ⟨p, q⟩ hmem ⟨p', q'⟩ hmem' heq
  obtain hsame | hswap := ordered_eq heq
  · exact hsame.symm
  · rw [hswap] at hmem'
    exact absurd hmem' (h.oneWay p q hmem)

theorem ReportInv.ordered_mem (h : ReportInv dim n r c) {e : ℕ × ℕ} (he : e ∈ r.map ordered) :
    e ∈ edges dim.width dim.size := by
  obtain ⟨⟨p, q⟩, hmem, rfl⟩ := List.mem_map.mp he
  obtain ⟨hp, hq, hadj⟩ := h.adjacent p q hmem
  have hne := hadj.ne
  rw [ordered, mem_edges]
  obtain hlt | hgt := Nat.lt_or_gt_of_ne hne
  · rw [min_eq_left hlt.le, max_eq_right hlt.le]
    exact ⟨hq, hlt, hadj⟩
  · rw [min_eq_right hgt.le, max_eq_left hgt.le]
    exact ⟨hp, hgt, hadj.symm⟩

theorem ReportInv.length_le (h : ReportInv dim n r c) :
    r.length ≤ (edges dim.width dim.size).card := by
  have hcard := List.toFinset_card_of_nodup h.nodup_ordered
  rw [List.length_map] at hcard
  rw [← hcard]
  exact Finset.card_le_card fun e he => h.ordered_mem (List.mem_toFinset.mp he)

theorem ReportInv.length_eq (h : ReportInv dim n r c) (hall : ∀ p < dim.size, n p = false) :
    r.length = (edges dim.width dim.size).card := by
  apply h.length_le.antisymm
  have hcard := List.toFinset_card_of_nodup h.nodup_ordered
  rw [List.length_map] at hcard
  rw [← hcard]
  apply Finset.card_le_card
  rintro ⟨p, q⟩ he
  obtain ⟨hq, hlt, hadj⟩ := mem_edges.mp he
  have hp := hlt.trans hq
  rw [List.mem_toFinset, List.mem_map]
  obtain hmem | hmem := h.settled p q hp hq hadj (hall p hp) (hall q hq)
  · exact ⟨(p, q), hmem, by rw [ordered, min_eq_left hlt.le, max_eq_right hlt.le]⟩
  · exact ⟨(q, p), hmem, by rw [ordered, min_eq_right hlt.le, max_eq_left hlt.le]⟩

theorem ReportInv.nodup_unordered (h : ReportInv dim n r c) : (r.map fun e => s(e.1, e.2)).Nodup := by
  apply List.Nodup.map_on _ h.once
  rintro ⟨p, q⟩ hmem ⟨p', q'⟩ hmem' heq
  obtain ⟨rfl, rfl⟩ | ⟨rfl, rfl⟩ := Sym2.eq_iff.mp heq
  · rfl
  · exact absurd hmem' (h.oneWay _ _ hmem)

end Count

def pushes (s : State N) : ℕ := s.shared.reports.length + 1

def flight (s : State N) : Action N → List ℤ
  | .bee turn => if (s.locals turn.bee).pc = .inPop then s.shared.queue.head?.toList else []
  | .main => []

def Balanced (flights : List ℤ) (s : State N) : Prop :=
  s.shared.queue.length + flights.length = pushes s

theorem stepMain_frame {s : State N} {h' : Hive N} (hm : stepMain dim s = some h') :
    h'.queue = s.shared.queue ∧ h'.reports = s.shared.reports := by
  unfold stepMain at hm
  cases hpc : s.shared.main <;> simp only [hpc] at hm
  case join i =>
    split at hm
    · split at hm <;> cases hm
      exact ⟨rfl, rfl⟩
    · cases hm
      exact ⟨rfl, rfl⟩
  case finished => cases hm
  all_goals
    cases hm
    exact ⟨rfl, rfl⟩

theorem balanced_step {flights : List ℤ} {s t : State N} {a : Action N} (h : Balanced flights s)
    (ht : step dim s a = some t) : Balanced (flights ++ flight s a) t := by
  unfold Balanced pushes at *
  rw [List.length_append]
  cases a with
  | main =>
    obtain ⟨h', hm, rfl⟩ := Option.map_eq_some_iff.mp ht
    obtain ⟨hqueue, hreports⟩ := stepMain_frame hm
    change h'.queue.length + (flights.length + 0) = h'.reports.length + 1
    rw [hqueue, hreports]
    exact h
  | bee turn =>
    obtain ⟨h', b', hstep, rfl⟩ := Config.move_eq_some.mp ht
    cases stepBee_move hstep with
    | popped value queue hpc hq =>
      rw [flight, if_pos hpc, hq]
      rw [hq, List.length_cons] at h
      simp only [List.head?_cons, Option.toList_some, List.length_singleton]
      omega
    | pushed pos k hpc =>
      rw [flight, if_neg (by rw [hpc]; exact Pc.noConfusion)]
      simp only [List.length_append, List.length_singleton, List.length_nil]
      omega
    | _ =>
      rw [flight, if_neg (by simp [*])]
      exact h

structure ReportCount (width height : ℕ) (s : State N) (flights : List ℤ) : Prop where
  once : ∀ p q, (s.shared.reports.map fun e => s(e.1, e.2)).count s(p, q) ≤ 1
  adjacent : ∀ p q, (p, q) ∈ s.shared.reports → Adjacent width p q
  atMost : pushes s ≤ 1 + (width * (height - 1) + height * (width - 1))
  exact : (∀ p < width * height, s.shared.hasNectar p = false) →
    pushes s = 1 + (width * (height - 1) + height * (width - 1))
  balance : s.shared.queue.length + flights.length = pushes s
  queue : s.shared.queue.length ≤ 1 + (width * (height - 1) + height * (width - 1))
  flights : flights.length ≤ 1 + (width * (height - 1) + height * (width - 1))

theorem reportCount_of_run {width height : ℕ} (hw : 1 ≤ width) (hh : 1 ≤ height)
    (hsize : width * height < 2 ^ 31) {as : List (Action N)} {s : State N}
    (h : run (step (globalField width height)) (init (globalField width height) N) as = some s) :
    ReportCount width height s
      (trace (step (globalField width height)) flight (init (globalField width height) N) as) := by
  have hv := globalField_valid hw hh hsize
  have hdim := globalField_eq hw hh hsize
  have hinv : AccountInv (globalField width height) s ∧ ReportInv (globalField width height)
      s.shared.hasNectar s.shared.reports (s.shared.scan s.locals) := by
    apply (reachable_of_run h).invariant (fun s => AccountInv (globalField width height) s ∧
      ReportInv (globalField width height) s.shared.hasNectar s.shared.reports
        (s.shared.scan s.locals))
    · exact ⟨.init hv, .init hv⟩
    · rintro s a t ⟨haccount, hreport⟩ ht
      exact ⟨haccount.step hv ht, hreport.step hv (scan_step haccount ht)⟩
  obtain ⟨-, hreport⟩ := hinv
  have hcard : (edges (globalField width height).width (globalField width height).size).card =
      width * (height - 1) + height * (width - 1) := by
    rw [hdim]
    exact card_edges hw
  have hinit : Balanced ([] : List ℤ) (init (globalField width height) N) := rfl
  have hbalance : Balanced (trace (step (globalField width height)) flight
      (init (globalField width height) N) as) s :=
    trace_invariant Balanced (fun _ _ _ _ hb ht => balanced_step hb ht) hinit h
  have hle : pushes s ≤ 1 + (width * (height - 1) + height * (width - 1)) := by
    have hlength := hreport.length_le
    rw [pushes, ← hcard]
    omega
  refine ⟨?_, ?_, hle, ?_, hbalance, ?_, ?_⟩
  · exact fun p q => List.nodup_iff_count_le_one.mp hreport.nodup_unordered _
  · intro p q hmem
    have hadj := (hreport.adjacent p q hmem).2.2
    rwa [hdim] at hadj
  · intro hall
    have hsizeEq : (globalField width height).size = width * height := by
      rw [hdim]
      rfl
    rw [pushes, ← hcard, hreport.length_eq (by rwa [hsizeEq]), Nat.add_comm]
  · rw [← hbalance] at hle
    omega
  · rw [← hbalance] at hle
    omega

theorem reportCount_twoCells : ∃ s : State 1,
    (s.shared.hasNectar 0 = false ∧ s.shared.hasNectar 1 = false) ∧
      ReportCount 2 1 s (trace (step (globalField 2 1)) flight (init (globalField 2 1) 1)
        (turns 0 60 0)) := by
  obtain ⟨s, hs, hp⟩ := (Option.any_eq_true (fun s : State 1 =>
      decide (s.shared.hasNectar 0 = false ∧ s.shared.hasNectar 1 = false))
    (run (step (globalField 2 1)) (init (globalField 2 1) 1) (turns 0 60 0))).mp (by decide +kernel)
  exact ⟨s, of_decide_eq_true hp, reportCount_of_run (by decide) (by decide) (by decide) hs⟩

end PsOs.Beehive
