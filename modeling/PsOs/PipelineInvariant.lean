import PsOs.Pipelines
import PsOs.Threads

namespace PsOs.Pipelines

open TransitionSystems

variable {β S : Type} {n cap : ℕ} {F : ℕ → Filter β S} {f : ℕ → List β → List β} {plan : Plan n}
  {s t : State n β S}

def Fresh (p : Fin n) (proc : Proc β S) : Prop :=
  proc.consumed = [] ∧ proc.eof = source p ∧ proc.emitted = []

def ProcOk (F : ℕ → Filter β S) (f : ℕ → List β → List β) (plan : Plan n) (p : Fin n)
    (proc : Proc β S) : Prop :=
  match proc.phase with
  | .unborn => proc.table = [] ∧ Fresh p proc
  | .forking => proc.table = plan.table ∧ Fresh p proc
  | .setup calls => (∃ k ≤ (plan.script p).length, calls = (plan.script p).drop k ∧
      proc.table = ((plan.script p).take k).foldl Call.apply plan.table) ∧ Fresh p proc
  | .running state => Wired n p proc.table ∧
      (F p).Runs (source p) state proc.consumed proc.eof proc.emitted
  | .exited => proc.table = [] ∧ proc.eof = true ∧ proc.emitted = f p proc.consumed

/-- Who is born: as long as there are births to come, exactly one process is about to fork. -/
structure Family (s : State n β S) : Prop where
  nodup : s.births.Nodup
  unborn : ∀ p, (s.procs p).phase = .unborn ↔ p ∈ s.births
  forker : s.births ≠ [] → ∃ p, (s.procs p).phase = .forking
  forking : ∀ p, (s.procs p).phase = .forking → s.births ≠ []
  single : ∀ p q, (s.procs p).phase = .forking → (s.procs q).phase = .forking → p = q

/-- What a process has written is what its successor has read and what is in the pipe. -/
structure Flow (s : State n β S) : Prop where
  first : ∀ p : Fin n, p.val = 0 → (s.procs p).consumed = []
  pipe : ∀ p q : Fin n, q.val = p.val + 1 →
    (s.procs p).emitted = (s.procs q).consumed ++ s.pipes p
  last : ∀ p : Fin n, p.val + 1 = n → (s.procs p).emitted = s.output
  ended : ∀ p q : Fin n, q.val = p.val + 1 → (s.procs q).eof = true →
    (s.procs p).phase = .exited ∧ s.pipes p = []

structure Inv (F : ℕ → Filter β S) (f : ℕ → List β → List β) (plan : Plan n) (s : State n β S) :
    Prop where
  procs : ∀ p, ProcOk F f plan p (s.procs p)
  family : Family s
  flow : Flow s

def Expected (n : ℕ) (F : ℕ → Filter β S) (f : ℕ → List β → List β) : Prop :=
  ∀ p : Fin n, (F p).Computes (f p) (source p)

section Tables

variable {p : ℕ} {table : Table} {e : End}

theorem Wired.get_zero (h : Wired n p table) : table.get 0 = some (stdin p) := by
  obtain ⟨hhead, -⟩ := h
  match table, hhead with
  | [_], hhead => simp at hhead
  | a :: b :: table, hhead =>
    simp only [List.take_succ_cons, List.take_zero, List.cons.injEq] at hhead
    exact hhead.1

theorem Wired.get_one (h : Wired n p table) : table.get 1 = some (stdout n p) := by
  obtain ⟨hhead, -⟩ := h
  match table, hhead with
  | [_], hhead => simp at hhead
  | a :: b :: table, hhead =>
    simp only [List.take_succ_cons, List.take_zero, List.cons.injEq] at hhead
    exact hhead.2.1

theorem Wired.mem (h : Wired n p table) (he : some e ∈ table) :
    e = stdin p ∨ e = stdout n p ∨ e = .terminal := by
  obtain ⟨hhead, htail⟩ := h
  rw [← List.take_append_drop 2 table, hhead, List.mem_append] at he
  rcases he with he | he
  · simp only [List.mem_cons, Option.some.injEq, List.not_mem_nil, or_false] at he
    exact he.imp_right .inl
  · rcases htail _ he with hnone | hterminal
    · cases hnone
    · exact .inr (.inr (Option.some.inj hterminal))

theorem mem_of_get {fd : ℕ} (h : table.get fd = some e) : some e ∈ table := by
  rw [Table.get, List.getD_eq_getElem?_getD] at h
  cases hget : table[fd]? with
  | none => simp [hget] at h
  | some entry =>
    rw [hget, Option.getD_some] at h
    exact h ▸ List.mem_of_getElem? hget

theorem Wired.keeps (h : Wired n p table) : Keeps n p table := by
  constructor
  · intro hp
    have hout := h.get_one
    rw [stdout, if_neg (by omega)] at hout
    exact mem_of_get hout
  · intro hp
    obtain ⟨p, rfl⟩ := Nat.exists_eq_add_one.mpr hp
    exact mem_of_get h.get_zero

end Tables

theorem Filter.Runs.of_source {F : Filter β S} {seen e : Bool} {state : S} {xs ys : List β}
    (h : F.Runs seen state xs e ys) (hseen : seen = true) : e = true := by
  induction h with
  | start => exact hseen
  | chunk _ _ _ _ ih => exact ih
  | eof => rfl
  | written _ _ _ _ _ ih => exact ih

section Ends

theorem Inv.keeps (h : Inv F f plan s) (hplan : plan.Plumbed) {p : Fin n}
    (hp : (s.procs p).phase ≠ .exited) :
    (p.val + 1 < n → Held s (.writeEnd p)) ∧ (0 < p.val → Held s (.readEnd (p - 1))) := by
  have hown : ∀ q, Keeps n p (s.procs q).table →
      (p.val + 1 < n → Held s (.writeEnd p)) ∧ (0 < p.val → Held s (.readEnd (p - 1))) :=
    fun q hq => ⟨fun hlt => ⟨q, hq.1 hlt⟩, fun hlt => ⟨q, hq.2 hlt⟩⟩
  have hstart := hplan.keeps p 0 (Nat.zero_le _)
  have hok := h.procs p
  unfold ProcOk at hok
  split at hok
  case h_1 hunborn =>
    obtain ⟨q, hq⟩ := h.family.forker (List.ne_nil_of_mem ((h.family.unborn p).mp hunborn))
    have hforker := h.procs q
    unfold ProcOk at hforker
    rw [hq] at hforker
    exact hown q (hforker.1 ▸ hstart)
  case h_2 => exact hown p (hok.1 ▸ hstart)
  case h_3 =>
    obtain ⟨⟨k, hk, -, htable⟩, -⟩ := hok
    exact hown p (htable ▸ hplan.keeps p k hk)
  case h_4 => exact hown p hok.1.keeps
  case h_5 hexited => exact absurd hexited hp

theorem Inv.writer (h : Inv F f plan s) {pipe : ℕ} (hheld : Held s (.writeEnd pipe))
    (hall : ∀ p, (∃ state, (s.procs p).phase = .running state) ∨ (s.procs p).phase = .exited) :
    ∃ p : Fin n, p.val = pipe ∧ ∃ state, (s.procs p).phase = .running state := by
  obtain ⟨p, hp⟩ := hheld
  have hok := h.procs p
  unfold ProcOk at hok
  rcases hall p with ⟨state, hrunning⟩ | hexited
  · rw [hrunning] at hok
    refine ⟨p, ?_, state, hrunning⟩
    rcases hok.1.mem hp with hin | hout | hterminal
    · cases hpval : p.val with
      | zero =>
        rw [hpval] at hin
        cases hin
      | succ k =>
        rw [hpval] at hin
        cases hin
    · unfold stdout at hout
      split at hout
      · cases hout
      · cases hout
        rfl
    · cases hterminal
  · rw [hexited] at hok
    rw [hok.1] at hp
    cases hp

end Ends

section Keep

variable {p : Fin n} {proc : Proc β S} {pipes : ℕ → List β} {output : List β}

def Phase.born : Phase S → Prop
  | .unborn | .forking => False
  | _ => True

theorem Family.set (h : Family s) (hold : (s.procs p).phase.born) (hnew : proc.phase.born) :
    Family ({ s with pipes, output }.set p proc) := by
  have hsame : ∀ phase : Phase S, ¬ phase.born → ∀ q,
      (Function.update s.procs p proc q).phase = phase ↔ (s.procs q).phase = phase := by
    intro phase hphase q
    by_cases hq : q = p
    · subst hq
      rw [Function.update_self]
      exact iff_of_false (fun heq => hphase (heq ▸ hnew)) fun heq => hphase (heq ▸ hold)
    · rw [Function.update_of_ne hq]
  have hunborn := hsame .unborn id
  have hforking := hsame .forking id
  refine ⟨h.nodup, fun q => (hunborn q).trans (h.unborn q), fun hb => ?_, fun q hq => ?_, ?_⟩
  · obtain ⟨q, hq⟩ := h.forker hb
    exact ⟨q, (hforking q).mpr hq⟩
  · exact h.forking q ((hforking q).mp hq)
  · intro q r hq hr
    exact h.single q r ((hforking q).mp hq) ((hforking r).mp hr)

theorem ok_set (h : ∀ q, ProcOk F f plan q (s.procs q)) (hproc : ProcOk F f plan p proc) (q : Fin n) :
    ProcOk F f plan q (({ s with pipes, output }.set p proc).procs q) := by
  by_cases hq : q = p
  · subst hq
    simpa [State.set] using hproc
  · simpa [State.set, Function.update_of_ne hq] using h q

theorem Flow.congr (h : Flow s) (hconsumed : ∀ q, (t.procs q).consumed = (s.procs q).consumed)
    (hemitted : ∀ q, (t.procs q).emitted = (s.procs q).emitted)
    (heof : ∀ q, (t.procs q).eof = (s.procs q).eof)
    (hexited : ∀ q, (s.procs q).phase = .exited → (t.procs q).phase = .exited)
    (hpipes : t.pipes = s.pipes) (houtput : t.output = s.output) : Flow t := by
  refine ⟨fun q hq => ?_, fun q r hqr => ?_, fun q hq => ?_, fun q r hqr hr => ?_⟩
  · rw [hconsumed, h.first q hq]
  · rw [hconsumed, hemitted, hpipes, h.pipe q r hqr]
  · rw [hemitted, houtput, h.last q hq]
  · rw [heof] at hr
    obtain ⟨hphase, hpipe⟩ := h.ended q r hqr hr
    exact ⟨hexited q hphase, hpipes ▸ hpipe⟩

theorem Flow.control (h : Flow s) (hlive : (s.procs p).phase ≠ .exited)
    (hdata : proc.consumed = (s.procs p).consumed ∧ proc.emitted = (s.procs p).emitted ∧
      proc.eof = (s.procs p).eof) : Flow (s.set p proc) := by
  obtain ⟨hconsumed, hemitted, heof⟩ := hdata
  apply h.congr
  · exact fun q => Threads.field_update Proc.consumed hconsumed q
  · exact fun q => Threads.field_update Proc.emitted hemitted q
  · exact fun q => Threads.field_update Proc.eof heof q
  · intro q hq
    by_cases hqp : q = p
    · exact absurd (hqp ▸ hq) hlive
    · simpa [State.set, Function.update_of_ne hqp] using hq
  · rfl
  · rfl

theorem Flow.close (h : Flow s) (hlive : (s.procs p).phase ≠ .exited)
    (hconsumed : proc.consumed = (s.procs p).consumed)
    (hemitted : proc.emitted = (s.procs p).emitted)
    (hended : ∀ q : Fin n, p.val = q.val + 1 → (s.procs q).phase = .exited ∧ s.pipes q = []) :
    Flow (s.set p proc) := by
  have hconsumed' := Threads.field_update Proc.consumed hconsumed
  have hemitted' := Threads.field_update Proc.emitted hemitted
  refine ⟨fun q hq => ?_, fun q r hqr => ?_, fun q hq => ?_, fun q r hqr hr => ?_⟩
  · simpa only [State.set, hconsumed'] using h.first q hq
  · simpa only [State.set, hconsumed', hemitted'] using h.pipe q r hqr
  · simpa only [State.set, hemitted'] using h.last q hq
  · have hold : (s.procs q).phase = .exited ∧ s.pipes q = [] := by
      by_cases hrp : r = p
      · exact hended q (hrp ▸ hqr)
      · simp only [State.set, Function.update_of_ne hrp] at hr
        exact h.ended q r hqr hr
    have hqp : q ≠ p := by
      rintro rfl
      exact hlive hold.1
    simpa only [State.set, Function.update_of_ne hqp] using hold

theorem Flow.consume {pipe k : ℕ} (h : Flow s) (hval : p.val = pipe + 1)
    (hlive : (s.procs p).phase ≠ .exited) (hopen : (s.procs p).eof = false)
    (hconsumed : proc.consumed = (s.procs p).consumed ++ (s.pipes pipe).take k)
    (hemitted : proc.emitted = (s.procs p).emitted) (heof : proc.eof = (s.procs p).eof) :
    Flow ({ s with
      pipes := Function.update s.pipes pipe ((s.pipes pipe).drop k) }.set p proc) := by
  have hemitted' := Threads.field_update Proc.emitted hemitted
  have heof' := Threads.field_update Proc.eof heof
  refine ⟨fun q hq => ?_, fun q r hqr => ?_, fun q hq => ?_, fun q r hqr hr => ?_⟩
  · have hqp : q ≠ p := by
      rintro rfl
      omega
    simpa only [State.set, Function.update_of_ne hqp] using h.first q hq
  · have hold := h.pipe q r hqr
    simp only [State.set, hemitted']
    by_cases hrp : r = p
    · subst hrp
      obtain rfl : q.val = pipe := by omega
      rw [Function.update_self, Function.update_self, hconsumed, List.append_assoc,
        List.take_append_drop]
      exact hold
    · have hne : q.val ≠ pipe := fun heq => hrp (Fin.ext (by omega))
      rwa [Function.update_of_ne hrp, Function.update_of_ne hne]
  · simpa only [State.set, hemitted'] using h.last q hq
  · simp only [State.set, heof'] at hr
    have hrp : r ≠ p := by
      rintro rfl
      rw [hopen] at hr
      cases hr
    have hne : q.val ≠ pipe := fun heq => hrp (Fin.ext (by omega))
    obtain ⟨hexited, hempty⟩ := h.ended q r hqr hr
    have hqp : q ≠ p := by
      rintro rfl
      exact hlive hexited
    simpa only [State.set, Function.update_of_ne hqp, Function.update_of_ne hne] using
      ⟨hexited, hempty⟩

theorem Flow.emit {bytes : List β} (h : Flow s)
    (hopen : ∀ q : Fin n, q.val = p.val + 1 → (s.procs q).eof ≠ true)
    (hemitted : proc.emitted = (s.procs p).emitted ++ bytes)
    (hconsumed : proc.consumed = (s.procs p).consumed) (heof : proc.eof = (s.procs p).eof)
    (hlive : (s.procs p).phase ≠ .exited) (hothers : ∀ k ≠ p.val, pipes k = s.pipes k)
    (hpipe : p.val + 1 < n → pipes p = s.pipes p ++ bytes)
    (houtput : output = if p.val + 1 = n then s.output ++ bytes else s.output) :
    Flow ({ s with pipes, output }.set p proc) := by
  have hconsumed' := Threads.field_update Proc.consumed hconsumed
  have heof' := Threads.field_update Proc.eof heof
  refine ⟨fun q hq => ?_, fun q r hqr => ?_, fun q hq => ?_, fun q r hqr hr => ?_⟩
  · simpa only [State.set, hconsumed'] using h.first q hq
  · have hold := h.pipe q r hqr
    simp only [State.set, hconsumed']
    by_cases hqp : q = p
    · subst hqp
      rw [Function.update_self, hemitted, hpipe (by omega), ← List.append_assoc, ← hold]
    · rwa [Function.update_of_ne hqp, hothers q fun heq => hqp (Fin.ext heq)]
  · have hold := h.last q hq
    simp only [State.set]
    by_cases hqp : q = p
    · subst hqp
      rw [Function.update_self, hemitted, hold, houtput, if_pos hq]
    · have hne : p.val + 1 ≠ n := fun heq => hqp (Fin.ext (by omega))
      rw [Function.update_of_ne hqp, hold, houtput, if_neg hne]
  · simp only [State.set, heof'] at hr
    obtain ⟨hexited, hempty⟩ := h.ended q r hqr hr
    have hqp : q ≠ p := by
      rintro rfl
      exact hlive hexited
    simp only [State.set, Function.update_of_ne hqp, hothers q fun heq => hqp (Fin.ext heq)]
    exact ⟨hexited, hempty⟩

end Keep

section Fork

variable {p child : Fin n} {births : List (Fin n)}

structure Forked (plan : Plan n) (p child : Fin n) (births : List (Fin n)) (s t : State n β S) :
    Prop where
  parent : t.procs p = { s.procs p with phase := .setup (plan.script p) }
  born : t.procs child = ⟨plan.enter births child, (s.procs p).table, [], source child, []⟩
  others : ∀ q, q ≠ p → q ≠ child → t.procs q = s.procs q
  rest : t.births = births

theorem forked_set (hne : child ≠ p) : Forked plan p child births s
    (({ s with births }.set p { s.procs p with phase := .setup (plan.script p) }).set child
      ⟨plan.enter births child, (s.procs p).table, [], source child, []⟩) := by
  refine ⟨?_, Function.update_self .., fun q hqp hqc => ?_, rfl⟩
  · exact (Function.update_of_ne hne.symm _ _).trans (Function.update_self ..)
  · exact (Function.update_of_ne hqc _ _).trans (Function.update_of_ne hqp _ _)

theorem enter_eq_forking : plan.enter births child = (.forking : Phase S) ↔ births ≠ [] := by
  unfold Plan.enter
  split <;> simp_all

theorem enter_ne_unborn : plan.enter births child ≠ (.unborn : Phase S) := by
  unfold Plan.enter
  split <;> simp

theorem ok_enter (proc : Proc β S) (hphase : proc.phase = plan.enter births child)
    (htable : proc.table = plan.table) (hfresh : Fresh child proc) : ProcOk F f plan child proc := by
  unfold ProcOk
  rw [hphase, Plan.enter]
  by_cases hb : births = []
  · rw [if_pos hb]
    exact ⟨⟨0, Nat.zero_le _, rfl, htable⟩, hfresh⟩
  · rw [if_neg hb]
    exact ⟨htable, hfresh⟩

theorem Family.fork (h : Family s) (hp : (s.procs p).phase = .forking)
    (hbirths : s.births = child :: births) (hf : Forked plan p child births s t) : Family t := by
  have hnodup := h.nodup
  rw [hbirths, List.nodup_cons] at hnodup
  have hphase : (t.procs child).phase = plan.enter births child := by rw [hf.born]
  have honly : ∀ q, (t.procs q).phase = .forking → q = child := by
    intro q hq
    by_contra hqc
    by_cases hqp : q = p
    · rw [hqp, hf.parent] at hq
      cases hq
    · rw [hf.others q hqp hqc] at hq
      exact hqp (h.single q p hq hp)
  refine ⟨hf.rest ▸ hnodup.2, fun q => ?_, fun hb => ⟨child, ?_⟩, fun q hq => ?_, fun q r hq hr => ?_⟩
  · rw [hf.rest]
    by_cases hqc : q = child
    · rw [hqc, hphase]
      exact iff_of_false enter_ne_unborn hnodup.1
    · have hold : (s.procs q).phase = .unborn ↔ q ∈ births := by
        rw [h.unborn q, hbirths, List.mem_cons]
        exact ⟨fun hmem => hmem.resolve_left hqc, .inr⟩
      by_cases hqp : q = p
      · rw [hqp, hp] at hold
        rw [hqp, ← hold, hf.parent]
        simp
      · rw [hf.others q hqp hqc, hold]
  · rw [hphase]
    exact enter_eq_forking.mpr (hf.rest ▸ hb)
  · have hq' := honly q hq
    rw [hq', hphase] at hq
    exact hf.rest ▸ enter_eq_forking.mp hq
  · exact (honly q hq).trans (honly r hr).symm

theorem Inv.fork (h : Inv F f plan s) (hp : (s.procs p).phase = .forking)
    (hbirths : s.births = child :: births) : Inv F f plan
      (({ s with births }.set p { s.procs p with phase := .setup (plan.script p) }).set child
        ⟨plan.enter births child, (s.procs p).table, [], source child, []⟩) := by
  have hchild : (s.procs child).phase = .unborn :=
    (h.family.unborn child).mpr (by rw [hbirths]; exact List.mem_cons_self ..)
  have hne : child ≠ p := by
    rintro rfl
    rw [hp] at hchild
    cases hchild
  have hf : Forked plan p child births s _ := forked_set hne
  have hparent := h.procs p
  have hfresh := h.procs child
  unfold ProcOk at hparent hfresh
  rw [hp] at hparent
  rw [hchild] at hfresh
  obtain ⟨-, hconsumed, heof, hemitted⟩ := hfresh
  have hdata : ∀ {γ : Type} (field : Proc β S → γ), field ⟨plan.enter births child,
      (s.procs p).table, [], source child, []⟩ = field (s.procs child) →
      field { s.procs p with phase := .setup (plan.script p) } = field (s.procs p) →
        ∀ q, field ((({ s with births }.set p
          { s.procs p with phase := .setup (plan.script p) }).set child
            ⟨plan.enter births child, (s.procs p).table, [], source child, []⟩).procs q) =
              field (s.procs q) := by
    intro γ field hc hpar q
    by_cases hqc : q = child
    · rw [hqc, hf.born, hc]
    · by_cases hqp : q = p
      · rw [hqp, hf.parent, hpar]
      · rw [hf.others q hqp hqc]
  refine ⟨fun q => ?_, h.family.fork hp hbirths hf, h.flow.congr ?_ ?_ ?_ (fun q hq => ?_) rfl rfl⟩
  · by_cases hqc : q = child
    · rw [hqc, hf.born]
      exact ok_enter _ rfl hparent.1 ⟨rfl, rfl, rfl⟩
    · by_cases hqp : q = p
      · rw [hqp, hf.parent]
        exact ⟨⟨0, Nat.zero_le _, rfl, hparent.1⟩, hparent.2⟩
      · rw [hf.others q hqp hqc]
        exact h.procs q
  · exact hdata Proc.consumed hconsumed.symm rfl
  · exact hdata Proc.emitted hemitted.symm rfl
  · exact hdata Proc.eof heof.symm rfl
  · rw [hf.others q]
    · exact hq
    · rintro rfl
      rw [hp] at hq
      cases hq
    · rintro rfl
      rw [hchild] at hq
      cases hq

end Fork

namespace Inv

variable {p : Fin n}

theorem call (h : Inv F f plan s) {c : Call} {calls : List Call}
    (hp : (s.procs p).phase = .setup (c :: calls)) : Inv F f plan (s.set p
      { s.procs p with phase := .setup calls, table := c.apply (s.procs p).table }) := by
  have hok := h.procs p
  unfold ProcOk at hok
  rw [hp] at hok
  obtain ⟨⟨k, hk, hcalls, htable⟩, hfresh⟩ := hok
  have hlt : k < (plan.script p).length := by
    by_contra hge
    rw [List.drop_eq_nil_of_le (by omega)] at hcalls
    cases hcalls
  rw [List.drop_eq_getElem_cons hlt] at hcalls
  obtain ⟨rfl, rfl⟩ := List.cons.inj hcalls
  refine ⟨ok_set h.procs ⟨⟨k + 1, hlt, rfl, ?_⟩, hfresh⟩, h.family.set ?_ trivial,
    h.flow.control (by simp [hp]) ⟨rfl, rfl, rfl⟩⟩
  · rw [List.take_succ_eq_append_getElem hlt, List.foldl_append, ← htable]
    rfl
  · rw [hp]
    trivial

theorem exec (h : Inv F f plan s) (hplan : plan.Plumbed) (hp : (s.procs p).phase = .setup []) :
    Inv F f plan (s.set p { s.procs p with phase := .running (F p).start }) := by
  have hok := h.procs p
  unfold ProcOk at hok
  rw [hp] at hok
  obtain ⟨⟨k, hk, hcalls, htable⟩, hconsumed, heof, hemitted⟩ := hok
  have hlen := List.drop_eq_nil_iff.mp hcalls.symm
  rw [List.take_of_length_le hlen] at htable
  refine ⟨ok_set h.procs ⟨?_, ?_⟩, h.family.set ?_ trivial,
    h.flow.control (by simp [hp]) ⟨rfl, rfl, rfl⟩⟩
  · change Wired n p (s.procs p).table
    rw [htable]
    exact hplan.wired p
  · change (F p).Runs (source p) (F p).start (s.procs p).consumed (s.procs p).eof (s.procs p).emitted
    rw [hconsumed, heof, hemitted]
    exact .start
  · rw [hp]
    trivial

section Running

variable {state : S}

theorem running (h : Inv F f plan s) (hp : (s.procs p).phase = .running state) :
    Wired n p (s.procs p).table ∧ (F p).Runs (source p) state (s.procs p).consumed (s.procs p).eof
      (s.procs p).emitted := by
  have hok := h.procs p
  unfold ProcOk at hok
  rwa [hp] at hok

theorem born_of_running (hp : (s.procs p).phase = .running state) : (s.procs p).phase.born := by
  rw [hp]
  trivial

theorem exit (h : Inv F f plan s) (hF : Expected n F f) (hp : (s.procs p).phase = .running state)
    (hrequest : (F p).request state = .exit) :
    Inv F f plan (s.set p { s.procs p with phase := .exited, table := [] }) := by
  obtain ⟨heof, hemitted⟩ := (hF p).exit (h.running hp).2 hrequest
  exact ⟨ok_set h.procs ⟨rfl, heof, hemitted⟩, h.family.set (born_of_running hp) trivial,
    h.flow.control (by simp [hp]) ⟨rfl, rfl, rfl⟩⟩

theorem reading (h : Inv F f plan s) {pipe : ℕ} (hp : (s.procs p).phase = .running state)
    (hin : (s.procs p).table.get 0 = some (.readEnd pipe)) : p.val = pipe + 1 := by
  have hstdin := Option.some.inj ((h.running hp).1.get_zero.symm.trans hin)
  cases hval : p.val with
  | zero =>
    rw [hval] at hstdin
    cases hstdin
  | succ k =>
    rw [hval] at hstdin
    cases hstdin
    rfl

theorem writing (h : Inv F f plan s) {pipe : ℕ} (hp : (s.procs p).phase = .running state)
    (hout : (s.procs p).table.get 1 = some (.writeEnd pipe)) : pipe = p.val ∧ p.val + 1 < n := by
  have hstdout := Option.some.inj ((h.running hp).1.get_one.symm.trans hout)
  unfold stdout at hstdout
  split at hstdout
  · cases hstdout
  · cases hstdout
    exact ⟨rfl, by omega⟩

theorem printing (h : Inv F f plan s) (hp : (s.procs p).phase = .running state)
    (hout : (s.procs p).table.get 1 = some .terminal) : p.val + 1 = n := by
  have hstdout := Option.some.inj ((h.running hp).1.get_one.symm.trans hout)
  unfold stdout at hstdout
  split at hstdout
  · assumption
  · cases hstdout

theorem reader_held (h : Inv F f plan s) (hplan : plan.Plumbed)
    (hp : (s.procs p).phase = .running state) (hlt : p.val + 1 < n) : Held s (.readEnd p) := by
  let q : Fin n := ⟨p.val + 1, hlt⟩
  have hq : (s.procs q).phase ≠ .exited := by
    intro hexited
    have hok := h.procs q
    unfold ProcOk at hok
    rw [hexited] at hok
    have hended := (h.flow.ended p q rfl hok.2.1).1
    rw [hp] at hended
    cases hended
  exact (h.keeps hplan hq).2 (Nat.succ_pos _)

theorem eof (h : Inv F f plan s) (hplan : plan.Plumbed) (hF : Expected n F f) {pipe : ℕ}
    (hp : (s.procs p).phase = .running state) (hrequest : (F p).request state = .read)
    (hin : (s.procs p).table.get 0 = some (.readEnd pipe)) (hempty : s.pipes pipe = [])
    (hclosed : ¬ Held s (.writeEnd pipe)) : Inv F f plan (s.set p
      { s.procs p with phase := .running ((F p).read state []), eof := true }) := by
  have hval := h.reading hp hin
  obtain ⟨hwired, hruns⟩ := h.running hp
  have heof := (hF p).reading hruns hrequest
  rw [heof] at hruns
  have hended : ∀ q : Fin n, p.val = q.val + 1 → (s.procs q).phase = .exited ∧ s.pipes q = [] := by
    intro q hq
    obtain rfl : q.val = pipe := by omega
    refine ⟨?_, hempty⟩
    by_contra hlive
    exact hclosed ((h.keeps hplan hlive).1 (by omega))
  exact ⟨ok_set h.procs ⟨hwired, hruns.eof hrequest⟩, h.family.set (born_of_running hp) trivial,
    h.flow.close (by simp [hp]) rfl rfl hended⟩

theorem successor_open (h : Inv F f plan s) (hp : (s.procs p).phase = .running state) {q : Fin n}
    (hq : q.val = p.val + 1) : (s.procs q).eof ≠ true := by
  intro heof
  have hended := (h.flow.ended p q hq heof).1
  rw [hp] at hended
  cases hended

theorem read (h : Inv F f plan s) (hF : Expected n F f) {pipe k : ℕ}
    (hp : (s.procs p).phase = .running state) (hrequest : (F p).request state = .read)
    (hin : (s.procs p).table.get 0 = some (.readEnd pipe)) (hpos : 0 < k)
    (hk : k ≤ (s.pipes pipe).length) : Inv F f plan
      ({ s with pipes := Function.update s.pipes pipe ((s.pipes pipe).drop k) }.set p
        { s.procs p with
          phase := .running ((F p).read state ((s.pipes pipe).take k))
          consumed := (s.procs p).consumed ++ (s.pipes pipe).take k }) := by
  have hval := h.reading hp hin
  obtain ⟨hwired, hruns⟩ := h.running hp
  have heof := (hF p).reading hruns hrequest
  rw [heof] at hruns
  have hbytes : (s.pipes pipe).take k ≠ [] := by
    rw [Ne, List.take_eq_nil_iff]
    rintro (rfl | hnil)
    · exact lt_irrefl 0 hpos
    · rw [hnil, List.length_nil] at hk
      omega
  refine ⟨ok_set h.procs ⟨hwired, ?_⟩, h.family.set (born_of_running hp) trivial,
    h.flow.consume hval (by simp [hp]) heof rfl rfl rfl⟩
  simpa only [heof] using hruns.chunk hrequest _ hbytes

theorem write (h : Inv F f plan s) {bytes : List β} {pipe k : ℕ}
    (hp : (s.procs p).phase = .running state) (hrequest : (F p).request state = .write bytes)
    (hout : (s.procs p).table.get 1 = some (.writeEnd pipe)) (hpos : 0 < k) (hk : k ≤ bytes.length) :
    Inv F f plan
      ({ s with pipes := Function.update s.pipes pipe (s.pipes pipe ++ bytes.take k) }.set p
        { s.procs p with
          phase := .running ((F p).written state k)
          emitted := (s.procs p).emitted ++ bytes.take k }) := by
  obtain ⟨rfl, hlt⟩ := h.writing hp hout
  obtain ⟨hwired, hruns⟩ := h.running hp
  refine ⟨ok_set h.procs ⟨hwired, hruns.written hrequest k hpos hk⟩,
    h.family.set (born_of_running hp) trivial, ?_⟩
  refine h.flow.emit (fun q hq => h.successor_open hp hq) rfl rfl rfl (by simp [hp]) ?_ ?_ ?_
  · exact fun k hk => Function.update_of_ne hk _ _
  · exact fun _ => Function.update_self ..
  · rw [if_neg (by omega)]

theorem print (h : Inv F f plan s) {bytes : List β} {k : ℕ}
    (hp : (s.procs p).phase = .running state) (hrequest : (F p).request state = .write bytes)
    (hout : (s.procs p).table.get 1 = some .terminal) (hpos : 0 < k) (hk : k ≤ bytes.length) :
    Inv F f plan ({ s with output := s.output ++ bytes.take k }.set p
      { s.procs p with
        phase := .running ((F p).written state k)
        emitted := (s.procs p).emitted ++ bytes.take k }) := by
  have hlast := h.printing hp hout
  obtain ⟨hwired, hruns⟩ := h.running hp
  refine ⟨ok_set h.procs ⟨hwired, hruns.written hrequest k hpos hk⟩,
    h.family.set (born_of_running hp) trivial, ?_⟩
  refine h.flow.emit (fun q hq => h.successor_open hp hq) rfl rfl rfl (by simp [hp]) ?_ ?_ ?_
  · exact fun _ _ => rfl
  · exact fun hlt => absurd hlast (by omega)
  · rw [if_pos hlast]

end Running

theorem move (h : Inv F f plan s) (hplan : plan.Plumbed) (hF : Expected n F f)
    (hm : Move cap F plan s p t) : Inv F f plan t := by
  cases hm with
  | fork child births hp hbirths => exact h.fork hp hbirths
  | call c calls hp => exact h.call hp
  | exec hp => exact h.exec hplan hp
  | exit state hp hrequest => exact h.exit hF hp hrequest
  | eof state pipe hp hrequest hin hempty hclosed =>
    exact h.eof hplan hF hp hrequest hin hempty hclosed
  | read state pipe k hp hrequest hin hpos hk => exact h.read hF hp hrequest hin hpos hk
  | killed state bytes pipe hp hrequest hout hclosed =>
    obtain ⟨rfl, hlt⟩ := h.writing hp hout
    exact absurd (h.reader_held hplan hp hlt) hclosed
  | write state bytes pipe k hp hrequest hout hpos hk hroom =>
    exact h.write hp hrequest hout hpos hk
  | print state bytes k hp hrequest hout hpos hk => exact h.print hp hrequest hout hpos hk

end Inv

end PsOs.Pipelines
