import Mathlib.Algebra.Order.BigOperators.Group.Finset
import PsOs.PipelineInvariant

namespace PsOs.Pipelines

open TransitionSystems

variable {β S : Type} {n cap : ℕ} {F : ℕ → Filter β S} {f : ℕ → List β → List β} {plan : Plan n}
  {s t : State n β S}

def inputs (f : ℕ → List β → List β) : ℕ → List β
  | 0 => []
  | p + 1 => stream f p

theorem stream_eq (f : ℕ → List β → List β) (p : ℕ) : stream f p = f p (inputs f p) := by
  cases p <;> rfl

theorem Inv.init (hplan : plan.Plumbed) : Inv F f plan (plan.init : State n β S) := by
  obtain ⟨hroot, hnodup⟩ := List.nodup_cons.mp hplan.once
  have hphase : ∀ p, p ≠ plan.root →
      (plan.init : State n β S).procs p = ⟨.unborn, [], [], source p, []⟩ :=
    fun p hp => if_neg hp
  have hrootProc : (plan.init : State n β S).procs plan.root =
      ⟨plan.enter plan.births plan.root, plan.table, [], source plan.root, []⟩ := if_pos rfl
  have hdata : ∀ p, ((plan.init : State n β S).procs p).consumed = [] ∧
      ((plan.init : State n β S).procs p).eof = source p ∧
      ((plan.init : State n β S).procs p).emitted = [] := by
    intro p
    by_cases hp : p = plan.root
    · rw [hp, hrootProc]
      exact ⟨rfl, rfl, rfl⟩
    · rw [hphase p hp]
      exact ⟨rfl, rfl, rfl⟩
  have honly : ∀ p, ((plan.init : State n β S).procs p).phase = .forking → p = plan.root := by
    intro p hp
    by_contra hne
    rw [hphase p hne] at hp
    cases hp
  refine ⟨fun p => ?_, ⟨hnodup, fun p => ?_, fun hb => ⟨plan.root, ?_⟩, fun p hp => ?_, ?_⟩, ?_⟩
  · by_cases hp : p = plan.root
    · rw [hp, hrootProc]
      exact ok_enter _ rfl rfl ⟨rfl, rfl, rfl⟩
    · rw [hphase p hp]
      exact ⟨rfl, rfl, rfl, rfl⟩
  · by_cases hp : p = plan.root
    · rw [hp, hrootProc]
      exact iff_of_false enter_ne_unborn hroot
    · rw [hphase p hp]
      exact iff_of_true rfl ((List.mem_cons.mp (hplan.all p)).resolve_left hp)
  · rw [hrootProc]
    exact enter_eq_forking.mpr hb
  · rw [honly p hp, hrootProc] at hp
    exact enter_eq_forking.mp hp
  · exact fun p q hp hq => (honly p hp).trans (honly q hq).symm
  · refine ⟨fun p _ => (hdata p).1, fun p q _ => ?_, fun p _ => (hdata p).2.2, fun p q hq heof => ?_⟩
    · rw [(hdata p).2.2, (hdata q).1]
      rfl
    · rw [(hdata q).2.1, source, decide_eq_true_iff] at heof
      omega

structure OnTrack (f : ℕ → List β → List β) (s : State n β S) (p : Fin n) : Prop where
  consumed : (s.procs p).consumed <+: inputs f p
  whole : (s.procs p).eof = true → (s.procs p).consumed = inputs f p
  emitted : (s.procs p).emitted <+: stream f p
  done : (s.procs p).phase = .exited → (s.procs p).emitted = stream f p

theorem Inv.onTrack_of_input (h : Inv F f plan s) (hF : Expected n F f) {p : Fin n}
    (hconsumed : (s.procs p).consumed <+: inputs f p)
    (hwhole : (s.procs p).eof = true → (s.procs p).consumed = inputs f p) : OnTrack f s p := by
  have hok := h.procs p
  unfold ProcOk at hok
  have hfresh : Fresh p (s.procs p) → (s.procs p).emitted <+: stream f p := by
    rintro ⟨-, -, hemitted⟩
    rw [hemitted]
    exact List.nil_prefix
  split at hok
  case h_1 hphase | h_2 hphase | h_3 hphase =>
    exact ⟨hconsumed, hwhole, hfresh hok.2, fun hexited => by rw [hphase] at hexited; cases hexited⟩
  case h_4 hphase =>
    refine ⟨hconsumed, hwhole, ?_, fun hexited => by rw [hphase] at hexited; cases hexited⟩
    have hruns := hok.2
    rw [stream_eq]
    cases heof : (s.procs p).eof with
    | true =>
      rw [heof] at hruns
      rw [← hwhole heof]
      exact (hF p).late hruns
    | false =>
      rw [heof] at hruns
      obtain ⟨more, hmore⟩ := hconsumed
      rw [← hmore]
      exact (hF p).early hruns more
  case h_5 =>
    have hall : (s.procs p).emitted = stream f p := by rw [stream_eq, ← hwhole hok.2.1, hok.2.2]
    exact ⟨hconsumed, hwhole, hall ▸ List.prefix_refl _, fun _ => hall⟩

theorem Inv.onTrack (h : Inv F f plan s) (hF : Expected n F f) (p : Fin n) : OnTrack f s p := by
  obtain ⟨k, hk⟩ := p
  induction k with
  | zero =>
    have hnone := h.flow.first ⟨0, hk⟩ rfl
    apply h.onTrack_of_input hF
    · rw [hnone]
      exact List.nil_prefix
    · exact fun _ => hnone
  | succ k ih =>
    have hprev := ih (by omega)
    have hpipe := h.flow.pipe ⟨k, by omega⟩ ⟨k + 1, hk⟩ rfl
    apply h.onTrack_of_input hF
    · exact List.IsPrefix.trans ⟨_, hpipe.symm⟩ hprev.emitted
    · intro heof
      obtain ⟨hexited, hempty⟩ := h.flow.ended ⟨k, by omega⟩ ⟨k + 1, hk⟩ rfl heof
      rw [hempty, List.append_nil, hprev.done hexited] at hpipe
      exact hpipe.symm

section Progress

variable {p : Fin n} {state : S}

theorem enabled_forking (h : Inv F f plan s) (hp : (s.procs p).phase = .forking) :
    (step cap F plan s ⟨p, 0⟩).isSome := by
  obtain ⟨child, births, hbirths⟩ := List.exists_cons_of_ne_nil (h.family.forking p hp)
  simp [step, hp, hbirths]

theorem enabled_setup {calls : List Call} (hp : (s.procs p).phase = .setup calls) :
    (step cap F plan s ⟨p, 0⟩).isSome := by
  cases calls <;> simp [step, hp]

theorem Inv.enabled_output (h : Inv F f plan s) (hF : Expected n F f) (hcap : 0 < cap)
    (hp : (s.procs p).phase = .running state) (hroom : p.val + 1 < n → s.pipes p = [])
    (hrequest : (F p).request state ≠ .read) : ∃ a, (step cap F plan s a).isSome := by
  obtain ⟨hwired, hruns⟩ := h.running hp
  cases hr : (F p).request state with
  | read => exact absurd hr hrequest
  | exit => exact ⟨⟨p, 0⟩, by simp [step, hp, hr]⟩
  | write bytes =>
    have hbytes := List.length_pos_of_ne_nil ((hF p).writing hruns hr)
    have hout := hwired.get_one
    refine ⟨⟨p, 1⟩, ?_⟩
    simp only [step, hp, hr, stepWrite, hout, stdout]
    by_cases hlast : p.val + 1 = n
    · simp [hlast, Nat.one_le_iff_ne_zero.mpr hbytes.ne']
    · have hempty := hroom (by omega)
      by_cases hheld : Held s (.readEnd p)
      · simp [hlast, hheld, hempty, Nat.one_le_iff_ne_zero.mpr hbytes.ne', hcap, Nat.succ_le_iff]
      · simp [hlast, hheld]

theorem Inv.enabled_running (h : Inv F f plan s) (hF : Expected n F f) (hcap : 0 < cap)
    (hall : ∀ p, (∃ state, (s.procs p).phase = .running state) ∨ (s.procs p).phase = .exited)
    (hp : (s.procs p).phase = .running state) (hroom : p.val + 1 < n → s.pipes p = []) :
    ∃ a, (step cap F plan s a).isSome := by
  induction hk : p.val generalizing p state with
  | zero =>
    apply h.enabled_output hF hcap hp hroom
    intro hread
    have hruns := (h.running hp).2
    have heof := hruns.of_source (decide_eq_true hk)
    rw [(hF p).reading hruns hread] at heof
    cases heof
  | succ k ih =>
    by_cases hread : (F p).request state = .read
    · have hin := (h.running hp).1.get_zero
      rw [hk, stdin] at hin
      by_cases hempty : s.pipes k = []
      · by_cases hheld : Held s (.writeEnd k)
        · obtain ⟨q, hq, state', hrunning⟩ := h.writer hheld hall
          exact ih hrunning (fun _ => hq ▸ hempty) hq
        · exact ⟨⟨p, 0⟩, by simp [step, hp, hread, stepRead, hin, hempty, hheld]⟩
      · have hlen := List.length_pos_of_ne_nil hempty
        refine ⟨⟨p, 1⟩, ?_⟩
        simp [step, hp, hread, stepRead, hin, hempty, Nat.one_le_iff_ne_zero.mpr hlen.ne']
    · exact h.enabled_output hF hcap hp hroom hread

theorem Inv.last_running (h : Inv F f plan s)
    (hall : ∀ p, (∃ state, (s.procs p).phase = .running state) ∨ (s.procs p).phase = .exited)
    (hp : (s.procs p).phase = .running state) :
    ∃ q : Fin n, q.val + 1 = n ∧ ∃ state, (s.procs q).phase = .running state := by
  induction hk : n - 1 - p.val generalizing p state with
  | zero => exact ⟨p, by omega, state, hp⟩
  | succ k ih =>
    let q : Fin n := ⟨p.val + 1, by omega⟩
    rcases hall q with ⟨state', hq⟩ | hexited
    · exact ih hq (by simp only [q]; omega)
    · have hok := h.procs q
      unfold ProcOk at hok
      rw [hexited] at hok
      exact absurd hok.2.1 (h.successor_open hp rfl)

theorem Inv.exists_step (h : Inv F f plan s) (hF : Expected n F f) (hcap : 0 < cap)
    (hleft : (s.procs p).phase ≠ .exited) : ∃ a, (step cap F plan s a).isSome := by
  by_cases hforking : ∃ q, (s.procs q).phase = .forking
  · obtain ⟨q, hq⟩ := hforking
    exact ⟨⟨q, 0⟩, enabled_forking h hq⟩
  by_cases hsetup : ∃ q calls, (s.procs q).phase = .setup calls
  · obtain ⟨q, calls, hq⟩ := hsetup
    exact ⟨⟨q, 0⟩, enabled_setup hq⟩
  have hall : ∀ q, (∃ state, (s.procs q).phase = .running state) ∨ (s.procs q).phase = .exited := by
    intro q
    cases hq : (s.procs q).phase with
    | unborn =>
      have hb := List.ne_nil_of_mem ((h.family.unborn q).mp hq)
      exact absurd (h.family.forker hb) hforking
    | forking => exact absurd ⟨q, hq⟩ hforking
    | setup calls => exact absurd ⟨q, calls, hq⟩ hsetup
    | running state => exact .inl ⟨state, rfl⟩
    | exited => exact .inr rfl
  obtain ⟨state, hp⟩ := (hall p).resolve_right hleft
  obtain ⟨q, hlast, state', hq⟩ := h.last_running hall hp
  exact h.enabled_running hF hcap hall hq fun hlt => absurd hlast (by omega)

end Progress

section Measure

def Phase.cost (script : ℕ) : Phase S → ℕ
  | .unborn => script + 4
  | .forking => script + 3
  | .setup calls => calls.length + 2
  | .running _ => 1
  | .exited => 0

def weight (f : ℕ → List β → List β) (plan : Plan n) (p : Fin n) (proc : Proc β S) : ℕ :=
  proc.phase.cost (plan.script p).length + ((inputs f p).length - proc.consumed.length) +
    (if proc.eof = true then 0 else 1) + ((stream f p).length - proc.emitted.length)

def measure (f : ℕ → List β → List β) (plan : Plan n) (s : State n β S) : ℕ :=
  ∑ p, weight f plan p (s.procs p)

def Plan.work (f : ℕ → List β → List β) (plan : Plan n) : ℕ :=
  ∑ p : Fin n, ((plan.script p).length + (inputs f p).length + (stream f p).length + 5)

theorem measure_init_le : measure f plan (plan.init : State n β S) ≤ plan.work f := by
  apply Finset.sum_le_sum
  intro p _
  have hcost : ∀ births (q : Fin n),
      (plan.enter births q : Phase S).cost (plan.script q).length ≤ (plan.script q).length + 4 := by
    intro births q
    unfold Plan.enter
    split <;> simp only [Phase.cost] <;> omega
  have hphase : ((plan.init : State n β S).procs p).phase.cost (plan.script p).length ≤
      (plan.script p).length + 4 := by
    unfold Plan.init
    dsimp only
    split
    · exact hcost _ p
    · exact le_rfl
  unfold weight
  split <;> omega

theorem measure_set_lt {p : Fin n} {proc : Proc β S} {pipes : ℕ → List β} {output : List β}
    (h : weight f plan p proc < weight f plan p (s.procs p)) :
    measure f plan ({ s with pipes, output }.set p proc) < measure f plan s := by
  apply Finset.sum_lt_sum
  · intro q _
    by_cases hq : q = p
    · subst hq
      simpa [State.set] using h.le
    · simp [State.set, Function.update_of_ne hq]
  · exact ⟨p, Finset.mem_univ p, by simpa [State.set] using h⟩

theorem Inv.measure_fork_lt (h : Inv F f plan s) {p child : Fin n} {births : List (Fin n)}
    (hp : (s.procs p).phase = .forking) (hbirths : s.births = child :: births) :
    measure f plan (({ s with births }.set p
      { s.procs p with phase := .setup (plan.script p) }).set child
        ⟨plan.enter births child, (s.procs p).table, [], source child, []⟩) < measure f plan s := by
  have hchild : (s.procs child).phase = .unborn :=
    (h.family.unborn child).mpr (by rw [hbirths]; exact List.mem_cons_self ..)
  have hne : child ≠ p := by
    rintro rfl
    rw [hp] at hchild
    cases hchild
  have hf : Forked plan p child births s _ := forked_set hne
  have hok := h.procs child
  unfold ProcOk at hok
  rw [hchild] at hok
  obtain ⟨-, hconsumed, heof, hemitted⟩ := hok
  have hlt : ∀ q, q = p ∨ q = child → weight f plan q ((({ s with births }.set p
      { s.procs p with phase := .setup (plan.script p) }).set child
        ⟨plan.enter births child, (s.procs p).table, [], source child, []⟩).procs q) <
          weight f plan q (s.procs q) := by
    rintro q (rfl | rfl)
    · rw [hf.parent]
      simp only [weight, hp, Phase.cost]
      omega
    · rw [hf.born]
      simp only [weight, hchild, hconsumed, heof, hemitted, Plan.enter]
      split <;> simp only [Phase.cost] <;> omega
  apply Finset.sum_lt_sum
  · intro q _
    by_cases hq : q = p ∨ q = child
    · exact (hlt q hq).le
    · obtain ⟨hqp, hqc⟩ := not_or.mp hq
      rw [hf.others q hqp hqc]
  · exact ⟨p, Finset.mem_univ p, hlt p (.inl rfl)⟩

theorem Inv.measure_lt (h : Inv F f plan s) (hplan : plan.Plumbed) (hF : Expected n F f)
    {p : Fin n} (hm : Move cap F plan s p t) : measure f plan t < measure f plan s := by
  have hafter := (h.move hplan hF hm).onTrack hF p
  have hconsumed := hafter.consumed.length_le
  have hemitted := hafter.emitted.length_le
  cases hm with
  | fork child births hp hbirths => exact h.measure_fork_lt hp hbirths
  | call c calls hp =>
    apply measure_set_lt
    simp only [weight, hp, Phase.cost, List.length_cons]
    omega
  | exec hp =>
    apply measure_set_lt
    simp only [weight, hp, Phase.cost, List.length_nil]
    omega
  | exit state hp hrequest | killed state bytes pipe hp =>
    apply measure_set_lt
    simp only [weight, hp, Phase.cost]
    omega
  | eof state pipe hp hrequest hin hempty hclosed =>
    have heof := (hF p).reading (h.running hp).2 hrequest
    apply measure_set_lt
    simp only [weight, hp, heof, Phase.cost]
    simp
  | read state pipe k hp hrequest hin hpos hk =>
    apply measure_set_lt
    simp only [State.set, Function.update_self, List.length_append, List.length_take] at hconsumed
    simp only [weight, hp, Phase.cost, List.length_append, List.length_take]
    omega
  | write state bytes pipe k hp hrequest hout hpos hk hroom =>
    apply measure_set_lt
    simp only [State.set, Function.update_self, List.length_append, List.length_take] at hemitted
    simp only [weight, hp, Phase.cost, List.length_append, List.length_take]
    omega
  | print state bytes k hp hrequest hout hpos hk =>
    apply measure_set_lt
    simp only [State.set, Function.update_self, List.length_append, List.length_take] at hemitted
    simp only [weight, hp, Phase.cost, List.length_append, List.length_take]
    omega

end Measure

/-- Whatever the order of the steps and the sizes of the reads and writes, the pipeline writes the
output of its last filter, never gets stuck and ends. -/
theorem delivers (hplan : plan.Plumbed) (hF : Expected n F f) (hcap : 0 < cap) {as : List (Action n)}
    (hrun : run (step cap F plan) plan.init as = some t) :
    t.output <+: stream f (n - 1) ∧ as.length ≤ plan.work f ∧
      ((∀ a, step cap F plan t a = none) →
        (∀ p, (t.procs p).phase = .exited) ∧ t.output = stream f (n - 1)) := by
  have hkeep : ∀ s a t, Inv F f plan s → step cap F plan s a = some t → Inv F f plan t :=
    fun s a t hs ht => hs.move hplan hF (step_move ht)
  have hinv : Inv F f plan t :=
    (reachable_of_run hrun).invariant (Inv F f plan) (.init hplan) hkeep
  let last : Fin n := ⟨n - 1, Nat.sub_one_lt plan.root.pos.ne'⟩
  have hlast : last.val + 1 = n := Nat.succ_pred_eq_of_pos plan.root.pos
  have houtput := hinv.flow.last last hlast
  have htrack := hinv.onTrack hF last
  refine ⟨houtput ▸ htrack.emitted, ?_, fun hend => ?_⟩
  · have hle := length_le_of_run (m := measure f plan) hkeep
      (fun s a t hs ht => hs.measure_lt hplan hF (step_move ht)) (.init hplan) hrun
    exact hle.trans measure_init_le
  · have hexited : ∀ p, (t.procs p).phase = .exited := by
      intro p
      by_contra hleft
      obtain ⟨a, ha⟩ := hinv.exists_step hF hcap hleft
      rw [hend a] at ha
      cases ha
    exact ⟨hexited, houtput ▸ htrack.done (hexited last)⟩

end PsOs.Pipelines
