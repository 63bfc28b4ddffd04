import PsOs.FifoAccounting

namespace PsOs.FifoServer

open CStrings Decimals Lines Threads TransitionSystems

variable {n : ℕ} {s t : State n} {line : Line} {client : Client}

def Client.Gone (client : Client) : Prop := 0 < client.disconnects ∨ client.isOpen = false

instance : DecidablePred Client.Gone :=
  fun client => inferInstanceAs (Decidable (0 < client.disconnects ∨ client.isOpen = false))

structure Accurate (s : State n) : Prop where
  closed : s.shared.closed = tally Client.Gone s.locals
  once : ∀ i, (s.locals i).disconnects ≤ 1
  loops : s.shared.closed < n ↔ ∃ i, ¬ (s.locals i).Gone
  left : s.shared.pc = .cleanup → ∀ i, (s.locals i).Gone

def ReadsOneLine (s : State n) (a : Action n) : Prop :=
  ∀ (i : Fin n) count beyond, a = .server count beyond → s.shared.pc = .event i →
    (s.locals i).pollin = true → ∃ line : Line, (s.locals i).pipe.take count = line.bytes

/-- A hangup is handled only after the empty line of its client. -/
def Announced (s : State n) (a : Action n) : Prop :=
  ∀ (i : Fin n) count beyond, a = .server count beyond → s.shared.pc = .hangup i →
    (s.locals i).pollhup = true → 0 < (s.locals i).disconnects

def EndsOnce (client : Client) : Prop :=
  ∃ unread, client.pipe = content unread ∧ client.disconnects + disconnecting unread ≤ 1 ∧
    (client.writer = .writing → client.disconnects + disconnecting unread = 0)

def Pc.Ahead (i : Fin n) : Pc → Prop
  | .event k | .hangup k => k ≤ i.val
  | _ => False

structure ClosedInv (s : State n) : Prop where
  clients : ∀ i, EndsOnce (s.locals i)
  polled : ∀ i, s.shared.pc.Ahead i → (s.locals i).pollin = true ∨ (s.locals i).pollhup = true →
    (s.locals i).isOpen = true
  closed : s.shared.closed = tally Client.Gone s.locals
  left : s.shared.pc = .cleanup → ∀ i, (s.locals i).Gone

section Clients

theorem EndsOnce.once (h : EndsOnce client) : client.disconnects ≤ 1 := by
  obtain ⟨unread, -, hle, -⟩ := h
  omega

theorem EndsOnce.write (h : EndsOnce client) (hwriting : client.writer = .writing) :
    EndsOnce { client with
      writer := if line.body = [] then .ended else .writing
      pipe := client.pipe ++ line.bytes
      lines := client.lines ++ [line] } := by
  obtain ⟨unread, hpipe, hle, hzero⟩ := h
  have hnone := hzero hwriting
  have hadd : disconnecting (unread ++ [line]) =
      disconnecting unread + if line.body = [] then 1 else 0 := by
    rw [disconnecting, List.countP_append]
    by_cases hbody : line.body = [] <;> simp [disconnecting, hbody]
  refine ⟨unread ++ [line], ?_, ?_, ?_⟩
  · rw [hpipe, content_append]
    simp [content]
  · rw [hadd]
    change client.disconnects + _ ≤ 1
    split <;> omega
  · intro hw
    by_cases hbody : line.body = []
    · simp [hbody] at hw
    · rw [hadd]
      simp only [if_neg hbody]
      exact hnone

variable {i count : ℕ} {beyond : List UInt8} {srv : Server}

theorem receive_ending (hchunk : client.pipe.take count = line.bytes) (hbody : line.body = []) :
    receive i count beyond srv client = (⟨.poll, srv.closed + 1⟩, { client with
      pipe := client.pipe.drop count
      disconnects := client.disconnects + 1 }) := by
  simp [receive, hchunk, Line.bytes, hbody]

theorem receive_other (hchunk : client.pipe.take count = line.bytes) (hbody : line.body ≠ []) :
    ∃ counter, receive i count beyond srv client = ({ srv with pc := .hangup i }, { client with
      pipe := client.pipe.drop count
      counter }) := by
  have hhead : (client.pipe.take count ++ List.replicate (PIPE_BUF - count) 0).head? ≠
      some newline := by
    rw [hchunk, Line.bytes, List.append_assoc]
    exact head_ne_newline hbody _
  simp only [receive, if_neg hhead]
  split
  · exact ⟨_, rfl⟩
  · exact ⟨client.counter, rfl⟩

theorem EndsOnce.read (h : EndsOnce client) (hchunk : client.pipe.take count = line.bytes) :
    (line.body = [] → client.disconnects = 0) ∧
      EndsOnce (receive i count beyond srv client).2 := by
  obtain ⟨unread, hpipe, hle, hzero⟩ := h
  have hone : client.pipe.take count = content [line] := by
    rw [hchunk]
    simp [content]
  have hprefix : content [line] <+: content unread := by
    rw [← hone, ← hpipe]
    exact List.take_prefix _ _
  obtain ⟨rest, rfl⟩ := prefix_of_content_prefix hprefix
  have hrest := drop_eq_of_take hone hpipe
  have hcount : disconnecting ([line] ++ rest) =
      disconnecting rest + if line.body = [] then 1 else 0 := by
    rw [disconnecting, List.countP_append, Nat.add_comm]
    by_cases hbody : line.body = [] <;> simp [disconnecting, hbody]
  rw [hcount] at hle hzero
  by_cases hbody : line.body = []
  · rw [if_pos hbody] at hle hzero
    rw [receive_ending hchunk hbody]
    refine ⟨fun _ => by omega, rest, hrest, ?_, ?_⟩
    · change client.disconnects + 1 + disconnecting rest ≤ 1
      omega
    · intro hw
      have hnone := hzero hw
      omega
  · obtain ⟨counter, hreceive⟩ : ∃ counter, receive i count beyond srv client = _ :=
      receive_other hchunk hbody
    rw [if_neg hbody] at hle hzero
    rw [hreceive]
    exact ⟨fun hempty => absurd hempty hbody, rest, hrest, hle, hzero⟩

end Clients

namespace ClosedInv

theorem accurate (h : ClosedInv s) : Accurate s := by
  refine ⟨h.closed, fun i => (h.clients i).once, ?_, h.left⟩
  rw [h.closed, ← tally_lt_iff, Fintype.card_fin]

theorem update (h : ClosedInv s) {i : Fin n} {client' : Client} {pc : Pc} (hends : EndsOnce client')
    (hgone : client'.Gone ↔ (s.locals i).Gone)
    (hpolled : pc.Ahead i → client'.pollin = true ∨ client'.pollhup = true → client'.isOpen = true)
    (hpc : ∀ j : Fin n, pc.Ahead j → s.shared.pc.Ahead j)
    (hleft : pc = .cleanup → s.shared.pc = .cleanup) :
    ClosedInv ⟨{ s.shared with pc }, Function.update s.locals i client'⟩ := by
  constructor
  · exact (Function.forall_update_iff s.locals fun _ => EndsOnce).mpr ⟨hends, fun j _ => h.clients j⟩
  · intro j hj
    by_cases hji : j = i
    · subst hji
      simpa only [Function.update_self] using hpolled hj
    · simpa only [Function.update_of_ne hji] using h.polled j (hpc j hj)
  · rw [tally_update_of_iff hgone]
    exact h.closed
  · intro hcleanup
    apply (Function.forall_update_iff s.locals fun _ => Client.Gone).mpr
    exact ⟨hgone.mpr (h.left (hleft hcleanup) i), fun j _ => h.left (hleft hcleanup) j⟩

theorem ending (h : ClosedInv s) {i : Fin n} {client' : Client} (hends : EndsOnce client')
    (hbefore : ¬ (s.locals i).Gone) (hafter : client'.Gone) :
    ClosedInv ⟨⟨.poll, s.shared.closed + 1⟩, Function.update s.locals i client'⟩ := by
  constructor
  · exact (Function.forall_update_iff s.locals fun _ => EndsOnce).mpr ⟨hends, fun j _ => h.clients j⟩
  · intro j hj
    cases hj
  · rw [tally_update_gain hbefore hafter, ← h.closed]
  · intro hcleanup
    cases hcleanup

theorem goto (h : ClosedInv s) {pc : Pc} (hpc : ∀ j : Fin n, pc.Ahead j → s.shared.pc.Ahead j)
    (hleft : pc = .cleanup → ∀ i, (s.locals i).Gone) :
    ClosedInv { s with shared := { s.shared with pc } } :=
  ⟨h.clients, fun j hj => h.polled j (hpc j hj), h.closed, hleft⟩

theorem read (h : ClosedInv s) {i : Fin n} {count : ℕ} {beyond : List UInt8} {line : Line}
    (hpc : s.shared.pc = .event i) (hin : (s.locals i).pollin = true)
    (hchunk : (s.locals i).pipe.take count = line.bytes) :
    ClosedInv ⟨(receive i count beyond s.shared (s.locals i)).1,
      Function.update s.locals i (receive i count beyond s.shared (s.locals i)).2⟩ := by
  have hahead : s.shared.pc.Ahead i := by
    rw [hpc]
    exact Nat.le_refl _
  have hopen := h.polled i hahead (.inl hin)
  obtain ⟨hfirst, hends⟩ : _ ∧ EndsOnce (receive i count beyond s.shared (s.locals i)).2 :=
    (h.clients i).read hchunk
  by_cases hbody : line.body = []
  · rw [receive_ending hchunk hbody] at hends ⊢
    apply h.ending hends
    · rintro (hdisconnects | hclosed)
      · exact absurd (hfirst hbody) hdisconnects.ne'
      · rw [hopen] at hclosed
        cases hclosed
    · exact .inl (Nat.succ_pos _)
  · obtain ⟨counter, hreceive⟩ : ∃ counter, receive i count beyond s.shared (s.locals i) = _ :=
      receive_other hchunk hbody
    rw [hreceive] at hends ⊢
    refine h.update hends Iff.rfl (fun _ _ => hopen) ?_ nofun
    intro j hj
    rw [hpc]
    exact hj

theorem hangup (h : ClosedInv s) {i : Fin n} (hpc : s.shared.pc = .hangup i)
    (hannounced : (s.locals i).pollhup = true → 0 < (s.locals i).disconnects) :
    ClosedInv ⟨{ s.shared with pc := .event (i + 1) }, Function.update s.locals i
      { s.locals i with isOpen := (s.locals i).isOpen && !(s.locals i).pollhup }⟩ := by
  have hahead : ∀ j : Fin n, Pc.Ahead j (.event (i + 1)) → s.shared.pc.Ahead j := by
    intro j hj
    rw [hpc]
    exact Nat.le_of_succ_le hj
  refine h.update (h.clients i) ?_ (fun hi => absurd hi (Nat.not_succ_le_self _)) hahead nofun
  cases hhup : (s.locals i).pollhup with
  | true => exact iff_of_true (.inl (hannounced hhup)) (.inl (hannounced hhup))
  | false => simp [Client.Gone]

theorem step {a : Action n} (h : ClosedInv s) (hlines : ReadsOneLine s a) (hok : Announced s a)
    (ht : step s a = some t) : ClosedInv t := by
  cases step_move ht with
  | write i line hwriting hlen hnul =>
    exact h.update ((h.clients i).write hwriting) Iff.rfl (h.polled i) (fun _ hj => hj) id
  | close i hopen =>
    obtain ⟨unread, hpipe, hle, -⟩ := h.clients i
    have hends : EndsOnce { s.locals i with writer := .closed } := ⟨unread, hpipe, hle, nofun⟩
    exact h.update hends Iff.rfl (h.polled i) (fun _ hj => hj) id
  | poll count beyond hpc hopen =>
    refine ⟨h.clients, fun j _ hrevents => ?_, h.closed, nofun⟩
    simp only [Client.polled, Bool.and_eq_true] at hrevents
    rcases hrevents with hin | hhup
    · exact hin.1
    · exact hhup.1
  | leave count beyond hpc hclosed =>
    apply h.goto
    · intro j hj
      cases hj
    · intro _
      by_contra hopen
      have hlt : tally Client.Gone s.locals < _ := tally_lt_iff.mpr (not_forall.mp hopen)
      rw [← h.closed, Fintype.card_fin] at hlt
      omega
  | read i count beyond hpc hin hpos hbuf hlen =>
    obtain ⟨line, hchunk⟩ := hlines i count beyond rfl hpc hin
    exact h.read hpc hin hchunk
  | skip i count beyond hpc hin =>
    refine h.goto ?_ nofun
    intro j hj
    rw [hpc]
    exact hj
  | again i count beyond hpc hi =>
    refine h.goto ?_ nofun
    intro j hj
    cases hj
  | hangup i count beyond hpc => exact h.hangup hpc (hok i count beyond rfl hpc)

theorem init : ClosedInv (init n) := by
  refine ⟨fun i => ⟨[], rfl, Nat.zero_le _, fun _ => rfl⟩, fun i hi => ?_, ?_, nofun⟩
  · cases hi
  · apply Eq.symm
    apply tally_eq_zero_iff.mpr
    rintro i (hdisconnects | hclosed)
    · exact absurd hdisconnects (Nat.lt_irrefl _)
    · cases hclosed

theorem not_accurate {a : Action n} (h : ClosedInv s) (hok : ¬ Announced s a)
    (ht : FifoServer.step s a = some t) : ¬ Accurate t := by
  simp only [Announced, not_forall] at hok
  obtain ⟨i, count, beyond, rfl, hpc, hhup, hdisconnects⟩ := hok
  have hopen : (s.locals i).isOpen = true := by
    apply h.polled i
    · rw [hpc]
      exact Nat.le_refl _
    · exact .inr hhup
  cases step_move ht with
  | hangup j count beyond hpc' =>
    obtain rfl : i = j := Fin.ext (Pc.hangup.inj (hpc.symm.trans hpc'))
    intro haccurate
    have hclosed := haccurate.closed
    have hbefore : ¬ (s.locals i).Gone := by simp [Client.Gone, hopen, hdisconnects]
    rw [tally_update_gain hbefore (.inr (by simp [hhup])), ← h.closed] at hclosed
    exact Nat.succ_ne_self _ hclosed.symm
  | _ => simp_all

end ClosedInv

theorem accurate_iff_announced (actions : List (Action n))
    (hlines : AllSteps step ReadsOneLine (init n) actions) :
    AllStates step Accurate (init n) actions ↔ AllSteps step Announced (init n) actions := by
  apply allStates_iff_allSteps_of (fun s (h : ClosedInv s) => h.accurate) _ _ actions hlines .init
  · exact fun s a t h hdom hok ht => h.step hdom hok ht
  · exact fun s a t h _ hok ht => h.not_accurate hok ht

def endsAndLeaves : List (Action 1) :=
  [.write onlyClient emptyLine, .close onlyClient, .server 0 [], .server 1 [], .server 0 []]

theorem accurate_iff_announced_endsAndLeaves :
    AllStates step Accurate (init 1) endsAndLeaves ↔
      AllSteps step Announced (init 1) endsAndLeaves := by
  apply accurate_iff_announced
  have hlines := allSteps_of_run step (fun (s : State 1) a => match a with
    | .server count _ => decide (∀ i, (s.locals i).pollin = true → s.shared.pc = .event i →
        (s.locals i).pipe.take count = [10])
    | _ => true) (init 1) endsAndLeaves (by decide +kernel)
  apply hlines.mono
  rintro s a hok i count beyond rfl hpc hin
  exact ⟨emptyLine, of_decide_eq_true hok i hin hpc⟩

section HungUp

structure HungUp (s : State n) : Prop where
  closed : s.shared.closed < n
  loops : s.shared.pc ≠ .cleanup
  hung : ∀ i, (s.locals i).isOpen = false
  deaf : s.shared.pc ≠ .poll → ∀ i, (s.locals i).pollin = false

theorem HungUp.update (h : HungUp s) {i : Fin n} {client' : Client} (hopen : client'.isOpen = false)
    (hin : client'.pollin = (s.locals i).pollin) {pc : Pc} (hpc : pc ≠ .cleanup)
    (hpoll : pc ≠ .poll → s.shared.pc ≠ .poll) :
    HungUp ⟨{ s.shared with pc }, Function.update s.locals i client'⟩ := by
  refine ⟨h.closed, hpc, ?_, fun hne j => ?_⟩
  · apply (Function.forall_update_iff s.locals fun _ client => client.isOpen = false).mpr
    exact ⟨hopen, fun j _ => h.hung j⟩
  · rw [field_update Client.pollin hin]
    exact h.deaf (hpoll hne) j

theorem HungUp.step {a : Action n} (h : HungUp s) (ht : step s a = some t) : HungUp t := by
  cases step_move ht with
  | write i line hwriting hlen hnul | close i hopen =>
    refine h.update ?_ ?_ h.loops id
    · exact h.hung i
    · rfl
  | poll count beyond hpc hopen =>
    refine ⟨h.closed, nofun, h.hung, fun _ i => ?_⟩
    simp [Client.polled, h.hung i]
  | leave count beyond hpc hclosed => exact absurd h.closed (not_lt.mpr hclosed)
  | read i count beyond hpc hin hpos hbuf hlen =>
    have hdeaf := h.deaf (by simp [hpc]) i
    rw [hin] at hdeaf
    cases hdeaf
  | skip i count beyond hpc hin =>
    exact ⟨h.closed, nofun, h.hung, fun _ => h.deaf (by simp [hpc])⟩
  | again i count beyond hpc hi => exact ⟨h.closed, nofun, h.hung, fun hne => absurd rfl hne⟩
  | hangup i count beyond hpc =>
    apply h.update
    · simp [h.hung i]
    · rfl
    · exact nofun
    · exact fun _ => by simp [hpc]

theorem never_leaves (h : HungUp s) (ht : Reachable step s t) : t.shared.pc ≠ .cleanup :=
  (ht.invariant HungUp h fun _ _ _ hs => hs.step).loops

end HungUp

theorem hangup_uncounted : ∃ s : State 1, Reachable step (init 1) s ∧
    (∀ i, (s.locals i).writer = .closed ∧ (s.locals i).isOpen = false) ∧ s.shared.closed = 0 ∧
      ∀ t, Reachable step s t → t.shared.pc ≠ .cleanup := by
  obtain ⟨s, hs, hp⟩ := exists_reachable_of_run step (init 1)
    [.close onlyClient, .server 0 [], .server 0 [], .server 0 [], .server 0 []]
    (fun s => decide ((∀ i, (s.locals i).writer = .closed ∧ (s.locals i).isOpen = false) ∧
      s.shared.closed = 0 ∧ s.shared.pc = .poll)) (by decide +kernel)
  obtain ⟨hgone, hclosed, hpc⟩ := of_decide_eq_true hp
  have hhung : HungUp s := by
    refine ⟨?_, ?_, fun i => (hgone i).2, fun hne => absurd hpc hne⟩
    · rw [hclosed]
      exact Nat.one_pos
    · rw [hpc]
      exact nofun
  exact ⟨s, hs, hgone, hclosed, fun t => never_leaves hhung⟩

end PsOs.FifoServer
