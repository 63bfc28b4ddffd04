import PsOs.ChatLogin
import PsOs.ChatMoves

namespace PsOs.ChatServer

open CStrings Threads TransitionSystems

variable {admins : Admins} {s t : State}

def ClientPc.stopping : ClientPc → Bool
  | .printStop | .lockWaiting | .printWaiting | .unlockWaiting | .stop => true
  | _ => false

structure ClientOk (admins : Admins) (c : Client) : Prop where
  isAdmin : c.isAdmin = true ↔ Entitled admins c.sent
  stopping : c.pc.stopping = true → c.isAdmin = true ∧ shutdownCommand <+: c.msg

def ListenerPc.prepared : ListenerPc → Option Client
  | .lockInsert client | .storeSocket client | .create client => some client
  | _ => none

structure AuthInv (admins : Admins) (s : State) : Prop where
  clients : ∀ i, (s.locals i).pc ≠ .unborn → ClientOk admins (s.locals i)
  prepared : ∀ client ∈ s.shared.listener.prepared, ClientOk admins client

structure Authorised (admins : Admins) (s : State) : Prop where
  isAdmin : ∀ i, (s.locals i).pc ≠ .unborn →
    ((s.locals i).isAdmin = true ↔ Entitled admins (s.locals i).sent)
  stops : ∀ a t, step admins s a = some t → s.shared.running = true →
    t.shared.running = false → a = .sigint ∨ ∃ i received, a = .client i received ∧
      shutdownCommand <+: (s.locals i).msg ∧ Entitled admins (s.locals i).sent

def TrustedLogin (admins : Admins) (a : Action) : Prop :=
  ∀ l, a = .login l → Trusted admins l.sent l.received

theorem isShutdown_iff (msg : List UInt8) : isShutdown msg = true ↔ shutdownCommand <+: msg := by
  have hnul : 0 ∉ shutdownCommand := by decide
  have h := strncmpEq_literal hnul (msg ++ [0]) [0]
  rw [isShutdown, show 9 = shutdownCommand.length from rfl, h]
  constructor
  · intro hpre
    rcases List.prefix_concat_iff.mp hpre with heq | hmsg
    · have hlast := congrArg List.getLast? heq
      simp [shutdownCommand] at hlast
    · exact hmsg
  · exact fun hpre => hpre.trans (List.prefix_append ..)

theorem clientOk_goto {c : Client} (h : ClientOk admins c) {pc : ClientPc}
    (hpc : pc.stopping = true → c.pc.stopping = true) : ClientOk admins (c.goto pc) :=
  ⟨h.isAdmin, fun hstop => h.stopping (hpc hstop)⟩

theorem clientOk_move {i : ℕ} {srv srv' : Server} {c c' : Client}
    (hm : ClientMove i srv c srv' c') (h : ClientOk admins c) : ClientOk admins c' := by
  cases hm with
  | receive msg hpc hmsg hlen => exact ⟨h.isAdmin, fun hstop => by cases hstop⟩
  | obey hpc hmsg hadmin => exact ⟨h.isAdmin, fun _ => ⟨hadmin, (isShutdown_iff _).mp hmsg⟩⟩
  | _ => exact clientOk_goto h (by simp [ClientPc.stopping, *])

theorem prepared_move {srv srv' : Server} {a : Action} (hm : ListenerMove admins srv a srv') :
    (∀ client ∈ srv'.listener.prepared, client ∈ srv.listener.prepared) ∨
      ∃ l socket, a = .login l ∧ srv'.listener = .lockInsert (l.client admins socket) := by
  cases hm with
  | login socket l hpc => exact .inr ⟨l, socket, rfl, rfl⟩
  | accepted result hpc =>
    left
    cases result <;> simp [accepted, Server.goto, ListenerPc.prepared]
  | lockInsert client hpc hfree | storeSocket client hpc =>
    left
    simp [ListenerPc.prepared, hpc]
  | _ =>
    left
    simp [ListenerPc.prepared, Server.goto]

theorem clientOk_login (hshort : admins.Short) {l : Login}
    (h : Trusted admins l.sent l.received) (socket : ℕ) :
    ClientOk admins (l.client admins socket) :=
  ⟨isAdmin_of_trusted hshort h, fun hstop => by cases hstop⟩

theorem clients_update {i : ℕ} {c' : Client}
    (h : ∀ j, (s.locals j).pc ≠ .unborn → ClientOk admins (s.locals j))
    (hc : c'.pc ≠ .unborn → ClientOk admins c') (j : ℕ) :
    (Function.update s.locals i c' j).pc ≠ .unborn →
      ClientOk admins (Function.update s.locals i c' j) :=
  (Function.forall_update_iff s.locals fun _ c => c.pc ≠ .unborn → ClientOk admins c).mpr
    ⟨hc, fun j _ => h j⟩ j

theorem AuthInv.step {a : Action} (hshort : admins.Short) (h : AuthInv admins s)
    (hok : TrustedLogin admins a) (ht : step admins s a = some t) : AuthInv admins t := by
  cases step_move ht with
  | sigint => exact ⟨h.clients, h.prepared⟩
  | client i received srv' c' hm =>
    have hi := h.clients i hm.born
    refine ⟨clients_update h.clients fun _ => clientOk_move hm hi, ?_⟩
    rw [hm.frame.listener]
    exact h.prepared
  | cancelClient i hreq hpoint =>
    have hi := h.clients i (born_of_cancellationPoint hpoint)
    refine ⟨clients_update h.clients fun _ => clientOk_goto hi ?_, h.prepared⟩
    intro hstop
    cases hstop
  | listener a srv' hm =>
    refine ⟨h.clients, fun client hmem => ?_⟩
    rcases prepared_move hm with hold | ⟨l, socket, rfl, hpc⟩
    · exact h.prepared client (hold client hmem)
    · simp only [hpc, ListenerPc.prepared, Option.mem_some_iff] at hmem
      rw [← hmem]
      exact clientOk_login hshort (hok l rfl) socket
  | create client hpc =>
    have hclient := h.prepared client (by simp [hpc, ListenerPc.prepared])
    exact ⟨clients_update h.clients fun _ => hclient, fun client hmem => by cases hmem⟩
  | main srv' hm =>
    refine ⟨h.clients, ?_⟩
    rw [hm.frame.listener]
    exact h.prepared
  | cancel i j hpc hj =>
    refine ⟨clients_update h.clients fun hborn => ?_, h.prepared⟩
    have hclient := h.clients j hborn
    exact ⟨hclient.isAdmin, hclient.stopping⟩

theorem AuthInv.init : AuthInv admins init :=
  ⟨fun _ h => absurd rfl h, fun _ h => by cases h⟩

theorem listenerMove_running {srv srv' : Server} {a : Action}
    (hm : ListenerMove admins srv a srv') : srv'.running = srv.running := by
  cases hm with
  | accepted result hpc => cases result <;> rfl
  | _ => rfl

theorem clientMove_running {i : ℕ} {srv srv' : Server} {c c' : Client}
    (hm : ClientMove i srv c srv' c') : srv'.running = srv.running ∨ c.pc = .stop := by
  cases hm with
  | stop hpc => exact .inr hpc
  | _ => exact .inl rfl

theorem AuthInv.authorised (h : AuthInv admins s) : Authorised admins s := by
  refine ⟨fun i hi => (h.clients i hi).isAdmin, fun a t ht hrun hstop => ?_⟩
  have hne : t.shared.running ≠ s.shared.running := by simp [hrun, hstop]
  cases step_move ht with
  | sigint => exact .inl rfl
  | client i received srv' c' hm =>
    rcases clientMove_running hm with hsame | hpc
    · exact absurd hsame hne
    · have hi := h.clients i hm.born
      obtain ⟨hadmin, hmsg⟩ := hi.stopping (by simp [hpc, ClientPc.stopping])
      exact .inr ⟨i, received, rfl, hmsg, hi.isAdmin.mp hadmin⟩
  | listener a srv' hm => exact absurd (listenerMove_running hm) hne
  | main srv' hm => exact absurd hm.frame.running hne
  | cancelClient | create | cancel => exact absurd rfl hne

/-- Runs whose logins are trusted are authorised; and a login that is not trusted sets the wrong
flag for some old content of the memory. -/
theorem authorised_of_trusted (hshort : admins.Short)
    (h : ReachableBy (step admins) (fun _ a => TrustedLogin admins a) init s) :
    Authorised admins s ∧ ∀ sent later count, count ≤ 50 →
      (Trusted admins sent ((sent ++ later).take count) ↔ FlagRight admins sent later count) := by
  have hinv := h.invariant (AuthInv admins) .init fun _ _ _ hs hok ht => hs.step hshort hok ht
  exact ⟨hinv.authorised, fun _ _ _ hcount => trusted_iff hshort hcount⟩

def requestShutdown (i : ℕ) : List Action :=
  .client i shutdownCommand :: List.replicate 6 (.client i [])

theorem authorised_bob : (∃ s : State, (s.locals 0).pc = .stop ∧ Authorised bobOnly s) ∧
    FlagRight bobOnly (bob.bytes ++ [newline]) [] 50 := by
  obtain ⟨s, hs, hp⟩ := exists_reachableBy_of_run (step bobOnly)
    (fun _ a => match a with
      | .login l => l.sent == bob.bytes ++ [newline] && l.received == bob.bytes ++ [newline]
      | _ => true)
    init (connect 5 (bob.bytes ++ [newline]) ++ requestShutdown 0)
    (fun s => decide ((s.locals 0).pc = .stop)) (by decide +kernel)
  have hshort : bobOnly.Short := by
    intro name hname
    rw [List.mem_singleton.mp hname]
    decide
  have htrusted : Trusted bobOnly (bob.bytes ++ [newline]) (bob.bytes ++ [newline]) := by
    intro hempty
    cases hempty
  have hlogins : ReachableBy (step bobOnly) (fun _ a => TrustedLogin bobOnly a) init s := by
    apply hs.mono
    rintro s a hok l rfl
    obtain ⟨hsent, hreceived⟩ := Bool.and_eq_true_iff.mp hok
    rw [eq_of_beq hsent, eq_of_beq hreceived]
    exact htrusted
  obtain ⟨hauthorised, hexact⟩ := authorised_of_trusted hshort hlogins
  exact ⟨⟨s, of_decide_eq_true hp, hauthorised⟩, (hexact _ [] 50 (Nat.le_refl 50)).mp htrusted⟩

theorem shutdown_by_unnamed : ∃ s t : State, Reachable (step bobOnly) init s ∧
    step bobOnly s (.client 0 []) = some t ∧ s.shared.running = true ∧ t.shared.running = false ∧
      (s.locals 0).isAdmin = true ∧ ¬ Entitled bobOnly (s.locals 0).sent := by
  obtain ⟨s, hs, hp⟩ := exists_reachable_of_run (step bobOnly) init
    (connect 5 [newline] ++ requestShutdown 0)
    (fun s => decide ((s.locals 0).pc = .stop ∧ s.shared.running = true ∧
      (s.locals 0).isAdmin = true ∧ (s.locals 0).sent = [newline])) (by decide +kernel)
  obtain ⟨hpc, hrun, hadmin, hsent⟩ := of_decide_eq_true hp
  refine ⟨s, _, hs, Config.move_eq_some.mpr ⟨_, _, by simp only [stepClient, hpc]; rfl, rfl⟩, hrun,
    rfl, hadmin, ?_⟩
  rintro ⟨admin, hmem, heq⟩
  rw [hsent] at heq
  have hbob : admin = bob := by simpa [bobOnly] using hmem
  subst hbob
  cases heq

end PsOs.ChatServer
