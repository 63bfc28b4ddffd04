import PsOs.ClientInput
import PsOs.DonationServer

/-!
`exercise08/task2/client.c` against the server of the same task: one connection, with the bytes
that are under way in each direction.
-/

namespace PsOs.DonationClient

open CStrings DonationServer InputLoops Strtod TransitionSystems

def BUFFER_SIZE : ℕ := 1024

def printUntilNewline : List UInt8 → Option (List UInt8)
  | [] => none
  | b :: str =>
    if b = 0 ∨ b = Lines.newline then some [Lines.newline] else (printUntilNewline str).map (b :: ·)

inductive ClientPc where
  | gets
  | read
  | print
  | closed
  deriving DecidableEq

structure System where
  stdin : List UInt8
  msg : List UInt8
  readBuf : List UInt8
  client : ClientPc
  toServer : List UInt8
  toClient : List UInt8
  server : Server

def initialBuf : List UInt8 := 48 :: List.replicate (BUFFER_SIZE - 1) 0

def resetBuf : List UInt8 := List.replicate BUFFER_SIZE 48

def init (stdin : List UInt8) (donations : Amount) : System :=
  ⟨stdin, initialBuf, initialBuf, .gets, [], [], ⟨true, .read, donations, []⟩⟩

inductive Action where
  | getLine
  | serverRead (count : ℕ) (beyond : List UInt8)
  | serverFails
  | clientRead (count : ℕ)
  | print

variable (format : Amount → CString)

def getLine (s : System) : System :=
  let got := fgets BUFFER_SIZE s.stdin s.msg
  match ClientInput.round08 got.2 with
  | (sent, none) => { s with stdin := got.1, toServer := s.toServer ++ sent.flatten, client := .closed }
  | (sent, some msg) =>
    { s with stdin := got.1, msg, toServer := s.toServer ++ sent.flatten, client := .read }

def written (old server : Server) : List UInt8 :=
  (server.replies.drop old.replies.length).flatMap (Reply.bytes fun sum => (format sum).bytes)

def step (s : System) : Action → Option System
  | .getLine => if s.client = .gets then some (getLine s) else none
  | .serverRead count beyond =>
    if 1 ≤ count ∧ count ≤ s.toServer.length then
      (DonationServer.step Amount.toDouble s.server (.read (s.toServer.take count) beyond)).map fun server =>
        { s with
          server
          toServer := s.toServer.drop count
          toClient := s.toClient ++ written format s.server server }
    else none
  | .serverFails => (DonationServer.step Amount.toDouble s.server .readFails).map fun server => { s with server }
  -- nothing is read only at the end of a connection that the server has closed
  | .clientRead count =>
    if s.client = .read ∧ count ≤ BUFFER_SIZE ∧ count ≤ s.toClient.length ∧
        (count = 0 → s.toClient = [] ∧ s.server.pc ≠ .read) then
      some { s with
        readBuf := s.toClient.take count ++ s.readBuf.drop count
        toClient := s.toClient.drop count
        client := .print }
    else none
  | .print =>
    if s.client = .print then
      (printUntilNewline s.readBuf).map fun _ => { s with readBuf := resetBuf, client := .gets }
    else none

def Stops (s : System) : Prop := s.client = .print → (printUntilNewline s.readBuf).isSome = true

/-- A read of the client gets the rest of the reply that it begins in; the first one may get less
if it leaves a byte of the buffer. -/
def Whole (s : System) (a : Action) : Prop :=
  ∀ count, a = .clientRead count →
    (s.toClient.takeWhile (· ≠ Lines.newline)).length < count ∨
      s.readBuf = initialBuf ∧ count < BUFFER_SIZE

structure Inv (s : System) : Prop where
  buf : s.client ≠ .print → s.readBuf = initialBuf ∨ s.readBuf = resetBuf
  noNul : 0 ∉ s.toClient
  stops : Stops s

section Print

variable {str : List UInt8}

theorem printUntilNewline_isSome :
    (printUntilNewline str).isSome = true ↔ Lines.newline ∈ str ∨ 0 ∈ str := by
  induction str with
  | nil => simp [printUntilNewline]
  | cons b str ih =>
    rw [printUntilNewline]
    by_cases hb : b = 0 ∨ b = Lines.newline
    · rw [if_pos hb]
      refine iff_of_true rfl ?_
      obtain rfl | rfl := hb
      · exact .inr List.mem_cons_self
      · exact .inl List.mem_cons_self
    · obtain ⟨hnul, hnewline⟩ := not_or.mp hb
      rw [if_neg hb, Option.isSome_map, ih, List.mem_cons, List.mem_cons]
      simp [Ne.symm hnul, Ne.symm hnewline]

theorem nul_mem_drop_initialBuf {count : ℕ} (h : count < BUFFER_SIZE) : 0 ∈ initialBuf.drop count := by
  cases count with
  | zero => exact List.mem_cons_of_mem _ (List.mem_replicate.mpr ⟨by decide, rfl⟩)
  | succ count =>
    rw [initialBuf, List.drop_succ_cons, List.drop_replicate, List.mem_replicate]
    exact ⟨by omega, rfl⟩

theorem initialBuf_length : initialBuf.length = BUFFER_SIZE := by
  rw [initialBuf, List.length_cons, List.length_replicate]
  rfl

theorem not_mem_drop_resetBuf (count : ℕ) :
    Lines.newline ∉ resetBuf.drop count ∧ 0 ∉ resetBuf.drop count := by
  rw [resetBuf, List.drop_replicate]
  constructor
  · intro hmem
    cases (List.mem_replicate.mp hmem).2
  · intro hmem
    cases (List.mem_replicate.mp hmem).2

theorem newline_mem_take {bytes : List UInt8} {count : ℕ} (hle : count ≤ bytes.length) :
    Lines.newline ∈ bytes.take count ↔ (bytes.takeWhile (· ≠ Lines.newline)).length < count := by
  induction bytes generalizing count with
  | nil => simpa using hle
  | cons b bytes ih =>
    cases count with
    | zero => simp
    | succ count =>
      have hrest := ih (Nat.le_of_succ_le_succ hle)
      by_cases hb : b = Lines.newline
      · simp [hb]
      · simp [hb, Ne.symm hb, hrest]

end Print

section Server

variable {format : Amount → CString} {srv srv' : Server} {received beyond : List UInt8}

theorem handle_replies (srv : Server) (received beyond : List UInt8) :
    ∃ new, (srv.handle Amount.toDouble received beyond).replies = srv.replies ++ new ∧
      ∀ reply ∈ new, 0 ∉ reply.bytes fun sum => (format sum).bytes := by
  unfold Server.handle
  simp only
  split
  · exact ⟨[], (List.append_nil _).symm, fun _ h => absurd h List.not_mem_nil⟩
  · split
    · refine ⟨_, rfl, ?_⟩
      intro reply hreply
      rw [List.mem_singleton.mp hreply, Reply.bytes, List.mem_append, not_or]
      exact ⟨CString.noNul _, by decide⟩
    · refine ⟨_, rfl, ?_⟩
      intro reply hreply
      rw [List.mem_singleton.mp hreply, Reply.bytes, List.mem_append, List.mem_append, not_or, not_or]
      exact ⟨⟨by decide, CString.noNul _⟩, by decide⟩

theorem written_noNul
    (h : DonationServer.step Amount.toDouble srv (.read received beyond) = some srv') : 0 ∉ written format srv srv' := by
  have hnew : ∃ new, srv'.replies = srv.replies ++ new ∧
      ∀ reply ∈ new, 0 ∉ reply.bytes fun sum => (format sum).bytes := by
    simp only [DonationServer.step] at h
    split at h
    · split at h
      · cases h
        exact ⟨[], (List.append_nil _).symm, fun _ h => absurd h List.not_mem_nil⟩
      · cases h
        exact handle_replies srv received beyond
    · cases h
  obtain ⟨new, hreplies, hnul⟩ := hnew
  rw [written, hreplies, List.drop_left]
  intro hmem
  obtain ⟨reply, hreply, hbyte⟩ := List.mem_flatMap.mp hmem
  exact hnul reply hreply hbyte

end Server

section Steps

variable {format : Amount → CString} {s t : System} {a : Action}

theorem getLine_frame (s : System) : (getLine s).readBuf = s.readBuf ∧
    (getLine s).toClient = s.toClient ∧ (getLine s).client ≠ .print := by
  unfold getLine
  simp only
  split
  · exact ⟨rfl, rfl, ClientPc.noConfusion⟩
  · exact ⟨rfl, rfl, ClientPc.noConfusion⟩

theorem Inv.init (stdin : List UInt8) (donations : Amount) : Inv (init stdin donations) :=
  ⟨fun _ => .inl rfl, List.not_mem_nil, ClientPc.noConfusion⟩

theorem step_clientRead {count : ℕ} (ht : step format s (.clientRead count) = some t) :
    s.client ≠ .print ∧ count ≤ BUFFER_SIZE ∧ count ≤ s.toClient.length ∧
      t = { s with
        readBuf := s.toClient.take count ++ s.readBuf.drop count
        toClient := s.toClient.drop count
        client := .print } := by
  simp only [step] at ht
  split at ht
  case isTrue hread =>
    obtain ⟨hclient, hsize, hcount, -⟩ := hread
    cases ht
    exact ⟨by rw [hclient]; exact ClientPc.noConfusion, hsize, hcount, rfl⟩
  case isFalse => cases ht

theorem Inv.keep (h : Inv s) (hwhole : Whole s a) (ht : step format s a = some t) : Inv t := by
  cases a with
  | getLine =>
    obtain ⟨hclient, hgot⟩ := Option.ite_none_right_eq_some.mp ht
    obtain rfl := Option.some.inj hgot
    obtain ⟨hbuf, htoClient, hpc⟩ := getLine_frame s
    refine ⟨fun _ => ?_, htoClient ▸ h.noNul, fun hprint => absurd hprint hpc⟩
    rw [hbuf]
    exact h.buf (by rw [hclient]; exact ClientPc.noConfusion)
  | serverRead count beyond =>
    obtain ⟨-, hmap⟩ := Option.ite_none_right_eq_some.mp ht
    obtain ⟨server, hserver, rfl⟩ := Option.map_eq_some_iff.mp hmap
    refine ⟨h.buf, ?_, h.stops⟩
    rw [List.mem_append, not_or]
    exact ⟨h.noNul, written_noNul hserver⟩
  | serverFails =>
    obtain ⟨server, -, rfl⟩ := Option.map_eq_some_iff.mp ht
    exact ⟨h.buf, h.noNul, h.stops⟩
  | clientRead count =>
    obtain ⟨hclient, -, hcount, rfl⟩ := step_clientRead ht
    refine ⟨fun hne => absurd rfl hne, ?_, fun _ => printUntilNewline_isSome.mpr ?_⟩
    · exact fun hmem => h.noNul (List.mem_of_mem_drop hmem)
    · obtain hline | ⟨hinitial, hroom⟩ := hwhole count rfl
      · exact .inl (List.mem_append_left _ ((newline_mem_take hcount).mpr hline))
      · right
        rw [hinitial]
        exact List.mem_append_right _ (nul_mem_drop_initialBuf hroom)
  | print =>
    obtain ⟨-, hmap⟩ := Option.ite_none_right_eq_some.mp ht
    obtain ⟨printed, -, rfl⟩ := Option.map_eq_some_iff.mp hmap
    exact ⟨fun _ => .inr rfl, h.noNul, ClientPc.noConfusion⟩

theorem stops_break (h : Inv s) (hnot : ¬ Whole s a) (ht : step format s a = some t) : ¬ Stops t := by
  simp only [Whole, not_forall, not_or, not_and, not_lt] at hnot
  obtain ⟨count, rfl, hline, hfull⟩ := hnot
  obtain ⟨hclient, hsize, hcount, rfl⟩ := step_clientRead ht
  intro hstops
  have hend := printUntilNewline_isSome.mp (hstops rfl)
  simp only [List.mem_append] at hend
  have hnewline : Lines.newline ∉ s.toClient.take count :=
    fun hmem => absurd ((newline_mem_take hcount).mp hmem) (not_lt.mpr hline)
  have hnul : 0 ∉ s.toClient.take count := fun hmem => h.noNul (List.mem_of_mem_take hmem)
  have hrest : Lines.newline ∉ s.readBuf.drop count ∧ 0 ∉ s.readBuf.drop count := by
    obtain hinitial | hreset := h.buf hclient
    · have hlen : s.readBuf.length ≤ count := by
        rw [hinitial, initialBuf_length]
        exact hfull hinitial
      rw [List.drop_eq_nil_of_le hlen]
      exact ⟨List.not_mem_nil, List.not_mem_nil⟩
    · rw [hreset]
      exact not_mem_drop_resetBuf count
  obtain (hmem | hmem) | (hmem | hmem) := hend
  · exact hnewline hmem
  · exact hrest.1 hmem
  · exact hnul hmem
  · exact hrest.2 hmem

end Steps

theorem stops_iff_whole (format : Amount → CString) (stdin : List UInt8) (donations : Amount)
    (actions : List Action) :
    AllStates (step format) Stops (init stdin donations) actions ↔
      AllSteps (step format) Whole (init stdin donations) actions := by
  have hinit : Inv (init stdin donations) := .init stdin donations
  apply allStates_iff_allSteps _ _ _ _ hinit
  · exact fun s h => h.stops
  · exact fun s a t h hwhole ht => h.keep hwhole ht
  · exact fun s a t h hnot ht => stops_break h hnot ht

/-- The server takes every line that starts with `/shutdown`; the second read returns 0. -/
theorem not_stops_shutdownNow : ∃ (format : Amount → CString) (s : System),
    Reachable (step format) (init (text "5\n/shutdown now\n") 0) s ∧ ¬ Stops s := by
  refine ⟨fun _ => ⟨text "5.00", by decide⟩, ?_⟩
  obtain ⟨s, hs, hp⟩ := exists_reachable_of_run (step fun _ => ⟨text "5.00", by decide⟩)
    (init (text "5\n/shutdown now\n") 0)
    [.getLine, .serverRead 2 [], .clientRead 16, .print, .getLine, .serverRead 14 [], .clientRead 0]
    (fun s => decide (s.client = .print ∧ printUntilNewline s.readBuf = none)) (by decide +kernel)
  obtain ⟨hprint, hnone⟩ := of_decide_eq_true hp
  refine ⟨s, hs, fun hstops => ?_⟩
  have hsome := hstops hprint
  rw [hnone] at hsome
  cases hsome

end PsOs.DonationClient
