import PsOs.ChatAuthorization
import PsOs.Lines

/-!
What the server makes of one connection: `client.c` sends a name and lines, TCP cuts the bytes
into the results of the reads.
-/

namespace PsOs.ChatServer

open CStrings Threads TransitionSystems

abbrev Line := Lines.Line

structure Talk where
  username : CString
  named : username.bytes ≠ []
  short : username.length < 50
  noNewline : newline ∉ username.bytes
  lines : List Line
  fits : ∀ line ∈ lines, line.bytes.length < 128
  noNul : ∀ line ∈ lines, 0 ∉ line.body

def replaceNewlineWithNull : List UInt8 → List UInt8 :=
  mapInPlace fun b => if b = newline then 0 else b

def sendLines : List Line → List (List UInt8)
  | [] => []
  | line :: lines =>
    if strncmpEq 9 (replaceNewlineWithNull (line.bytes ++ [0])) (shutdownCommand ++ [0]) then
      [line.bytes]
    else line.bytes :: sendLines lines

def Talk.sends (talk : Talk) : List (List UInt8) := talk.username.bytes :: sendLines talk.lines

/-- The results of the reads on a connection over which `sent` comes. -/
structure Reads (sent : List UInt8) where
  chunks : List (List UInt8)
  flatten : chunks.flatten = sent
  nonempty : ∀ chunk ∈ chunks, chunk ≠ []
  name_le : ∀ chunk ∈ chunks.head?, chunk.length ≤ 50
  message_le : ∀ chunk ∈ chunks.tail, chunk.length ≤ MAX_BUFFER

structure Memory where
  old : List UInt8
  beyond : List UInt8
  old_length : old.length = 50

def Memory.login (memory : Memory) (received : List UInt8) : Login :=
  ⟨received, [], memory.old.length, memory.old, memory.beyond, memory.old_length.le, memory.old_length⟩

structure Session where
  username : CString
  messages : List (List UInt8)
  shutdown : Bool
  deriving DecidableEq

/-- The messages that `client_thread` prints, and whether it obeys the last one. -/
def readLoop (isAdmin : Bool) : List (List UInt8) → List (List UInt8) × Bool
  | [] => ([], false)
  | msg :: reads =>
    if isShutdown msg && isAdmin then ([msg], true)
    else (msg :: (readLoop isAdmin reads).1, (readLoop isAdmin reads).2)

def session (admins : Admins) (memory : Memory) (reads : List (List UInt8)) : Session :=
  let username := (memory.login (reads.headD [])).username
  let loop := readLoop (isAdmin admins username) reads.tail
  ⟨username, loop.1, loop.2⟩

section Thread

def threadStep (i : ℕ) (p : Server × Client) (received : List UInt8) : Option (Server × Client) :=
  stepClient i received p.1 p.2

def printed (p : Server × Client) (_ : List UInt8) : List (List UInt8) :=
  if p.2.pc = .print then [p.2.msg] else []

def threadReads (isAdmin : Bool) : List (List UInt8) → List (List UInt8)
  | [] => [[]]
  | msg :: reads =>
    if isShutdown msg && isAdmin then msg :: List.replicate 7 []
    else msg :: [] :: [] :: threadReads isAdmin reads

theorem readLoop_thread {i : ℕ} {srv : Server} {c : Client} {reads : List (List UInt8)}
    (hpc : c.pc = .read) (hfree : srv.clientsMutex = none)
    (hreads : ∀ msg ∈ reads, msg ≠ [] ∧ msg.length ≤ MAX_BUFFER) :
    ∃ srv' c', run (threadStep i) (srv, c) (threadReads c.isAdmin reads) = some (srv', c') ∧
      c'.pc = .close ∧ srv'.running = (srv.running && !(readLoop c.isAdmin reads).2) ∧
      trace (threadStep i) printed (srv, c) (threadReads c.isAdmin reads) =
        (readLoop c.isAdmin reads).1 := by
  induction reads generalizing c with
  | nil =>
    refine ⟨srv, c.goto .close, ?_, rfl, ?_, ?_⟩
    · simp [threadReads, run, threadStep, stepClient, hpc]
    · simp [readLoop]
    · simp [threadReads, readLoop, trace, threadStep, stepClient, printed, hpc]
  | cons msg reads ih =>
    obtain ⟨hne, hlen⟩ := hreads msg List.mem_cons_self
    have hread : threadStep i (srv, c) msg = some (srv, { c with pc := .print, msg }) := by
      simp [threadStep, stepClient, hpc, hne, hlen]
    have hprint : threadStep i (srv, { c with pc := .print, msg }) [] =
        some (srv, { c with pc := .test, msg }) := rfl
    by_cases hobey : (isShutdown msg && c.isAdmin) = true
    · have htest : threadStep i (srv, { c with pc := .test, msg }) [] =
          some (srv, { c with pc := .printStop, msg }) := by
        simp [threadStep, stepClient, Client.goto, hobey]
      have hlock : threadStep i (srv, { c with pc := .lockWaiting, msg }) [] =
          some ({ srv with clientsMutex := some (.client i) }, { c with pc := .printWaiting, msg }) := by
        simp [threadStep, stepClient, Client.goto, acquire, hfree]
      have hstop : threadStep i (srv, { c with pc := .printStop, msg }) [] =
          some (srv, { c with pc := .lockWaiting, msg }) := rfl
      refine ⟨{ srv with running := false, clientsMutex := none },
        { c with pc := .close, msg }, ?_, rfl, ?_, ?_⟩
      · simp only [threadReads, if_pos hobey, List.replicate, run, hread, hprint, htest, hstop, hlock,
          Option.bind_some]
        rfl
      · simp [readLoop, hobey]
      · simp only [threadReads, readLoop, if_pos hobey, List.replicate, trace, hread, hprint, htest,
          hstop, hlock, Option.elim_some, printed, hpc]
        rfl
    · have htest : threadStep i (srv, { c with pc := .test, msg }) [] =
          some (srv, { c with pc := .read, msg }) := by
        simp [threadStep, stepClient, Client.goto, hobey]
      have hrest : ∀ m ∈ reads, m ≠ [] ∧ m.length ≤ MAX_BUFFER :=
        fun m hm => hreads m (List.mem_cons_of_mem _ hm)
      obtain ⟨srv', c', hrun, hclose, hrunning, hprinted⟩ := @ih { c with pc := .read, msg } rfl hrest
      refine ⟨srv', c', ?_, hclose, ?_, ?_⟩
      · simp only [threadReads, if_neg hobey, run, hread, hprint, htest, Option.bind_some]
        exact hrun
      · simp only [readLoop, if_neg hobey]
        exact hrunning
      · simp only [threadReads, readLoop, if_neg hobey, trace, hread, hprint, htest,
          Option.elim_some, hprinted]
        simp [printed, hpc]

end Thread

section Sends

variable {line : Line} {lines : List Line}

theorem isShutdown_line (line : Line) :
    isShutdown line.bytes = true ↔ shutdownCommand <+: line.body := by
  rw [isShutdown_iff]
  exact prefix_stop (by decide) line.body []

theorem prefix_replace {literal : List UInt8} (hnul : 0 ∉ literal) (hnewline : newline ∉ literal)
    (bytes : List UInt8) : literal <+: replaceNewlineWithNull bytes ↔ literal <+: bytes := by
  unfold replaceNewlineWithNull
  induction literal generalizing bytes with
  | nil => simp
  | cons c literal ih =>
    obtain ⟨hc, hrest⟩ := not_or.mp (mt List.mem_cons.mpr hnul)
    obtain ⟨hc', hrest'⟩ := not_or.mp (mt List.mem_cons.mpr hnewline)
    cases bytes with
    | nil => rfl
    | cons b bytes =>
      by_cases hb : b = 0
      · simp [mapInPlace, hb]
      · have hhead : c = (if b = newline then 0 else b) ↔ c = b := by
          split
          case isTrue hb' => exact iff_of_false (Ne.symm hc) (fun heq => hc' (hb' ▸ heq).symm)
          case isFalse => rfl
        simp only [mapInPlace, hb, if_false, List.cons_prefix_cons, hhead, ih hrest hrest']

theorem stops_iff (line : Line) (rest : List UInt8) :
    strncmpEq 9 (replaceNewlineWithNull (line.bytes ++ 0 :: rest)) (shutdownCommand ++ [0]) = true ↔
      shutdownCommand <+: line.body := by
  rw [show 9 = shutdownCommand.length from rfl, strncmpEq_literal (by decide),
    prefix_replace (by decide) (by decide), Lines.Line.bytes, List.append_assoc]
  exact prefix_stop (by decide) line.body (0 :: rest)

theorem readLoop_sends (h : ∀ line ∈ lines, 0 ∉ line.body) (isAdmin : Bool) :
    (readLoop isAdmin (sendLines lines)).1 = sendLines lines := by
  induction lines with
  | nil => rfl
  | cons line lines ih =>
    have hstops := (stops_iff line []).trans (isShutdown_line line).symm
    by_cases hstop : isShutdown line.bytes = true
    · rw [sendLines, if_pos (hstops.mpr hstop)]
      cases isAdmin <;> simp [readLoop, hstop]
    · rw [sendLines, if_neg (mt hstops.mp hstop)]
      have hrest := ih fun l hl => h l (List.mem_cons_of_mem _ hl)
      simp [readLoop, hstop, hrest]

theorem sendLines_cons (line : Line) (lines : List Line) :
    ∃ rest, sendLines (line :: lines) = line.bytes :: rest := by
  unfold sendLines
  split
  · exact ⟨[], rfl⟩
  · exact ⟨sendLines lines, rfl⟩

end Sends

section Cuts

variable {isAdmin : Bool} {reads : List (List UInt8)}

theorem readLoop_prefix (isAdmin : Bool) (reads : List (List UInt8)) :
    (readLoop isAdmin reads).1 <+: reads := by
  induction reads with
  | nil => exact List.nil_prefix
  | cons msg reads ih =>
    unfold readLoop
    split
    · exact ⟨reads, rfl⟩
    · exact List.cons_prefix_cons.mpr ⟨rfl, ih⟩

theorem readLoop_ne_nil (h : reads ≠ []) : (readLoop isAdmin reads).1 ≠ [] := by
  cases reads with
  | nil => exact absurd rfl h
  | cons msg reads =>
    unfold readLoop
    split <;> simp

theorem name_eq {name username body rest tail : List UInt8} (hname : newline ∉ name)
    (husername : newline ∉ username) (hbody : newline ∉ body)
    (h : name ++ (body ++ newline :: rest) = username ++ (body ++ newline :: tail)) :
    name = username := by
  have hleft : newline ∉ name ++ body := fun hmem =>
    (List.mem_append.mp hmem).elim hname hbody
  have hright : newline ∉ username ++ body := fun hmem =>
    (List.mem_append.mp hmem).elim husername hbody
  have hfirst := congrArg (List.takeWhile (· ≠ newline)) h
  rw [← List.append_assoc, ← List.append_assoc] at hfirst
  have hlines := (Lines.takeWhile_line ⟨name ++ body, hleft⟩ rest).symm.trans
    (hfirst.trans (Lines.takeWhile_line ⟨username ++ body, hright⟩ tail))
  exact List.append_cancel_right hlines

theorem Reads.exists_cons {talk : Talk} (reads : Reads talk.sends.flatten) :
    ∃ name tail, reads.chunks = name :: tail := by
  apply List.exists_cons_of_ne_nil
  intro hnil
  have hflat := reads.flatten
  rw [hnil, Talk.sends, List.flatten_cons] at hflat
  exact talk.named (List.append_eq_nil_iff.mp hflat.symm).1

theorem Reads.eq_nil_of_flatten {sent : List UInt8} (reads : Reads sent) {left : List (List UInt8)}
    (hsub : ∀ chunk ∈ left, chunk ∈ reads.chunks) (hempty : left.flatten = []) : left = [] := by
  apply List.eq_nil_iff_forall_not_mem.mpr
  intro chunk hmem
  exact reads.nonempty chunk (hsub chunk hmem) (List.flatten_eq_nil_iff.mp hempty chunk hmem)

theorem name_of_flatten {line : Line} {lines : List Line} {name username left : List UInt8}
    (husername : newline ∉ username)
    (hflat : name ++ ((sendLines (line :: lines)).flatten ++ left) =
      username ++ (sendLines (line :: lines)).flatten) : name = username := by
  obtain ⟨rest, hrest⟩ := sendLines_cons line lines
  have hbytes : line.bytes = line.body ++ [newline] := rfl
  rw [hrest, List.flatten_cons, hbytes] at hflat
  have hlen : name.length ≤ username.length := by
    have hall := congrArg List.length hflat
    simp only [List.length_append] at hall
    omega
  have hname : name <+: username :=
    List.prefix_of_prefix_length_le ⟨_, hflat⟩ (List.prefix_append ..) hlen
  apply name_eq (fun hmem => husername (hname.subset hmem)) husername line.noNewline
  simpa using hflat

theorem session_eq_iff (admins : Admins) (memory : Memory) (talk : Talk)
    (reads : Reads talk.sends.flatten) :
    session admins memory reads.chunks = session admins memory talk.sends ↔
      reads.chunks = talk.sends := by
  constructor
  · intro h
    obtain ⟨name, tail, hchunks⟩ := reads.exists_cons
    have hmessages := congrArg Session.messages h
    simp only [session, hchunks, Talk.sends, List.tail_cons, readLoop_sends talk.noNul] at hmessages
    generalize ChatServer.isAdmin admins _ = admin at hmessages
    obtain ⟨left, htail⟩ := readLoop_prefix admin tail
    rw [hmessages] at htail
    have hflat := reads.flatten
    rw [hchunks, ← htail, Talk.sends, List.flatten_cons, List.flatten_append, List.flatten_cons] at hflat
    have hnone : left.flatten = [] → left = [] := by
      apply reads.eq_nil_of_flatten
      intro chunk hmem
      rw [hchunks, ← htail]
      exact List.mem_cons_of_mem _ (List.mem_append_right _ hmem)
    cases hlines : talk.lines with
    | nil =>
      have hstart : tail = [] := by
        by_contra hne
        apply readLoop_ne_nil hne
        rw [hmessages, hlines]
        rfl
      rw [hlines, hstart] at htail
      obtain ⟨-, hleft⟩ := List.append_eq_nil_iff.mp htail
      rw [hlines, hleft] at hflat
      rw [hchunks, hstart, Talk.sends, hlines]
      simpa [sendLines] using hflat
    | cons line lines =>
      have hsame : name = talk.username.bytes := by
        rw [hlines] at hflat
        exact name_of_flatten talk.noNewline hflat
      rw [hsame] at hflat
      have hsuffix := List.append_cancel_left hflat
      rw [List.append_right_eq_self] at hsuffix
      rw [hchunks, ← htail, hnone hsuffix, List.append_nil, Talk.sends, hsame]
  · intro h
    rw [h]

end Cuts

def cleared : Memory := ⟨List.replicate 50 0, [], List.length_replicate⟩

def bobStops : Talk where
  username := bob
  named := by decide
  short := by decide
  noNewline := by decide
  lines := [⟨shutdownCommand, by decide⟩]
  fits := by decide
  noNul := by decide

def cutCommand : List (List UInt8) := [text "bob", text "/shut", text "down\n"]

def joinedName : List (List UInt8) := [text "bob/shutdown\n"]

theorem cuts_matter :
    (session bobOnly cleared bobStops.sends).shutdown = true ∧
      cutCommand.flatten = bobStops.sends.flatten ∧
      (session bobOnly cleared cutCommand).shutdown = false ∧
      joinedName.flatten = bobStops.sends.flatten ∧
      (session bobOnly cleared joinedName).username.bytes = text "bob/shutdown" ∧
      (session bobOnly cleared joinedName).shutdown = false := by
  decide +kernel

end PsOs.ChatServer
