import Mathlib.Data.Fintype.Basic
import PsOs.Decimals
import PsOs.Lines
import PsOs.Threads
import PsOs.TransitionSystems

/-!
`exercise04/task3`: the poll loop of `server.c` and the clients that write lines to their FIFOs.
A read may return any part of what is in the pipe.
-/

namespace PsOs.FifoServer

open CStrings Decimals Lines Threads TransitionSystems

def PIPE_BUF : ℕ := 80

/-- An integer in a `double`: 53 binary digits, ties to even. -/
def toDouble (x : ℕ) : ℕ :=
  let ulp := 2 ^ (Nat.log2 x - 52)
  let q := x / ulp
  let r := x % ulp
  ulp * if 2 * r < ulp ∨ 2 * r = ulp ∧ q % 2 = 0 then q else q + 1

inductive Writer where
  | writing
  | ended
  | closed
  deriving DecidableEq

/-- A client and what the server keeps about it; `pollin` and `pollhup` are its `revents`. No step
reads `lines`, the lines written so far, and `disconnects`. -/
structure Client where
  writer : Writer
  pipe : List UInt8
  isOpen : Bool
  pollin : Bool
  pollhup : Bool
  counter : ℕ
  lines : List Line
  disconnects : ℕ

inductive Pc where
  | poll
  | event (i : ℕ)
  | hangup (i : ℕ)
  | cleanup
  deriving DecidableEq

structure Server where
  pc : Pc
  closed : ℕ

abbrev State (n : ℕ) := Config (Fin n) Server Client

variable {n : ℕ}

def init (n : ℕ) : State n where
  shared := ⟨.poll, 0⟩
  locals := fun _ => ⟨.writing, [], true, false, false, 0, [], 0⟩

def writeLine (line : Line) (srv : Server) (client : Client) : Option (Server × Client) :=
  if client.writer = .writing ∧ line.bytes.length < PIPE_BUF ∧ 0 ∉ line.body then
    some (srv, { client with
      writer := if line.body = [] then .ended else .writing
      pipe := client.pipe ++ line.bytes
      lines := client.lines ++ [line] })
  else none

def closeEnd (srv : Server) (client : Client) : Option (Server × Client) :=
  if client.writer = .closed then none else some (srv, { client with writer := .closed })

def Client.polled (client : Client) : Client :=
  { client with
    pollin := client.isOpen && !client.pipe.isEmpty
    pollhup := client.isOpen && client.writer = .closed }

def receive (i : ℕ) (count : ℕ) (beyond : List UInt8) (srv : Server) (client : Client) :
    Server × Client :=
  let readBuffer := client.pipe.take count ++ List.replicate (PIPE_BUF - count) 0
  let result := (atoi (readBuffer ++ beyond)).toInt
  let client := { client with pipe := client.pipe.drop count }
  if readBuffer.head? = some newline then
    (⟨.poll, srv.closed + 1⟩, { client with disconnects := client.disconnects + 1 })
  else if 0 < result then
    ({ srv with pc := .hangup i }, { client with
      counter := toDouble (client.counter + result.toNat) })
  else ({ srv with pc := .hangup i }, client)

def stepServer (count : ℕ) (beyond : List UInt8) (s : State n) : Option (State n) :=
  match s.shared.pc with
  | .poll =>
    if s.shared.closed < n then
      some ⟨{ s.shared with pc := .event 0 }, fun i => (s.locals i).polled⟩
    else some { s with shared := { s.shared with pc := .cleanup } }
  | .event i =>
    if h : i < n then
      let client := s.locals ⟨i, h⟩
      if client.pollin then
        if 0 < count ∧ count ≤ PIPE_BUF ∧ count ≤ client.pipe.length then
          s.move ⟨i, h⟩ (some (receive i count beyond s.shared client))
        else none
      else some { s with shared := { s.shared with pc := .hangup i } }
    else some { s with shared := { s.shared with pc := .poll } }
  | .hangup i =>
    if h : i < n then
      let client := s.locals ⟨i, h⟩
      s.move ⟨i, h⟩ (some ({ s.shared with pc := .event (i + 1) },
        { client with isOpen := client.isOpen && !client.pollhup }))
    else none
  | .cleanup => none

inductive Action (n : ℕ) where
  | write (i : Fin n) (line : Line)
  | close (i : Fin n)
  | server (count : ℕ) (beyond : List UInt8)

def step (s : State n) : Action n → Option (State n)
  | .write i line => s.move i (writeLine line s.shared (s.locals i))
  | .close i => s.move i (closeEnd s.shared (s.locals i))
  | .server count beyond => stepServer count beyond s

inductive Move (s : State n) : Action n → State n → Prop
  | write (i : Fin n) (line : Line) (hwriting : (s.locals i).writer = .writing)
      (hlen : line.bytes.length < PIPE_BUF) (hnul : 0 ∉ line.body) :
      Move s (.write i line) ⟨s.shared, Function.update s.locals i { s.locals i with
        writer := if line.body = [] then .ended else .writing
        pipe := (s.locals i).pipe ++ line.bytes
        lines := (s.locals i).lines ++ [line] }⟩
  | close (i : Fin n) (hopen : (s.locals i).writer ≠ .closed) :
      Move s (.close i)
        ⟨s.shared, Function.update s.locals i { s.locals i with writer := .closed }⟩
  | poll (count : ℕ) (beyond : List UInt8) (hpc : s.shared.pc = .poll) (hopen : s.shared.closed < n) :
      Move s (.server count beyond)
        ⟨{ s.shared with pc := .event 0 }, fun i => (s.locals i).polled⟩
  | leave (count : ℕ) (beyond : List UInt8) (hpc : s.shared.pc = .poll)
      (hclosed : n ≤ s.shared.closed) :
      Move s (.server count beyond) { s with shared := { s.shared with pc := .cleanup } }
  | read (i : Fin n) (count : ℕ) (beyond : List UInt8) (hpc : s.shared.pc = .event i)
      (hin : (s.locals i).pollin = true) (hpos : 0 < count) (hbuf : count ≤ PIPE_BUF)
      (hlen : count ≤ (s.locals i).pipe.length) :
      Move s (.server count beyond) ⟨(receive i count beyond s.shared (s.locals i)).1,
        Function.update s.locals i (receive i count beyond s.shared (s.locals i)).2⟩
  | skip (i : Fin n) (count : ℕ) (beyond : List UInt8) (hpc : s.shared.pc = .event i)
      (hin : (s.locals i).pollin = false) :
      Move s (.server count beyond) { s with shared := { s.shared with pc := .hangup i } }
  | again (i : ℕ) (count : ℕ) (beyond : List UInt8) (hpc : s.shared.pc = .event i) (hi : n ≤ i) :
      Move s (.server count beyond) { s with shared := { s.shared with pc := .poll } }
  | hangup (i : Fin n) (count : ℕ) (beyond : List UInt8) (hpc : s.shared.pc = .hangup i) :
      Move s (.server count beyond) ⟨{ s.shared with pc := .event (i + 1) },
        Function.update s.locals i { s.locals i with
          isOpen := (s.locals i).isOpen && !(s.locals i).pollhup }⟩

theorem step_move {s t : State n} {a : Action n} (h : step s a = some t) : Move s a t := by
  cases a with
  | write i line =>
    obtain ⟨srv', client', hm, rfl⟩ := Config.move_eq_some.mp h
    unfold writeLine at hm
    split at hm <;> cases hm
    rename_i hwrite
    exact .write i line hwrite.1 hwrite.2.1 hwrite.2.2
  | close i =>
    obtain ⟨srv', client', hm, rfl⟩ := Config.move_eq_some.mp h
    unfold closeEnd at hm
    split at hm <;> cases hm
    exact .close i ‹_›
  | server count beyond =>
    simp only [step, stepServer] at h
    cases hpc : s.shared.pc <;> simp only [hpc] at h
    case poll =>
      split at h <;> cases h
      · exact .poll count beyond hpc ‹_›
      · exact .leave count beyond hpc (not_lt.mp ‹_›)
    case event i =>
      split at h
      · split at h
        · split at h
          case isTrue hcount =>
            cases h
            exact .read ⟨i, _⟩ count beyond hpc ‹_› hcount.1 hcount.2.1 hcount.2.2
          case isFalse => cases h
        · cases h
          exact .skip ⟨i, _⟩ count beyond hpc (Bool.eq_false_iff.mpr ‹_›)
      · cases h
        exact .again i count beyond hpc (not_lt.mp ‹_›)
    case hangup i =>
      split at h <;> cases h
      exact .hangup ⟨i, _⟩ count beyond hpc
    case cleanup => cases h

end PsOs.FifoServer
