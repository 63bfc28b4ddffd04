import PsOs.CStrings
import PsOs.Threads
import PsOs.TransitionSystems

/-!
`exercise09/task1/server.c` from the creation of the listener thread on: `main`, the listener
and the client threads, which are numbered in the order of their creation. A thread that has
been cancelled may terminate at any of its cancellation points.
-/

namespace PsOs.ChatServer

open CStrings Threads TransitionSystems

def MAX_BUFFER : ℕ := 1024

def MAX_CONNECTIONS : ℤ := 16

def MAX_ADMINS : ℕ := 5

def newline : UInt8 := 10

def shutdownCommand : List UInt8 := [47, 115, 104, 117, 116, 100, 111, 119, 110]

structure Admins where
  names : List CString
  nonempty : 1 ≤ names.length
  le_max : names.length ≤ MAX_ADMINS
  -- what follows `admin_usernames` in memory
  beyond : List UInt8

def usernameField (name : CString) : List UInt8 :=
  name.bytes.take 50 ++ List.replicate (50 - name.length) 0

/-- A field that its name fills has no terminator and runs on into the next one. -/
def fieldStrings (beyond : List UInt8) : List (List UInt8) → List CString
  | [] => []
  | field :: fields => .read (field ++ (fields.flatten ++ beyond)) :: fieldStrings beyond fields

def Admins.usernames (admins : Admins) : List CString :=
  fieldStrings admins.beyond ((admins.names ++
    List.replicate (MAX_ADMINS - admins.names.length) CString.empty).map usernameField)

/-- The read of a username: the first `count` of the bytes `sent` and of those `later` sends have
brought, on top of the `old` content of the field; `beyond` is what follows the field in memory up
to a terminator. -/
structure Login where
  sent : List UInt8
  later : List UInt8
  count : ℕ
  old : List UInt8
  beyond : List UInt8
  count_le : count ≤ 50
  old_length : old.length = 50

def Login.received (l : Login) : List UInt8 := (l.sent ++ l.later).take l.count

def Login.memory (l : Login) : List UInt8 :=
  l.received ++ l.old.drop l.received.length ++ l.beyond

def Login.username (l : Login) : CString :=
  .read (l.memory.set (strcspn l.memory newline) 0)

def isAdmin (admins : Admins) (username : CString) : Bool :=
  admins.usernames.any fun admin => username == admin

def transmitted (sent : List UInt8) : List UInt8 := sent.takeWhile (· ≠ newline)

inductive ClientPc where
  | unborn
  | read
  | print
  | test
  | printStop
  | lockWaiting
  | printWaiting
  | unlockWaiting
  | stop
  | close
  | lockLeave
  | leave
  | unlockLeave
  | returned
  | cancelled
  deriving DecidableEq

structure Client where
  pc : ClientPc
  socket : ℕ
  username : CString
  isAdmin : Bool
  msg : List UInt8
  cancelRequested : Bool
  -- what the client transmitted as its username; no step reads it
  sent : List UInt8

inductive ListenerPc where
  | guard
  | accept
  | lockCheck (socket : ℕ)
  | check (socket : ℕ)
  | unlockFull (socket : ℕ)
  | closeFull (socket : ℕ)
  | unlockCheck (socket : ℕ)
  | readName (socket : ℕ)
  | lockInsert (client : Client)
  | storeSocket (client : Client)
  | create (client : Client)
  | increment
  | print
  | unlockInsert
  | returned
  | cancelled

inductive MainPc where
  | spin
  | cancelListener
  | joinListener
  | loop (i : ℕ)
  | close (i : ℕ)
  | cancel (i : ℕ)
  | join (i : ℕ)
  | closeServer
  | finished
  deriving DecidableEq

inductive Owner where
  | listener
  | client (i : ℕ)
  deriving DecidableEq

structure Server where
  running : Bool
  clientsMutex : Option Owner
  clientCount : ℤ
  clientSockets : ℤ → ℕ
  clientThreads : ℤ → Option ℕ
  spawned : ℕ
  listener : ListenerPc
  listenerCancelRequested : Bool
  main : MainPc
  -- what the final loop has done; no step reads it
  closed : List ℕ
  joined : List ℕ

abbrev State := Config ℕ Server Client

def init : State where
  shared := ⟨true, none, 0, fun _ => 0, fun _ => none, 0, .guard, false, .spin, [], []⟩
  locals := fun _ => ⟨.unborn, 0, .empty, false, [], false, []⟩

def Client.goto (c : Client) (pc : ClientPc) : Client := { c with pc }

def Client.terminated (c : Client) : Bool :=
  c.pc = .returned || c.pc = .cancelled

def ListenerPc.terminated : ListenerPc → Bool
  | .returned | .cancelled => true
  | _ => false

def ClientPc.cancellationPoint : ClientPc → Bool
  | .read | .print | .printStop | .printWaiting | .close => true
  | _ => false

def ListenerPc.cancellationPoint : ListenerPc → Bool
  | .accept | .readName _ | .print | .closeFull _ => true
  | _ => false

def isShutdown (msg : List UInt8) : Bool := strncmpEq 9 (msg ++ [0]) (shutdownCommand ++ [0])

def stepClient (i : ℕ) (received : List UInt8) (srv : Server) (c : Client) :
    Option (Server × Client) :=
  match c.pc with
  | .unborn | .returned | .cancelled => none
  | .read =>
    if received = [] then some (srv, c.goto .close)
    else if received.length ≤ MAX_BUFFER then some (srv, { c with pc := .print, msg := received })
    else none
  | .print => some (srv, c.goto .test)
  | .test => some (srv, c.goto (if isShutdown c.msg && c.isAdmin then .printStop else .read))
  | .printStop => some (srv, c.goto .lockWaiting)
  | .lockWaiting => (acquire srv.clientsMutex (Owner.client i)).map fun clientsMutex =>
      ({ srv with clientsMutex }, c.goto .printWaiting)
  | .printWaiting => some (srv, c.goto .unlockWaiting)
  | .unlockWaiting => some ({ srv with clientsMutex := none }, c.goto .stop)
  | .stop => some ({ srv with running := false }, c.goto .close)
  | .close => some (srv, c.goto .lockLeave)
  | .lockLeave => (acquire srv.clientsMutex (Owner.client i)).map fun clientsMutex =>
      ({ srv with clientsMutex }, c.goto .leave)
  -- the table itself stays as it is
  | .leave => some ({ srv with clientCount := srv.clientCount - 1 }, c.goto .unlockLeave)
  | .unlockLeave => some ({ srv with clientsMutex := none }, c.goto .returned)

def cancelClient (srv : Server) (c : Client) : Option (Server × Client) :=
  if c.cancelRequested && c.pc.cancellationPoint then some (srv, c.goto .cancelled) else none

inductive Accept where
  | socket (fd : ℕ)
  | interrupted
  | error

def Server.goto (srv : Server) (pc : ListenerPc) : Server := { srv with listener := pc }

def accepted (srv : Server) : Accept → Server
  | .socket fd => srv.goto (.lockCheck fd)
  | .interrupted => srv.goto .guard
  | .error => srv.goto .returned

def Login.client (l : Login) (admins : Admins) (socket : ℕ) : Client :=
  ⟨.read, socket, l.username, isAdmin admins l.username, [], false, l.sent⟩

def createThread (s : State) (client : Client) : State where
  shared := { s.shared with
    clientThreads :=
      Function.update s.shared.clientThreads s.shared.clientCount (some s.shared.spawned)
    spawned := s.shared.spawned + 1
    listener := .increment }
  locals := Function.update s.locals s.shared.spawned client

def stepListener (s : State) : Option State :=
  let srv := s.shared
  match srv.listener with
  | .guard => some { s with shared := srv.goto (if srv.running then .accept else .returned) }
  | .lockCheck socket => (acquire srv.clientsMutex .listener).map fun clientsMutex =>
      { s with shared := { srv with clientsMutex, listener := .check socket } }
  | .check socket =>
    let next := if MAX_CONNECTIONS ≤ srv.clientCount then .unlockFull socket
      else .unlockCheck socket
    some { s with shared := srv.goto next }
  | .unlockFull socket =>
    some { s with shared := { srv with clientsMutex := none, listener := .closeFull socket } }
  | .closeFull _ => some { s with shared := srv.goto .guard }
  | .unlockCheck socket =>
    some { s with shared := { srv with clientsMutex := none, listener := .readName socket } }
  | .lockInsert client => (acquire srv.clientsMutex .listener).map fun clientsMutex =>
      { s with shared := { srv with clientsMutex, listener := .storeSocket client } }
  | .storeSocket client =>
    some { s with shared := { srv with
      clientSockets := Function.update srv.clientSockets srv.clientCount client.socket
      listener := .create client } }
  | .create client => some (createThread s client)
  | .increment =>
    some { s with shared := { srv with clientCount := srv.clientCount + 1, listener := .print } }
  | .print => some { s with shared := srv.goto .unlockInsert }
  | .unlockInsert =>
    some { s with shared := { srv with clientsMutex := none, listener := .guard } }
  | .accept | .readName _ | .returned | .cancelled => none

def stepMain (s : State) : Option State :=
  let srv := s.shared
  match srv.main with
  | .spin => some { s with shared := { srv with
      main := if srv.running then .spin else .cancelListener } }
  | .cancelListener =>
    some { s with shared := { srv with listenerCancelRequested := true, main := .joinListener } }
  | .joinListener =>
    if srv.listener.terminated then some { s with shared := { srv with main := .loop 0 } } else none
  | .loop i =>
    some { s with shared := { srv with
      main := if (i : ℤ) < srv.clientCount then .close i else .closeServer } }
  | .close i =>
    some { s with shared := { srv with
      closed := srv.closed ++ [srv.clientSockets i]
      main := .cancel i } }
  | .cancel i => (srv.clientThreads i).map fun j =>
      ⟨{ srv with main := .join i },
        Function.update s.locals j { s.locals j with cancelRequested := true }⟩
  | .join i => (srv.clientThreads i).bind fun j =>
      if (s.locals j).terminated then
        some { s with shared := { srv with joined := srv.joined ++ [j], main := .loop (i + 1) } }
      else none
  | .closeServer => some { s with shared := { srv with main := .finished } }
  | .finished => none

inductive Action where
  | sigint
  | main
  | listener
  | accept (result : Accept)
  | login (l : Login)
  | cancelListener
  | client (i : ℕ) (received : List UInt8)
  | cancelClient (i : ℕ)

def step (admins : Admins) (s : State) : Action → Option State
  | .sigint => some { s with shared := { s.shared with running := false } }
  | .main => stepMain s
  | .listener => stepListener s
  | .accept result =>
    match s.shared.listener with
    | .accept => some { s with shared := accepted s.shared result }
    | _ => none
  | .login l =>
    match s.shared.listener with
    | .readName socket =>
      some { s with shared := s.shared.goto (.lockInsert (l.client admins socket)) }
    | _ => none
  | .cancelListener =>
    if s.shared.listenerCancelRequested && s.shared.listener.cancellationPoint then
      some { s with shared := s.shared.goto .cancelled }
    else none
  | .client i received => s.move i (stepClient i received s.shared (s.locals i))
  | .cancelClient i => s.move i (ChatServer.cancelClient s.shared (s.locals i))

def bob : CString := ⟨[98, 111, 98], by decide⟩

def bobOnly : Admins := ⟨[bob], by decide, by decide, []⟩

def freshLogin (sent : List UInt8) : Login :=
  ⟨sent, [], 50, List.replicate 50 0, [], by decide, rfl⟩

def connect (fd : ℕ) (sent : List UInt8) : List Action :=
  [.listener, .accept (.socket fd)] ++ List.replicate 3 .listener ++ [.login (freshLogin sent)] ++
    List.replicate 6 .listener

end PsOs.ChatServer
