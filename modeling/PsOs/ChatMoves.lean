import PsOs.ChatServer

namespace PsOs.ChatServer

open CStrings Threads TransitionSystems

variable {admins : Admins}

inductive ClientMove (i : ℕ) (srv : Server) (c : Client) : Server → Client → Prop
  | eof (hpc : c.pc = .read) : ClientMove i srv c srv (c.goto .close)
  | receive (msg : List UInt8) (hpc : c.pc = .read) (hmsg : msg ≠ [])
      (hlen : msg.length ≤ MAX_BUFFER) : ClientMove i srv c srv { c with pc := .print, msg := msg }
  | print (hpc : c.pc = .print) : ClientMove i srv c srv (c.goto .test)
  | ignore (hpc : c.pc = .test) : ClientMove i srv c srv (c.goto .read)
  | obey (hpc : c.pc = .test) (hmsg : isShutdown c.msg = true) (hadmin : c.isAdmin = true) :
      ClientMove i srv c srv (c.goto .printStop)
  | printStop (hpc : c.pc = .printStop) : ClientMove i srv c srv (c.goto .lockWaiting)
  | lockWaiting (hpc : c.pc = .lockWaiting) (hfree : srv.clientsMutex = none) :
      ClientMove i srv c { srv with clientsMutex := some (.client i) } (c.goto .printWaiting)
  | printWaiting (hpc : c.pc = .printWaiting) : ClientMove i srv c srv (c.goto .unlockWaiting)
  | unlockWaiting (hpc : c.pc = .unlockWaiting) :
      ClientMove i srv c { srv with clientsMutex := none } (c.goto .stop)
  | stop (hpc : c.pc = .stop) : ClientMove i srv c { srv with running := false } (c.goto .close)
  | close (hpc : c.pc = .close) : ClientMove i srv c srv (c.goto .lockLeave)
  | lockLeave (hpc : c.pc = .lockLeave) (hfree : srv.clientsMutex = none) :
      ClientMove i srv c { srv with clientsMutex := some (.client i) } (c.goto .leave)
  | leave (hpc : c.pc = .leave) :
      ClientMove i srv c { srv with clientCount := srv.clientCount - 1 } (c.goto .unlockLeave)
  | unlockLeave (hpc : c.pc = .unlockLeave) :
      ClientMove i srv c { srv with clientsMutex := none } (c.goto .returned)

structure ClientFrame (srv srv' : Server) (c c' : Client) : Prop where
  spawned : srv'.spawned = srv.spawned
  listener : srv'.listener = srv.listener
  main : srv'.main = srv.main
  clientSockets : srv'.clientSockets = srv.clientSockets
  clientThreads : srv'.clientThreads = srv.clientThreads
  closed : srv'.closed = srv.closed
  joined : srv'.joined = srv.joined
  socket : c'.socket = c.socket
  cancelRequested : c'.cancelRequested = c.cancelRequested

theorem ClientMove.frame {i : ℕ} {srv srv' : Server} {c c' : Client}
    (hm : ClientMove i srv c srv' c') : ClientFrame srv srv' c c' := by
  cases hm <;> constructor <;> rfl

theorem ClientMove.born {i : ℕ} {srv srv' : Server} {c c' : Client}
    (hm : ClientMove i srv c srv' c') : c.pc ≠ .unborn := by
  cases hm <;> simp [*]

theorem stepClient_move {i : ℕ} {received : List UInt8} {srv srv' : Server} {c c' : Client}
    (h : stepClient i received srv c = some (srv', c')) : ClientMove i srv c srv' c' := by
  unfold stepClient at h
  cases hpc : c.pc <;> simp only [hpc] at h
  case read =>
    split at h
    · cases h; exact .eof hpc
    · split at h <;> cases h
      exact .receive received hpc ‹_› ‹_›
  case print => cases h; exact .print hpc
  case test =>
    cases h
    by_cases hobey : isShutdown c.msg = true ∧ c.isAdmin = true
    · rw [hobey.1, hobey.2]
      exact .obey hpc hobey.1 hobey.2
    · rw [← Bool.and_eq_true] at hobey
      rw [if_neg hobey]
      exact .ignore hpc
  case printStop => cases h; exact .printStop hpc
  case lockWaiting =>
    simp only [Option.map_eq_some_iff, acquire_eq_some] at h
    obtain ⟨m, ⟨hfree, rfl⟩, h⟩ := h
    cases h
    exact .lockWaiting hpc hfree
  case printWaiting => cases h; exact .printWaiting hpc
  case unlockWaiting => cases h; exact .unlockWaiting hpc
  case stop => cases h; exact .stop hpc
  case close => cases h; exact .close hpc
  case lockLeave =>
    simp only [Option.map_eq_some_iff, acquire_eq_some] at h
    obtain ⟨m, ⟨hfree, rfl⟩, h⟩ := h
    cases h
    exact .lockLeave hpc hfree
  case leave => cases h; exact .leave hpc
  case unlockLeave => cases h; exact .unlockLeave hpc
  all_goals cases h

inductive ListenerMove (admins : Admins) (srv : Server) : Action → Server → Prop
  | accept (hpc : srv.listener = .guard) : ListenerMove admins srv .listener (srv.goto .accept)
  | finish (hpc : srv.listener = .guard) : ListenerMove admins srv .listener (srv.goto .returned)
  | accepted (result : Accept) (hpc : srv.listener = .accept) :
      ListenerMove admins srv (.accept result) (accepted srv result)
  | lockCheck (socket : ℕ) (hpc : srv.listener = .lockCheck socket)
      (hfree : srv.clientsMutex = none) : ListenerMove admins srv .listener
        { srv with clientsMutex := some .listener, listener := .check socket }
  | full (socket : ℕ) (hpc : srv.listener = .check socket)
      (hfull : MAX_CONNECTIONS ≤ srv.clientCount) :
      ListenerMove admins srv .listener (srv.goto (.unlockFull socket))
  | room (socket : ℕ) (hpc : srv.listener = .check socket)
      (hroom : srv.clientCount < MAX_CONNECTIONS) :
      ListenerMove admins srv .listener (srv.goto (.unlockCheck socket))
  | unlockFull (socket : ℕ) (hpc : srv.listener = .unlockFull socket) :
      ListenerMove admins srv .listener
        { srv with clientsMutex := none, listener := .closeFull socket }
  | closeFull (socket : ℕ) (hpc : srv.listener = .closeFull socket) :
      ListenerMove admins srv .listener (srv.goto .guard)
  | unlockCheck (socket : ℕ) (hpc : srv.listener = .unlockCheck socket) :
      ListenerMove admins srv .listener
        { srv with clientsMutex := none, listener := .readName socket }
  | login (socket : ℕ) (l : Login) (hpc : srv.listener = .readName socket) :
      ListenerMove admins srv (.login l) (srv.goto (.lockInsert (l.client admins socket)))
  | lockInsert (client : Client) (hpc : srv.listener = .lockInsert client)
      (hfree : srv.clientsMutex = none) : ListenerMove admins srv .listener
        { srv with clientsMutex := some .listener, listener := .storeSocket client }
  | storeSocket (client : Client) (hpc : srv.listener = .storeSocket client) :
      ListenerMove admins srv .listener { srv with
        clientSockets := Function.update srv.clientSockets srv.clientCount client.socket
        listener := .create client }
  | increment (hpc : srv.listener = .increment) : ListenerMove admins srv .listener
      { srv with clientCount := srv.clientCount + 1, listener := .print }
  | print (hpc : srv.listener = .print) :
      ListenerMove admins srv .listener (srv.goto .unlockInsert)
  | unlockInsert (hpc : srv.listener = .unlockInsert) : ListenerMove admins srv .listener
      { srv with clientsMutex := none, listener := .guard }
  | cancelled (hreq : srv.listenerCancelRequested = true)
      (hpoint : srv.listener.cancellationPoint = true) :
      ListenerMove admins srv .cancelListener (srv.goto .cancelled)

inductive MainMove (s : State) : Server → Prop
  | spin (hpc : s.shared.main = .spin) : MainMove s { s.shared with main := .spin }
  | stopped (hpc : s.shared.main = .spin) : MainMove s { s.shared with main := .cancelListener }
  | cancelListener (hpc : s.shared.main = .cancelListener) :
      MainMove s { s.shared with listenerCancelRequested := true, main := .joinListener }
  | joinListener (hpc : s.shared.main = .joinListener)
      (hterm : s.shared.listener.terminated = true) :
      MainMove s { s.shared with main := .loop 0 }
  | enter (i : ℕ) (hpc : s.shared.main = .loop i) (hi : i < s.shared.clientCount) :
      MainMove s { s.shared with main := .close i }
  | exit (i : ℕ) (hpc : s.shared.main = .loop i) (hi : s.shared.clientCount ≤ i) :
      MainMove s { s.shared with main := .closeServer }
  | close (i : ℕ) (hpc : s.shared.main = .close i) : MainMove s { s.shared with
      closed := s.shared.closed ++ [s.shared.clientSockets i], main := .cancel i }
  | join (i j : ℕ) (hpc : s.shared.main = .join i) (hj : s.shared.clientThreads i = some j)
      (hterm : (s.locals j).terminated = true) :
      MainMove s { s.shared with joined := s.shared.joined ++ [j], main := .loop (i + 1) }
  | closeServer (hpc : s.shared.main = .closeServer) :
      MainMove s { s.shared with main := .finished }

structure MainFrame (srv srv' : Server) : Prop where
  running : srv'.running = srv.running
  clientsMutex : srv'.clientsMutex = srv.clientsMutex
  clientCount : srv'.clientCount = srv.clientCount
  clientSockets : srv'.clientSockets = srv.clientSockets
  clientThreads : srv'.clientThreads = srv.clientThreads
  spawned : srv'.spawned = srv.spawned
  listener : srv'.listener = srv.listener

theorem MainMove.frame {s : State} {srv' : Server} (hm : MainMove s srv') :
    MainFrame s.shared srv' := by
  cases hm <;> constructor <;> rfl

theorem born_of_cancellationPoint {c : Client} (h : c.pc.cancellationPoint = true) :
    c.pc ≠ .unborn := by
  intro hpc
  rw [hpc] at h
  cases h

inductive Move (admins : Admins) (s : State) : Action → State → Prop
  | sigint : Move admins s .sigint { s with shared := { s.shared with running := false } }
  | client (i : ℕ) (received : List UInt8) (srv' : Server) (c' : Client)
      (hm : ClientMove i s.shared (s.locals i) srv' c') :
      Move admins s (.client i received) ⟨srv', Function.update s.locals i c'⟩
  | cancelClient (i : ℕ) (hreq : (s.locals i).cancelRequested = true)
      (hpoint : (s.locals i).pc.cancellationPoint = true) :
      Move admins s (.cancelClient i)
        ⟨s.shared, Function.update s.locals i ((s.locals i).goto .cancelled)⟩
  | listener (a : Action) (srv' : Server) (hm : ListenerMove admins s.shared a srv') :
      Move admins s a ⟨srv', s.locals⟩
  | create (client : Client) (hpc : s.shared.listener = .create client) :
      Move admins s .listener (createThread s client)
  | main (srv' : Server) (hm : MainMove s srv') : Move admins s .main ⟨srv', s.locals⟩
  | cancel (i j : ℕ) (hpc : s.shared.main = .cancel i) (hj : s.shared.clientThreads i = some j) :
      Move admins s .main ⟨{ s.shared with main := .join i },
        Function.update s.locals j { s.locals j with cancelRequested := true }⟩

theorem stepListener_move {s t : State} (h : stepListener s = some t) :
    Move admins s .listener t := by
  unfold stepListener at h
  cases hpc : s.shared.listener <;> simp only [hpc] at h
  case guard =>
    cases h
    split
    · exact .listener _ _ (.accept hpc)
    · exact .listener _ _ (.finish hpc)
  case lockCheck socket =>
    simp only [Option.map_eq_some_iff, acquire_eq_some] at h
    obtain ⟨m, ⟨hfree, rfl⟩, rfl⟩ := h
    exact .listener _ _ (.lockCheck socket hpc hfree)
  case check socket =>
    cases h
    split
    · exact .listener _ _ (.full socket hpc ‹_›)
    · exact .listener _ _ (.room socket hpc (not_le.mp ‹_›))
  case unlockFull socket => cases h; exact .listener _ _ (.unlockFull socket hpc)
  case closeFull socket => cases h; exact .listener _ _ (.closeFull socket hpc)
  case unlockCheck socket => cases h; exact .listener _ _ (.unlockCheck socket hpc)
  case lockInsert client =>
    simp only [Option.map_eq_some_iff, acquire_eq_some] at h
    obtain ⟨m, ⟨hfree, rfl⟩, rfl⟩ := h
    exact .listener _ _ (.lockInsert client hpc hfree)
  case storeSocket client => cases h; exact .listener _ _ (.storeSocket client hpc)
  case create client => cases h; exact .create client hpc
  case increment => cases h; exact .listener _ _ (.increment hpc)
  case print => cases h; exact .listener _ _ (.print hpc)
  case unlockInsert => cases h; exact .listener _ _ (.unlockInsert hpc)
  all_goals cases h

theorem stepMain_move {s t : State} (h : stepMain s = some t) : Move admins s .main t := by
  unfold stepMain at h
  cases hpc : s.shared.main <;> simp only [hpc] at h
  case spin =>
    cases h
    split
    · exact .main _ (.spin hpc)
    · exact .main _ (.stopped hpc)
  case cancelListener => cases h; exact .main _ (.cancelListener hpc)
  case joinListener =>
    split at h <;> cases h
    exact .main _ (.joinListener hpc ‹_›)
  case loop i =>
    cases h
    split
    · exact .main _ (.enter i hpc ‹_›)
    · exact .main _ (.exit i hpc (not_lt.mp ‹_›))
  case close i => cases h; exact .main _ (.close i hpc)
  case cancel i =>
    obtain ⟨j, hj, rfl⟩ := Option.map_eq_some_iff.mp h
    exact .cancel i j hpc hj
  case join i =>
    obtain ⟨j, hj, h⟩ := Option.bind_eq_some_iff.mp h
    split at h <;> cases h
    exact .main _ (.join i j hpc hj ‹_›)
  case closeServer => cases h; exact .main _ (.closeServer hpc)
  case finished => cases h

theorem step_move {s t : State} {a : Action} (h : step admins s a = some t) :
    Move admins s a t := by
  cases a with
  | sigint => cases h; exact .sigint
  | main => exact stepMain_move h
  | listener => exact stepListener_move h
  | accept result =>
    simp only [step] at h
    split at h <;> cases h
    exact .listener _ _ (.accepted result ‹_›)
  | login l =>
    simp only [step] at h
    split at h <;> cases h
    exact .listener _ _ (.login _ l ‹_›)
  | cancelListener =>
    simp only [step] at h
    split at h <;> cases h
    rename_i hcancel
    rw [Bool.and_eq_true] at hcancel
    exact .listener _ _ (.cancelled hcancel.1 hcancel.2)
  | client i received =>
    obtain ⟨srv', c', hm, rfl⟩ := Config.move_eq_some.mp h
    exact .client i received srv' c' (stepClient_move hm)
  | cancelClient i =>
    obtain ⟨srv', c', hm, rfl⟩ := Config.move_eq_some.mp h
    unfold cancelClient at hm
    split at hm <;> cases hm
    rename_i hcancel
    rw [Bool.and_eq_true] at hcancel
    exact .cancelClient i hcancel.1 hcancel.2

end PsOs.ChatServer
