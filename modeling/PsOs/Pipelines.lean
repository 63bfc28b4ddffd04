import Mathlib.Algebra.BigOperators.Fin
import Mathlib.Data.Fintype.Basic
import PsOs.TransitionSystems

/-!
Processes that a shell-like program forks one from another, each of which wires its standard
streams to pipes, closes the other descriptors and runs a filter. The calls succeed; a `read` or a
`write` moves any positive number of bytes that there are bytes or room for.
-/

namespace PsOs.Pipelines

open TransitionSystems

variable {β S : Type} {n : ℕ}

inductive Request (β : Type) where
  | read
  | write (bytes : List β)
  | exit

structure Filter (β S : Type) where
  start : S
  request : S → Request β
  read : S → List β → S
  written : S → ℕ → S

inductive Filter.Runs (F : Filter β S) (seen : Bool) : S → List β → Bool → List β → Prop
  | start : F.Runs seen F.start [] seen []
  | chunk {s : S} {xs ys : List β} (h : F.Runs seen s xs false ys) (hread : F.request s = .read)
      (bytes : List β) (hbytes : bytes ≠ []) : F.Runs seen (F.read s bytes) (xs ++ bytes) false ys
  | eof {s : S} {xs ys : List β} (h : F.Runs seen s xs false ys) (hread : F.request s = .read) :
      F.Runs seen (F.read s []) xs true ys
  | written {s : S} {xs ys bytes : List β} {e : Bool} (h : F.Runs seen s xs e ys)
      (hwrite : F.request s = .write bytes) (k : ℕ) (hpos : 0 < k) (hk : k ≤ bytes.length) :
      F.Runs seen (F.written s k) xs e (ys ++ bytes.take k)

/-- Whatever the sizes of the reads and writes, the filter reads its whole input and writes `f` of
it. One that starts with `seen` reads nothing. -/
structure Filter.Computes (F : Filter β S) (f : List β → List β) (seen : Bool) : Prop where
  reading : ∀ {s xs e ys}, F.Runs seen s xs e ys → F.request s = .read → e = false
  writing : ∀ {s xs e ys bytes}, F.Runs seen s xs e ys → F.request s = .write bytes → bytes ≠ []
  early : ∀ {s xs ys}, F.Runs seen s xs false ys → ∀ more, ys <+: f (xs ++ more)
  late : ∀ {s xs ys}, F.Runs seen s xs true ys → ys <+: f xs
  exit : ∀ {s xs e ys}, F.Runs seen s xs e ys → F.request s = .exit → e = true ∧ ys = f xs

inductive End where
  | terminal
  | readEnd (pipe : ℕ)
  | writeEnd (pipe : ℕ)
  deriving DecidableEq

abbrev Table := List (Option End)

def Table.get (t : Table) (fd : ℕ) : Option End := t.getD fd none

def Table.allocate (t : Table) (e : End) : ℕ × Table :=
  let fd := t.findIdx (·.isNone)
  (fd, if fd < t.length then t.set fd (some e) else t ++ [some e])

structure PipeFds where
  read : ℕ
  write : ℕ

def Table.pipe (t : Table) (pipe : ℕ) : PipeFds × Table :=
  let (read, t) := t.allocate (.readEnd pipe)
  let (write, t) := t.allocate (.writeEnd pipe)
  (⟨read, write⟩, t)

inductive Call where
  | dup2 (old new : ℕ)
  | close (fd : ℕ)

def Call.apply (t : Table) : Call → Table
  | .dup2 old new =>
    match t.get old with
    | some e => t.set new (some e)
    | none => t
  | .close fd => t.set fd none

/-- `births` lists the processes after `root`; each of them is forked by the one before it, with
`table` as its descriptors, and then makes the calls of its `script`. -/
structure Plan (n : ℕ) where
  table : Table
  root : Fin n
  births : List (Fin n)
  script : Fin n → List Call

inductive Phase (S : Type) where
  | unborn
  | forking
  | setup (calls : List Call)
  | running (state : S)
  | exited

structure Proc (β S : Type) where
  phase : Phase S
  table : Table
  -- what the filter has read and written so far; no step reads it
  consumed : List β
  eof : Bool
  emitted : List β

structure State (n : ℕ) (β S : Type) where
  procs : Fin n → Proc β S
  pipes : ℕ → List β
  births : List (Fin n)
  output : List β

def source (p : Fin n) : Bool := decide (p.val = 0)

def Plan.enter (plan : Plan n) (births : List (Fin n)) (p : Fin n) : Phase S :=
  if births = [] then .setup (plan.script p) else .forking

def Plan.init (plan : Plan n) : State n β S where
  procs := fun p =>
    if p = plan.root then ⟨plan.enter plan.births p, plan.table, [], source p, []⟩
    else ⟨.unborn, [], [], source p, []⟩
  pipes := fun _ => []
  births := plan.births
  output := []

def Held (s : State n β S) (e : End) : Prop := ∃ p, some e ∈ (s.procs p).table

instance (s : State n β S) (e : End) : Decidable (Held s e) := inferInstanceAs (Decidable (∃ _, _))

def State.set (s : State n β S) (p : Fin n) (proc : Proc β S) : State n β S :=
  { s with procs := Function.update s.procs p proc }

def stepRead (F : Filter β S) (s : State n β S) (p : Fin n) (state : S) (k : ℕ) :
    Option (State n β S) :=
  let proc := s.procs p
  match (s.procs p).table.get 0 with
  | some (.readEnd pipe) =>
    if s.pipes pipe = [] then
      if Held s (.writeEnd pipe) then none
      else some (s.set p { proc with phase := .running (F.read state []), eof := true })
    else if 0 < k ∧ k ≤ (s.pipes pipe).length then
      let bytes := (s.pipes pipe).take k
      some ({ s with pipes := Function.update s.pipes pipe ((s.pipes pipe).drop k) }.set p
        { proc with phase := .running (F.read state bytes), consumed := proc.consumed ++ bytes })
    else none
  | _ => none

def stepWrite (cap : ℕ) (F : Filter β S) (s : State n β S) (p : Fin n) (state : S) (bytes : List β)
    (k : ℕ) : Option (State n β S) :=
  let proc := s.procs p
  let done : Proc β S :=
    { proc with phase := .running (F.written state k), emitted := proc.emitted ++ bytes.take k }
  match (s.procs p).table.get 1 with
  | some (.writeEnd pipe) =>
    -- `SIGPIPE`
    if ¬ Held s (.readEnd pipe) then some (s.set p { proc with phase := .exited, table := [] })
    else if 0 < k ∧ k ≤ bytes.length ∧ (s.pipes pipe).length + k ≤ cap then
      some ({ s with
        pipes := Function.update s.pipes pipe (s.pipes pipe ++ bytes.take k) }.set p done)
    else none
  | some .terminal =>
    if 0 < k ∧ k ≤ bytes.length then
      some ({ s with output := s.output ++ bytes.take k }.set p done)
    else none
  | _ => none

structure Action (n : ℕ) where
  proc : Fin n
  -- how many bytes a read or a write moves
  bytes : ℕ

def step (cap : ℕ) (F : ℕ → Filter β S) (plan : Plan n) (s : State n β S)
    (a : Action n) : Option (State n β S) :=
  let p := a.proc
  let proc := s.procs p
  match proc.phase with
  | .unborn | .exited => none
  | .forking =>
    match s.births with
    | [] => none
    | child :: births =>
      some (({ s with births }.set p { proc with phase := .setup (plan.script p) }).set child
        ⟨plan.enter births child, proc.table, [], source child, []⟩)
  | .setup (call :: calls) =>
    some (s.set p { proc with phase := .setup calls, table := call.apply proc.table })
  | .setup [] => some (s.set p { proc with phase := .running (F p).start })
  | .running state =>
    match (F p).request state with
    | .exit => some (s.set p { proc with phase := .exited, table := [] })
    | .read => stepRead (F p) s p state a.bytes
    | .write bytes => stepWrite cap (F p) s p state bytes a.bytes

def stdin : ℕ → End
  | 0 => .terminal
  | p + 1 => .readEnd p

def stdout (n p : ℕ) : End := if p + 1 = n then .terminal else .writeEnd p

def Wired (n p : ℕ) (t : Table) : Prop :=
  t.take 2 = [some (stdin p), some (stdout n p)] ∧ ∀ e ∈ t.drop 2, e = none ∨ e = some .terminal

instance (n p : ℕ) (t : Table) : Decidable (Wired n p t) := inferInstanceAs (Decidable (_ ∧ _))

def Keeps (n p : ℕ) (t : Table) : Prop :=
  (p + 1 < n → some (.writeEnd p) ∈ t) ∧ (0 < p → some (.readEnd (p - 1)) ∈ t)

instance (n p : ℕ) (t : Table) : Decidable (Keeps n p t) := inferInstanceAs (Decidable (_ ∧ _))

structure Plan.Plumbed (plan : Plan n) : Prop where
  once : (plan.root :: plan.births).Nodup
  all : ∀ p, p ∈ plan.root :: plan.births
  keeps : ∀ p : Fin n, ∀ k ≤ (plan.script p).length,
    Keeps n p (((plan.script p).take k).foldl Call.apply plan.table)
  wired : ∀ p : Fin n, Wired n p ((plan.script p).foldl Call.apply plan.table)

def stream (f : ℕ → List β → List β) : ℕ → List β
  | 0 => f 0 []
  | p + 1 => f (p + 1) (stream f p)

section Moves

variable {cap : ℕ} {F : ℕ → Filter β S} {plan : Plan n} {s t : State n β S}

inductive Move (cap : ℕ) (F : ℕ → Filter β S) (plan : Plan n) (s : State n β S) (p : Fin n) :
    State n β S → Prop
  | fork (child : Fin n) (births : List (Fin n)) (hp : (s.procs p).phase = .forking)
      (hbirths : s.births = child :: births) :
      Move cap F plan s p (({ s with births }.set p
        { s.procs p with phase := .setup (plan.script p) }).set child
          ⟨plan.enter births child, (s.procs p).table, [], source child, []⟩)
  | call (call : Call) (calls : List Call) (hp : (s.procs p).phase = .setup (call :: calls)) :
      Move cap F plan s p (s.set p
        { s.procs p with phase := .setup calls, table := call.apply (s.procs p).table })
  | exec (hp : (s.procs p).phase = .setup []) :
      Move cap F plan s p (s.set p { s.procs p with phase := .running (F p).start })
  | exit (state : S) (hp : (s.procs p).phase = .running state)
      (hrequest : (F p).request state = .exit) :
      Move cap F plan s p (s.set p { s.procs p with phase := .exited, table := [] })
  | eof (state : S) (pipe : ℕ) (hp : (s.procs p).phase = .running state)
      (hrequest : (F p).request state = .read) (hin : (s.procs p).table.get 0 = some (.readEnd pipe))
      (hempty : s.pipes pipe = []) (hclosed : ¬ Held s (.writeEnd pipe)) :
      Move cap F plan s p (s.set p
        { s.procs p with phase := .running ((F p).read state []), eof := true })
  | read (state : S) (pipe k : ℕ) (hp : (s.procs p).phase = .running state)
      (hrequest : (F p).request state = .read) (hin : (s.procs p).table.get 0 = some (.readEnd pipe))
      (hpos : 0 < k) (hk : k ≤ (s.pipes pipe).length) :
      Move cap F plan s p
        ({ s with pipes := Function.update s.pipes pipe ((s.pipes pipe).drop k) }.set p
          { s.procs p with
            phase := .running ((F p).read state ((s.pipes pipe).take k))
            consumed := (s.procs p).consumed ++ (s.pipes pipe).take k })
  | killed (state : S) (bytes : List β) (pipe : ℕ) (hp : (s.procs p).phase = .running state)
      (hrequest : (F p).request state = .write bytes)
      (hout : (s.procs p).table.get 1 = some (.writeEnd pipe)) (hclosed : ¬ Held s (.readEnd pipe)) :
      Move cap F plan s p (s.set p { s.procs p with phase := .exited, table := [] })
  | write (state : S) (bytes : List β) (pipe k : ℕ) (hp : (s.procs p).phase = .running state)
      (hrequest : (F p).request state = .write bytes)
      (hout : (s.procs p).table.get 1 = some (.writeEnd pipe)) (hpos : 0 < k)
      (hk : k ≤ bytes.length) (hroom : (s.pipes pipe).length + k ≤ cap) :
      Move cap F plan s p
        ({ s with pipes := Function.update s.pipes pipe (s.pipes pipe ++ bytes.take k) }.set p
          { s.procs p with
            phase := .running ((F p).written state k)
            emitted := (s.procs p).emitted ++ bytes.take k })
  | print (state : S) (bytes : List β) (k : ℕ) (hp : (s.procs p).phase = .running state)
      (hrequest : (F p).request state = .write bytes)
      (hout : (s.procs p).table.get 1 = some .terminal) (hpos : 0 < k) (hk : k ≤ bytes.length) :
      Move cap F plan s p ({ s with output := s.output ++ bytes.take k }.set p
        { s.procs p with
          phase := .running ((F p).written state k)
          emitted := (s.procs p).emitted ++ bytes.take k })

theorem move_of_stepRead {p : Fin n} {state : S} {k : ℕ} (hp : (s.procs p).phase = .running state)
    (hrequest : (F p).request state = .read) (h : stepRead (F p) s p state k = some t) :
    Move cap F plan s p t := by
  unfold stepRead at h
  split at h
  case h_1 pipe hin =>
    split at h
    case isTrue hempty =>
      split at h <;> cases h
      exact .eof state pipe hp hrequest hin hempty ‹_›
    case isFalse =>
      split at h <;> cases h
      case isTrue hk => exact .read state pipe k hp hrequest hin hk.1 hk.2
  case h_2 => cases h

theorem move_of_stepWrite {p : Fin n} {state : S} {bytes : List β} {k : ℕ}
    (hp : (s.procs p).phase = .running state) (hrequest : (F p).request state = .write bytes)
    (h : stepWrite cap (F p) s p state bytes k = some t) : Move cap F plan s p t := by
  unfold stepWrite at h
  split at h
  case h_1 pipe hout =>
    split at h
    case isTrue hclosed =>
      cases h
      exact .killed state bytes pipe hp hrequest hout hclosed
    case isFalse =>
      split at h <;> cases h
      case isTrue hk => exact .write state bytes pipe k hp hrequest hout hk.1 hk.2.1 hk.2.2
  case h_2 hout =>
    split at h <;> cases h
    case isTrue hk => exact .print state bytes k hp hrequest hout hk.1 hk.2
  case h_3 => cases h

theorem step_move {a : Action n} (h : step cap F plan s a = some t) :
    Move cap F plan s a.proc t := by
  cases hp : (s.procs a.proc).phase <;> simp only [step, hp] at h
  case forking =>
    cases hbirths : s.births with
    | nil => simp [hbirths] at h
    | cons child births =>
      simp only [hbirths] at h
      cases h
      exact .fork child births hp hbirths
  case setup calls =>
    cases calls with
    | nil =>
      cases h
      exact .exec hp
    | cons call calls =>
      cases h
      exact .call call calls hp
  case running state =>
    cases hrequest : (F a.proc).request state <;> simp only [hrequest] at h
    case exit =>
      cases h
      exact .exit state hp hrequest
    case read => exact move_of_stepRead hp hrequest h
    case write bytes => exact move_of_stepWrite hp hrequest h
  all_goals cases h

end Moves

end PsOs.Pipelines
