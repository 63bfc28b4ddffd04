import PsOs.ChatSession
import PsOs.InputLoops

/-!
The input loops of `exercise04/task3/client.c`, `exercise08/task2/client.c` and
`exercise09/task1/client.c`. The server answers each message.
-/

namespace PsOs.ClientInput

open CStrings Lines InputLoops
open ChatServer (replaceNewlineWithNull shutdownCommand stops_iff)

inductive Client where
  | exercise04
  | exercise08
  | exercise09
  deriving DecidableEq

def Client.size : Client → ℕ
  | .exercise04 => 80
  | .exercise08 => 1024
  | .exercise09 => 128

def quitLine : Line := ⟨text "/quit", by decide⟩

theorem newline_not_mem_shutdownCommand : newline ∉ shutdownCommand := by decide

def shutdownLine : Line := ⟨shutdownCommand, newline_not_mem_shutdownCommand⟩

def round04 (msg : List UInt8) : List (List UInt8) × Option (List UInt8) :=
  let sent := (CString.read msg).bytes
  ([sent], if sent = text "\n" then none else some msg)

def round08 (msg : List UInt8) : List (List UInt8) × Option (List UInt8) :=
  let msg := msg.set (Client.exercise08.size - 1) 0
  if strncmpEq 6 msg (text "/quit\n" ++ [0]) then ([], none)
  else if strncmpEq 11 msg (text "/shutdown\n" ++ [0]) then ([text "/shutdown" ++ [0]], none)
  else ([(CString.read msg).bytes], some msg)

def round09 (msg : List UInt8) : List (List UInt8) × Option (List UInt8) :=
  let sent := (CString.read msg).bytes
  if strncmpEq 9 (replaceNewlineWithNull msg) (shutdownCommand ++ [0]) then ([sent], none)
  else ([sent], some (List.replicate Client.exercise09.size 0))

def Client.loop : Client → Loop
  | .exercise04 => ⟨Client.exercise04.size, round04⟩
  | .exercise08 => ⟨Client.exercise08.size, round08⟩
  | .exercise09 => ⟨Client.exercise09.size, round09⟩

def Client.Initial (client : Client) (msg : List UInt8) : Prop :=
  msg.length = client.size ∧ (client = .exercise08 → msg = text "0" ++ List.replicate 1023 0)

/-- The commands that end the loop by the words of the exercises. -/
def Client.command : Client → Line → Bool
  | .exercise04, line => line.body = []
  | .exercise08, line => line = quitLine || line = shutdownLine
  | .exercise09, line => line = shutdownLine

def Client.reply : Client → Line → List (List UInt8)
  | .exercise08, line => if line = quitLine then [] else [text "/shutdown" ++ [0]]
  | _, line => [line.bytes]

def Client.stops : Client → Line → Bool
  | .exercise09, line => shutdownCommand <+: line.body
  | client, line => client.command line

def Client.sends (client : Client) (line : Line) : List (List UInt8) :=
  if client = .exercise08 ∧ client.command line then client.reply line else [upToNul line]

section Rounds

variable {line : Line}

theorem reads04 : Client.exercise04.loop.Reads Client.exercise04.stops Client.exercise04.sends := by
  constructor
  · intro line rest _ hstops
    have hbody : line.body = [] := of_decide_eq_true hstops
    have hsent : upToNul line = text "\n" := by
      rw [upToNul_eq_iff.mpr (by simp [hbody]), Line.bytes, hbody]
      rfl
    simp [Client.loop, round04, read_line, Client.sends, hsent]
  · intro line rest _ hstops
    have hbody : line.body ≠ [] := of_decide_eq_false hstops
    have hsent : upToNul line ≠ text "\n" := by
      intro hupto
      obtain ⟨b, body, hb⟩ := List.exists_cons_of_ne_nil hbody
      have hprefix : upToNul line <+: line.bytes := List.takeWhile_prefix _
      rw [hupto, Line.bytes, hb] at hprefix
      have hnewline := (List.cons_prefix_cons.mp hprefix).1
      apply line.noNewline
      rw [hb]
      exact List.mem_cons.mpr (.inl hnewline)
    have hround : round04 (line.bytes ++ 0 :: rest) =
        ([upToNul line], some (line.bytes ++ 0 :: rest)) := by
      simp [round04, read_line, hsent]
    exact ⟨_, hround, Loop.idle_of_round hround⟩

theorem set_line (hsize : line.bytes.length < 1024) (rest : List UInt8) :
    ∃ rest', (line.bytes ++ 0 :: rest).set (Client.exercise08.size - 1) 0 = line.bytes ++ 0 :: rest' := by
  change ∃ rest', (line.bytes ++ 0 :: rest).set 1023 0 = _
  rw [List.set_append_right _ _ (Nat.le_of_lt_succ hsize)]
  cases 1023 - line.bytes.length with
  | zero => exact ⟨rest, rfl⟩
  | succ k => exact ⟨rest.set k 0, rfl⟩

theorem quits_iff (rest : List UInt8) :
    strncmpEq 6 (line.bytes ++ 0 :: rest) (text "/quit\n" ++ [0]) = true ↔ line = quitLine := by
  have hliteral : text "/quit\n" = quitLine.bytes := rfl
  rw [show 6 = quitLine.bytes.length from rfl, hliteral, strncmpEq_literal (by decide), bytes_prefix]

theorem shuts_iff (rest : List UInt8) :
    strncmpEq 11 (line.bytes ++ 0 :: rest) (text "/shutdown\n" ++ [0]) = true ↔
      line = shutdownLine := by
  have hliteral : text "/shutdown\n" = shutdownLine.bytes := rfl
  rw [show 11 = shutdownLine.bytes.length + 1 from rfl, hliteral, strncmpEq_terminated (by decide)]
  constructor
  · intro hprefix
    exact bytes_prefix.mp ((List.prefix_append _ _).trans hprefix)
  · rintro rfl
    exact (List.prefix_append_right_inj _).mpr (List.cons_prefix_cons.mpr ⟨rfl, List.nil_prefix⟩)

theorem round08_line (hsize : line.bytes.length < 1024) (rest : List UInt8) :
    ∃ msg, round08 (line.bytes ++ 0 :: rest) =
        (if line = quitLine then ([], none)
        else if line = shutdownLine then ([text "/shutdown" ++ [0]], none)
        else ([upToNul line], some msg)) ∧
      round08 msg = round08 (line.bytes ++ 0 :: rest) := by
  obtain ⟨rest', hset⟩ := set_line hsize rest
  refine ⟨line.bytes ++ 0 :: rest', ?_, ?_⟩
  · simp only [round08, hset, quits_iff, shuts_iff, read_line]
  · rw [← hset]
    simp only [round08, List.set_set]

theorem reads08 : Client.exercise08.loop.Reads Client.exercise08.stops Client.exercise08.sends := by
  constructor
  · intro line rest hsize hstops
    obtain ⟨msg, hround, -⟩ := round08_line hsize rest
    refine hround.trans ?_
    have hcommand : line = quitLine ∨ line = shutdownLine := by
      simpa [Client.stops, Client.command] using hstops
    by_cases hquit : line = quitLine
    · simp [hquit, Client.sends, Client.command, Client.reply]
    · have hshut := hcommand.resolve_left hquit
      have hne : shutdownLine ≠ quitLine := by decide
      simp [hshut, hne, Client.sends, Client.command, Client.reply]
  · intro line rest hsize hstops
    obtain ⟨msg, hround, hagain⟩ := round08_line hsize rest
    have hcommand : line ≠ quitLine ∧ line ≠ shutdownLine := by
      simpa [Client.stops, Client.command] using hstops
    rw [if_neg hcommand.1, if_neg hcommand.2] at hround
    refine ⟨msg, hround.trans ?_, Loop.idle_of_round (hagain.trans hround)⟩
    simp [Client.sends, Client.command, hcommand.1, hcommand.2]

theorem reads09 : Client.exercise09.loop.Reads Client.exercise09.stops Client.exercise09.sends := by
  constructor
  · intro line rest _ hstops
    have hends := (stops_iff line rest).mpr (of_decide_eq_true hstops)
    simp [Client.loop, round09, hends, read_line, Client.sends]
  · intro line rest _ hstops
    have hends : strncmpEq 9 (replaceNewlineWithNull (line.bytes ++ 0 :: rest))
        (shutdownCommand ++ [0]) = false :=
      Bool.eq_false_iff.mpr fun h => of_decide_eq_false hstops ((stops_iff line rest).mp h)
    refine ⟨List.replicate Client.exercise09.size 0, ?_, ?_⟩
    · simp [Client.loop, round09, hends, read_line, Client.sends]
    · have hround : round09 (List.replicate 128 0) = ([[]], some (List.replicate 128 0)) := rfl
      exact Loop.idle_of_round hround

theorem Client.reads (client : Client) : client.loop.Reads client.stops client.sends := by
  cases client with
  | exercise04 => exact reads04
  | exercise08 => exact reads08
  | exercise09 => exact reads09

theorem Client.obeys (client : Client) :
    Obeys client.stops client.command client.sends client.reply := by
  constructor
  · intro line hcommand
    cases client with
    | exercise09 =>
      have hline : line = shutdownLine := of_decide_eq_true hcommand
      simp [Client.stops, hline, shutdownLine]
    | _ => exact hcommand
  · intro line hcommand
    cases client with
    | exercise04 =>
      have hbody : line.body = [] := of_decide_eq_true hcommand
      simp [Client.sends, Client.reply, upToNul_eq_iff.mpr, hbody]
    | exercise08 => simp [Client.sends, hcommand]
    | exercise09 =>
      have hline : line = shutdownLine := of_decide_eq_true hcommand
      have hnul : 0 ∉ line.body := by
        rw [hline]
        decide
      simp [Client.sends, Client.reply, upToNul_eq_iff.mpr hnul]
  · intro line hcommand
    simp [Client.sends, hcommand]
  · intro line hstops hcommand l hl
    cases client with
    | exercise09 => simp [Client.reply]
    | exercise04 | exercise08 => cases hstops.symm.trans hcommand

end Rounds

theorem run_initial {client : Client} {msg : List UInt8} (h : client.Initial msg) (fuel : ℕ) :
    client.loop.run fuel [] msg ≠ some [] := by
  cases client with
  | exercise04 =>
    apply Loop.run_ne_nil
    intro msg
    exact List.cons_ne_nil _ _
  | exercise08 =>
    have hmsg := h.2 rfl
    have hset : msg.set (Client.exercise08.size - 1) 0 = msg := by
      rw [hmsg]
      change 48 :: (List.replicate 1023 (0 : UInt8)).set 1022 0 = 48 :: List.replicate 1023 0
      rw [List.set_replicate_self]
    have hround : round08 msg = ([text "0"], some msg) := by
      simp only [round08, hset]
      rw [hmsg]
      rfl
    have hidle : Client.exercise08.loop.Idle msg := Loop.idle_of_round hround
    rw [hidle fuel]
    exact Option.some_ne_none _ |>.symm
  | exercise09 =>
    apply Loop.run_ne_nil
    intro msg
    change (round09 msg).1 ≠ []
    unfold round09
    split <;> exact List.cons_ne_nil _ _

theorem sendsOnce_iff_stops (client : Client) {msg : List UInt8} {lines : List Line}
    (hmsg : client.Initial msg) (hfits : ∀ line ∈ lines, line.bytes.length < client.size) :
    SendsOnce client.loop client.command client.reply msg lines ↔
      ∃ front line back, lines = front ++ line :: back ∧
        (∀ l ∈ front, client.stops l = false ∧ 0 ∉ l.body) ∧ client.stops line = true ∧
          (client.command line = true ∨ 0 ∉ line.body ∧ back = []) := by
  apply sendsOnce_iff client.reads client.obeys
  · intro line hline
    cases client <;> exact hfits line hline
  · exact run_initial hmsg

def tenLine : Line := ⟨text "10", by decide⟩

def emptyLine : Line := ⟨[], List.not_mem_nil⟩

theorem sendsOnce_iff_stops_ten :
    SendsOnce Client.exercise04.loop Client.exercise04.command Client.exercise04.reply
        (List.replicate 80 0) [tenLine, emptyLine] ↔
      ∃ front line back, [tenLine, emptyLine] = front ++ line :: back ∧
        (∀ l ∈ front, Client.exercise04.stops l = false ∧ 0 ∉ l.body) ∧
          Client.exercise04.stops line = true ∧
            (Client.exercise04.command line = true ∨ 0 ∉ line.body ∧ back = []) :=
  sendsOnce_iff_stops .exercise04 ⟨by decide, nofun⟩ (by decide)

theorem ten_never_ends (client : Client) (msg : List UInt8) (fuel : ℕ) :
    client.loop.run fuel (content [tenLine]) msg = none := by
  apply client.reads.run_none
  · cases client <;> decide
  · exact fun hnil => absurd hnil (List.cons_ne_nil _ _)
  · cases client <;> decide

theorem not_sendsOnce_ten (client : Client) (msg : List UInt8) :
    ¬ SendsOnce client.loop client.command client.reply msg [tenLine] := by
  rintro ⟨fuel, hrun⟩
  rw [ten_never_ends] at hrun
  cases hrun

theorem ten_not_sent_once :
    ¬ SendsOnce Client.exercise04.loop Client.exercise04.command Client.exercise04.reply
        (List.replicate 80 0) [tenLine] ∧
      ¬ SendsOnce Client.exercise08.loop Client.exercise08.command Client.exercise08.reply
        (text "0" ++ List.replicate 1023 0) [tenLine] ∧
      ¬ SendsOnce Client.exercise09.loop Client.exercise09.command Client.exercise09.reply
        (List.replicate 128 0) [tenLine] :=
  ⟨not_sendsOnce_ten _ _, not_sendsOnce_ten _ _, not_sendsOnce_ten _ _⟩

end PsOs.ClientInput
