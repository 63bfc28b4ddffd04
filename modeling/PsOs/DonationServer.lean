import Mathlib.Tactic.Positivity
import PsOs.Lines
import PsOs.StrtodGrammar
import PsOs.TransitionSystems

/-!
`exercise08/task2/server.c`. `round` is what a variable keeps of an exact result: `toDouble`, or
`id` for a server with exact numbers.
-/

namespace PsOs.DonationServer

open CStrings Decimals FloatingPoint Lines Strtod TransitionSystems
open Amount (toDouble)

def MAX_BUFFER : ℕ := 1024

def shutdownCommand : List UInt8 := text "/shutdown"

inductive Reply where
  | notANumber (msg : List UInt8)
  | donations (sum : Amount)
  deriving DecidableEq

def Reply.bytes (format : Amount → List UInt8) : Reply → List UInt8
  | .notANumber msg => msg ++ text " is not a number!\n"
  -- `%.2lf`
  | .donations sum => text "Donations: " ++ format sum ++ text "\n"

inductive Place where
  | accept
  | read
  | returned (success : Bool)
  deriving DecidableEq

structure Server where
  running : Bool
  pc : Place
  donations : Amount
  replies : List Reply
  deriving DecidableEq

def init : Server := ⟨true, .accept, 0, []⟩

def Server.goto (s : Server) (pc : Place) : Server := { s with pc }

def Server.answer (s : Server) (donations : Amount) (reply : Reply) : Server :=
  { s with donations, replies := s.replies ++ [reply] }

def buffer (received beyond : List UInt8) : List UInt8 :=
  received ++ (List.replicate (MAX_BUFFER - received.length) 0 ++ beyond)

def Server.handle (round : Amount → Amount) (s : Server) (received beyond : List UInt8) : Server :=
  let msg := buffer received beyond
  if strncmpEq 9 msg (shutdownCommand ++ [0]) then s.goto (.returned true)
  else
    let msg := (CString.read (msg.set (strcspn msg newline) 0)).bytes
    let number := strtod msg
    let tmp := round number.1
    if number.2 ≠ [] then s.answer s.donations (.notANumber msg)
    else
      let donations := round (s.donations + tmp)
      s.answer donations (.donations donations)

inductive Action where
  | accept
  | acceptFails
  | read (received beyond : List UInt8)
  | readFails
  | sigint

def step (round : Amount → Amount) (s : Server) : Action → Option Server
  | .sigint => some { s with running := false }
  | .accept => if s.pc = .accept then some (s.goto .read) else none
  | .acceptFails => if s.pc = .accept then some (s.goto (.returned false)) else none
  | .readFails => if s.pc = .read then some (s.goto (.returned false)) else none
  | .read received beyond =>
    if s.pc = .read ∧ received.length ≤ MAX_BUFFER then
      if received = [] then some (s.goto (if s.running then .accept else .returned true))
      else some (s.handle round received beyond)
    else none

def message (received : List UInt8) : List UInt8 := received.takeWhile (· ≠ newline)

def visible (received : List UInt8) : List UInt8 := (message received).takeWhile (· ≠ 0)

inductive Donation : List UInt8 → ℚ → Prop
  | whole {digits : List UInt8} (hne : digits ≠ []) (hdigits : ∀ d ∈ digits, isDigit d = true) :
      Donation digits (digitsValue digits)
  | cents {whole cents : List UInt8} (hne : whole ≠ []) (hwhole : ∀ d ∈ whole, isDigit d = true)
      (hlen : cents.length = 1 ∨ cents.length = 2) (hcents : ∀ d ∈ cents, isDigit d = true) :
      Donation (whole ++ point :: cents)
        (digitsValue whole + digitsValue cents / 10 ^ cents.length)

/-- The sum with `v` is a double, and so is `v`, or its rounding does not show in the sum. -/
def Adds (donations : Amount) (v : ℚ) : Prop :=
  (donations + .finite v).IsDouble ∧ (binary64.Representable v ∨
    (donations + (Amount.finite v).toDouble).toDouble = donations + .finite v)

def Sound (s : Server) (received : List UInt8) : Prop :=
  (∃ v, Donation (message received) v ∧ Adds s.donations v) ∨ ¬ Accepted (visible received)

section Read

variable {round : Amount → Amount} {s : Server} {received beyond : List UInt8}

theorem buffer_eq (h : received.length < MAX_BUFFER ∨ newline ∈ received) (beyond : List UInt8) :
    ∃ front b rest, (b = 0 ∨ b = newline) ∧
      buffer received beyond = front ++ b :: rest ∧
      (received = front ∨ ∃ behind, received = front ++ b :: behind) := by
  rcases h with h | h
  · obtain ⟨k, hk⟩ := Nat.exists_eq_succ_of_ne_zero (Nat.sub_ne_zero_of_lt h)
    exact ⟨received, 0, List.replicate k 0 ++ beyond, .inl rfl, by rw [buffer, hk]; rfl, .inl rfl⟩
  · obtain ⟨front, behind, rfl⟩ := List.append_of_mem h
    have hbuffer : ∃ rest, buffer (front ++ newline :: behind) beyond = front ++ newline :: rest := by
      rw [buffer, List.append_assoc]
      exact ⟨_, rfl⟩
    obtain ⟨rest, hbuffer⟩ := hbuffer
    exact ⟨front, newline, rest, .inr rfl, hbuffer, .inr ⟨behind, rfl⟩⟩

theorem visible_eq (received : List UInt8) :
    visible received = received.takeWhile fun b => b ≠ 0 ∧ b ≠ newline := by
  simp [visible, message, List.takeWhile_takeWhile]

theorem not_shutdown (hlen : received.length < MAX_BUFFER ∨ newline ∈ received)
    (hcommand : ¬ shutdownCommand <+: message received) (beyond : List UInt8) :
    strncmpEq 9 (buffer received beyond) (shutdownCommand ++ [0]) = false := by
  rw [show 9 = shutdownCommand.length from rfl, Bool.eq_false_iff, ne_eq,
    strncmpEq_literal (by decide)]
  obtain ⟨front, b, rest, hb, hbuffer, hreceived⟩ := buffer_eq hlen beyond
  have hstop : b ∉ shutdownCommand := by
    rcases hb with rfl | rfl <;> decide
  rw [hbuffer, prefix_stop hstop]
  intro hprefix
  have hfront : shutdownCommand <+: received := by
    rcases hreceived with rfl | ⟨behind, rfl⟩
    · exact hprefix
    · exact hprefix.trans (List.prefix_append _ _)
  apply hcommand
  obtain ⟨tail, rfl⟩ := hfront
  rw [message, List.takeWhile_append_of_pos (by decide +kernel)]
  exact List.prefix_append _ _

theorem handle_eq (s : Server) (hlen : received.length < MAX_BUFFER ∨ newline ∈ received)
    (hgoes : strncmpEq 9 (buffer received beyond) (shutdownCommand ++ [0]) = false) :
    s.handle round received beyond =
      if (strtod (visible received)).2 ≠ [] then
        s.answer s.donations (.notANumber (visible received))
      else s.answer (round (s.donations + round (strtod (visible received)).1))
        (.donations (round (s.donations + round (strtod (visible received)).1))) := by
  have hvisible : ((buffer received beyond).takeWhile fun b => b ≠ 0 ∧ b ≠ newline) =
      visible received := by
    obtain ⟨front, b, rest, hb, hbuffer, hreceived⟩ := buffer_eq hlen beyond
    have hstop : decide (b ≠ 0 ∧ b ≠ newline) = false := by
      rcases hb with rfl | rfl <;> decide
    rw [visible_eq, hbuffer, takeWhile_stop hstop]
    rcases hreceived with rfl | ⟨behind, rfl⟩
    · rfl
    · rw [takeWhile_stop hstop]
  simp only [Server.handle, hgoes, Bool.false_eq_true, if_false, read_set_strcspn, hvisible]

end Read

section Donations

variable {s : Server} {received beyond msg : List UInt8} {v : ℚ}

theorem Donation.nonneg (h : Donation msg v) : 0 ≤ v := by
  cases h with
  | whole hne hdigits => exact Nat.cast_nonneg _
  | cents hne hwhole hlen hcents => positivity

theorem Donation.noNul (h : Donation msg v) : ∀ b ∈ msg, b ≠ 0 := by
  have hdigit : ∀ b, isDigit b = true → b ≠ 0 := by
    rintro b hb rfl
    cases hb
  cases h with
  | whole hne hdigits => exact fun b hb => hdigit b (hdigits b hb)
  | cents hne hwhole hlen hcents =>
    intro b hb
    rcases List.mem_append.mp hb with hb | hb
    · exact hdigit b (hwhole b hb)
    · rcases List.mem_cons.mp hb with rfl | hb
      · decide
      · exact hdigit b (hcents b hb)

theorem Donation.visible_eq (h : Donation (message received) v) :
    visible received = message received := by
  apply List.takeWhile_eq_self_iff.mpr
  simpa using h.noNul

theorem Donation.strtod (h : Donation msg v) : strtod msg = (.finite v, []) := by
  cases h with
  | whole hne hdigits =>
    have hvalue := strtod_decimal hdigits hne .absent
    simpa using hvalue
  | @cents whole cents hne hwhole hlen hcents =>
    rw [strtod_decimal hwhole hne (.present hcents), digitsValue_append]
    congr 2
    push_cast
    field_simp

end Donations

def asked (donations : ℚ) : Server := ⟨true, .read, .finite donations, []⟩

end PsOs.DonationServer
