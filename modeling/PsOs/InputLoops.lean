import PsOs.CStrings
import PsOs.Lines

/-! Loops that get a line into the same buffer in every round and send what is in it. -/

namespace PsOs.InputLoops

open CStrings Lines

def firstLine : List UInt8 → List UInt8
  | [] => []
  | b :: bytes => if b = newline then [b] else b :: firstLine bytes

def fgets (size : ℕ) (stream buffer : List UInt8) : List UInt8 × List UInt8 :=
  let got := firstLine (stream.take (size - 1))
  if got = [] then (stream, buffer)
  else (stream.drop got.length, got ++ 0 :: buffer.drop (got.length + 1))

/-- `round` gives what a round sends of the buffer, and the buffer for the next round if the loop
goes on. -/
structure Loop where
  size : ℕ
  round : List UInt8 → List (List UInt8) × Option (List UInt8)

def Loop.run (loop : Loop) : ℕ → List UInt8 → List UInt8 → Option (List (List UInt8))
  | 0, _, _ => none
  | fuel + 1, stream, msg =>
    let got := fgets loop.size stream msg
    match loop.round got.2 with
    | (sent, none) => some sent
    | (sent, some msg) => (loop.run fuel got.1 msg).map (sent ++ ·)

section Gets

variable {size : ℕ} {line : Line}

theorem firstLine_bytes (line : Line) (rest : List UInt8) :
    firstLine (line.bytes ++ rest) = line.bytes := by
  obtain ⟨body, hbody⟩ := line
  simp only [Line.bytes, List.append_assoc]
  induction body with
  | nil => simp [firstLine]
  | cons b body ih =>
    obtain ⟨hb, hrest⟩ := not_or.mp (mt List.mem_cons.mpr hbody)
    rw [List.cons_append, firstLine, if_neg (Ne.symm hb), ih hrest, List.cons_append]

theorem fgets_line (h : line.bytes.length < size) (rest buffer : List UInt8) :
    fgets size (line.bytes ++ rest) buffer =
      (rest, line.bytes ++ 0 :: buffer.drop (line.bytes.length + 1)) := by
  have htake : (line.bytes ++ rest).take (size - 1) =
      line.bytes ++ rest.take (size - 1 - line.bytes.length) := by
    rw [List.take_append, List.take_of_length_le (Nat.le_sub_one_of_lt h)]
  have hne : line.bytes ≠ [] := by simp [Line.bytes]
  simp [fgets, htake, firstLine_bytes, hne]

theorem fgets_eof (size : ℕ) (buffer : List UInt8) : fgets size [] buffer = ([], buffer) := by
  simp [fgets, firstLine]

end Gets

namespace Loop

variable {loop : Loop} {fuel : ℕ} {msg : List UInt8} {lines : List Line}

def Idle (loop : Loop) (msg : List UInt8) : Prop := ∀ fuel, loop.run fuel [] msg = none

theorem idle_of_round {sent : List (List UInt8)} (h : loop.round msg = (sent, some msg)) :
    loop.Idle msg := by
  intro fuel
  induction fuel with
  | zero => rfl
  | succ fuel ih => simp [run, fgets_eof, h, ih]

theorem run_ne_nil (h : ∀ msg, (loop.round msg).1 ≠ []) (fuel : ℕ) (stream msg : List UInt8) :
    loop.run fuel stream msg ≠ some [] := by
  intro hrun
  cases fuel with
  | zero => cases hrun
  | succ fuel =>
    have hsent := h (fgets loop.size stream msg).2
    rw [run] at hrun
    rcases hround : loop.round (fgets loop.size stream msg).2 with ⟨sent, _ | msg'⟩
    · rw [hround] at hrun hsent
      exact hsent (Option.some.inj hrun)
    · rw [hround] at hrun hsent
      obtain ⟨rest, -, hnil⟩ := Option.map_eq_some_iff.mp hrun
      exact hsent (List.append_eq_nil_iff.mp hnil).1

structure Reads (loop : Loop) (stops : Line → Bool) (sends : Line → List (List UInt8)) : Prop where
  stop : ∀ line rest, line.bytes.length < loop.size → stops line = true →
    loop.round (line.bytes ++ 0 :: rest) = (sends line, none)
  next : ∀ line rest, line.bytes.length < loop.size → stops line = false →
    ∃ msg, loop.round (line.bytes ++ 0 :: rest) = (sends line, some msg) ∧ loop.Idle msg

variable {stops : Line → Bool} {sends : Line → List (List UInt8)}

theorem Reads.run_content (h : loop.Reads stops sends) (hfits : ∀ line ∈ lines, line.bytes.length < loop.size)
    (hidle : lines = [] → loop.Idle msg) {sent : List (List UInt8)} :
    loop.run fuel (content lines) msg = some sent ↔
      ∃ front line back, lines = front ++ line :: back ∧ front.length < fuel ∧
        (∀ l ∈ front, stops l = false) ∧ stops line = true ∧
          sent = front.flatMap sends ++ sends line := by
  induction fuel generalizing lines msg sent with
  | zero => simp [run]
  | succ fuel ih =>
    cases lines with
    | nil =>
      have hnone := hidle rfl (fuel + 1)
      simp [content, hnone]
    | cons first lines =>
      have hsize := hfits first List.mem_cons_self
      have hrest : ∀ line ∈ lines, line.bytes.length < loop.size :=
        fun line hline => hfits line (List.mem_cons_of_mem _ hline)
      have hcontent : content (first :: lines) = first.bytes ++ content lines := rfl
      simp only [run, hcontent, fgets_line hsize]
      cases hstops : stops first with
      | true =>
        rw [h.stop first _ hsize hstops]
        constructor
        · rintro hsent
          exact ⟨[], first, lines, rfl, Nat.succ_pos _, by simp, hstops, (Option.some.inj hsent).symm⟩
        · rintro ⟨front, line, back, hlines, -, hfront, hline, rfl⟩
          cases front with
          | nil =>
            cases hlines
            rfl
          | cons l front =>
            cases hlines
            rw [hfront first List.mem_cons_self] at hstops
            cases hstops
      | false =>
        obtain ⟨msg', hround, hidle'⟩ := h.next first _ hsize hstops
        rw [hround]
        simp only [Option.map_eq_some_iff, ih hrest fun _ => hidle']
        constructor
        · rintro ⟨_, ⟨front, line, back, rfl, hfuel, hfront, hline, rfl⟩, rfl⟩
          refine ⟨first :: front, line, back, rfl, Nat.succ_lt_succ hfuel, ?_, hline, ?_⟩
          · exact List.forall_mem_cons.mpr ⟨hstops, hfront⟩
          · rw [List.flatMap_cons, List.append_assoc]
        · rintro ⟨front, line, back, hlines, hfuel, hfront, hline, rfl⟩
          cases front with
          | nil =>
            cases hlines
            rw [hstops] at hline
            cases hline
          | cons l front =>
            cases hlines
            refine ⟨_, ⟨front, line, back, rfl, Nat.lt_of_succ_lt_succ hfuel, ?_, hline, rfl⟩, ?_⟩
            · exact fun l hl => hfront l (List.mem_cons_of_mem _ hl)
            · rw [List.flatMap_cons, List.append_assoc]

theorem Reads.run_none (h : loop.Reads stops sends) (hfits : ∀ line ∈ lines, line.bytes.length < loop.size)
    (hidle : lines = [] → loop.Idle msg) (hnone : ∀ line ∈ lines, stops line = false) (fuel : ℕ) :
    loop.run fuel (content lines) msg = none := by
  apply Option.eq_none_iff_forall_ne_some.mpr
  intro sent hrun
  obtain ⟨front, line, back, rfl, -, -, hstops, -⟩ := (h.run_content hfits hidle).mp hrun
  rw [hnone line (by simp)] at hstops
  cases hstops

end Loop

def upToNul (line : Line) : List UInt8 := (CString.read line.bytes).bytes

theorem read_line (line : Line) (rest : List UInt8) :
    (CString.read (line.bytes ++ 0 :: rest)).bytes = upToNul line := by
  change (line.bytes ++ 0 :: rest).takeWhile (fun b => decide (b ≠ 0)) =
    line.bytes.takeWhile fun b => decide (b ≠ 0)
  induction line.bytes with
  | nil => rfl
  | cons b bytes ih => rw [List.cons_append, List.takeWhile_cons, List.takeWhile_cons, ih]

theorem upToNul_eq_iff {line : Line} : upToNul line = line.bytes ↔ 0 ∉ line.body := by
  rw [upToNul, CString.read, List.takeWhile_eq_self_iff]
  constructor
  · rintro h hmem
    simpa using h 0 (List.mem_append_left _ hmem)
  · intro h b hb
    rcases List.mem_append.mp hb with hb | hb
    · exact decide_eq_true fun hzero => h (hzero ▸ hb)
    · rw [List.mem_singleton.mp hb]
      rfl

def expected (command : Line → Bool) (reply : Line → List (List UInt8)) (lines : List Line) :
    List (List UInt8) :=
  (lines.takeWhile fun line => !command line).map Line.bytes ++
    ((lines.find? command).map reply).getD []

/-- The loop ends at every command; of a line that is none it sends the bytes. -/
structure Obeys (stops command : Line → Bool) (sends reply : Line → List (List UInt8)) : Prop where
  ends : ∀ line, command line = true → stops line = true
  answers : ∀ line, command line = true → sends line = reply line
  others : ∀ line, command line = false → sends line = [upToNul line]
  loud : ∀ line, stops line = true → command line = false → ∀ l, command l = true → reply l ≠ []

section SendsOnce

variable {loop : Loop} {stops command : Line → Bool} {sends reply : Line → List (List UInt8)}
  {msg : List UInt8} {lines front back : List Line} {line : Line}

def SendsOnce (loop : Loop) (command : Line → Bool) (reply : Line → List (List UInt8))
    (msg : List UInt8) (lines : List Line) : Prop :=
  ∃ fuel, loop.run fuel (content lines) msg = some (expected command reply lines)

theorem expected_append (h : ∀ l ∈ front, command l = false) (rest : List Line) :
    expected command reply (front ++ rest) = front.map Line.bytes ++ expected command reply rest := by
  induction front with
  | nil => rfl
  | cons l front ih =>
    have hl := h l List.mem_cons_self
    have hfront := ih fun x hx => h x (List.mem_cons_of_mem _ hx)
    simp only [expected, List.cons_append, List.takeWhile_cons, hl, Bool.not_false, if_true,
      List.map_cons, List.find?_cons] at hfront ⊢
    rw [hfront]

theorem expected_command (h : command line = true) (back : List Line) :
    expected command reply (line :: back) = reply line := by
  simp [expected, h]

theorem Obeys.command_of_not_stops (h : Obeys stops command sends reply)
    (hstops : stops line = false) : command line = false := by
  by_contra hcommand
  have hends := h.ends line (Bool.eq_true_of_not_eq_false hcommand)
  rw [hstops] at hends
  cases hends

theorem Obeys.sends_front (h : Obeys stops command sends reply)
    (hfront : ∀ l ∈ front, stops l = false) : front.flatMap sends = front.map upToNul := by
  induction front with
  | nil => rfl
  | cons l front ih =>
    have hl := h.command_of_not_stops (hfront l List.mem_cons_self)
    rw [List.flatMap_cons, h.others l hl, ih fun x hx => hfront x (List.mem_cons_of_mem _ hx)]
    rfl

theorem map_upToNul_eq_iff : front.map upToNul = front.map Line.bytes ↔ ∀ l ∈ front, 0 ∉ l.body := by
  rw [List.map_inj_left]
  exact forall₂_congr fun l _ => upToNul_eq_iff

theorem Obeys.expected_eq_nil (h : Obeys stops command sends reply) (hstops : stops line = true)
    (hcommand : command line = false) : expected command reply back = [] ↔ back = [] := by
  constructor
  · intro hnil
    cases back with
    | nil => rfl
    | cons l back =>
      cases hl : command l with
      | true =>
        rw [expected_command hl] at hnil
        exact absurd hnil (h.loud line hstops hcommand l hl)
      | false => simp [expected, hl] at hnil
  · rintro rfl
    rfl

theorem Obeys.last_eq_iff (h : Obeys stops command sends reply) (hstops : stops line = true) :
    sends line = expected command reply (line :: back) ↔
      command line = true ∨ 0 ∉ line.body ∧ back = [] := by
  cases hcommand : command line with
  | true =>
    rw [h.answers line hcommand, expected_command hcommand]
    simp
  | false =>
    have hlast : expected command reply ([line] ++ back) = [line].map Line.bytes ++ _ :=
      expected_append (by simpa using hcommand) back
    change _ = expected command reply ([line] ++ back) ↔ _
    rw [hlast, h.others line hcommand, List.map_singleton, List.singleton_append,
      List.cons_eq_cons, upToNul_eq_iff, eq_comm (a := []), h.expected_eq_nil hstops hcommand]
    simp

theorem Obeys.sent_eq_iff (h : Obeys stops command sends reply)
    (hfront : ∀ l ∈ front, stops l = false) (hstops : stops line = true) :
    front.flatMap sends ++ sends line = expected command reply (front ++ line :: back) ↔
      (∀ l ∈ front, 0 ∉ l.body) ∧ (command line = true ∨ 0 ∉ line.body ∧ back = []) := by
  rw [h.sends_front hfront, expected_append fun l hl => h.command_of_not_stops (hfront l hl),
    ← map_upToNul_eq_iff, ← h.last_eq_iff hstops]
  constructor
  · intro heq
    exact List.append_inj heq (by simp)
  · rintro ⟨hmap, hlast⟩
    rw [hmap, hlast]

theorem sendsOnce_iff (hreads : loop.Reads stops sends) (h : Obeys stops command sends reply)
    (hfits : ∀ line ∈ lines, line.bytes.length < loop.size)
    (hempty : ∀ fuel, loop.run fuel [] msg ≠ some []) :
    SendsOnce loop command reply msg lines ↔ ∃ front line back, lines = front ++ line :: back ∧
      (∀ l ∈ front, stops l = false ∧ 0 ∉ l.body) ∧ stops line = true ∧
        (command line = true ∨ 0 ∉ line.body ∧ back = []) := by
  cases lines with
  | nil =>
    have hnever : ¬ SendsOnce loop command reply msg [] := fun ⟨fuel, hrun⟩ => hempty fuel hrun
    simp [hnever]
  | cons first rest =>
    unfold SendsOnce
    simp only [hreads.run_content hfits (fun hnil => absurd hnil (List.cons_ne_nil _ _))]
    constructor
    · rintro ⟨fuel, front, line, back, hlines, -, hfront, hstops, hsent⟩
      rw [hlines, eq_comm, h.sent_eq_iff hfront hstops] at hsent
      exact ⟨front, line, back, hlines, fun l hl => ⟨hfront l hl, hsent.1 l hl⟩, hstops, hsent.2⟩
    · rintro ⟨front, line, back, hlines, hfront, hstops, hlast⟩
      have hstays : ∀ l ∈ front, stops l = false := fun l hl => (hfront l hl).1
      refine ⟨front.length + 1, front, line, back, hlines, Nat.lt_succ_self _, hstays, hstops, ?_⟩
      rw [hlines, eq_comm, h.sent_eq_iff hstays hstops]
      exact ⟨fun l hl => (hfront l hl).2, hlast⟩

end SendsOnce

end PsOs.InputLoops
