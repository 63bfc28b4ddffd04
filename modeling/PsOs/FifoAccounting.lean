import Mathlib.Algebra.BigOperators.Group.Finset.Basic
import PsOs.FifoServer

namespace PsOs.FifoServer

open CStrings Decimals Lines Threads TransitionSystems

variable {n : ℕ} {s t : State n} {line : Line} {client : Client}

theorem toDouble_eq {x : ℕ} (h : x ≤ 2 ^ 53) : toDouble x = x := by
  rcases Nat.lt_or_eq_of_le h with h | rfl
  · have hlog : Nat.log2 x - 52 = 0 := by
      by_cases hx : x = 0
      · subst hx
        rfl
      · have := (Nat.log2_lt hx).mpr h
        omega
    simp [toDouble, hlog, Nat.mod_one]
  · rfl

def unsigned : List UInt8 → List UInt8
  | [] => []
  | b :: s => if b = 45 ∨ b = 43 then s else b :: s

def isNumber (s : List UInt8) : Bool :=
  let digits := unsigned (s.dropWhile isSpace)
  digits.takeWhile isDigit ≠ [] && (digits.dropWhile isDigit).all isSpace

def leading (line : Line) : ℤ := signedValue (line.body.dropWhile isSpace)

def expression (line : Line) : ℕ := if isNumber line.body then (leading line).toNat else 0

def Legible (line : Line) : Prop :=
  -2 ^ 31 ≤ leading line ∧ leading line < 2 ^ 31 ∧ (isNumber line.body = true ∨ leading line ≤ 0)

/-- The read returns one line, perhaps with lines behind it that say nothing. -/
def OneLine (counter : ℕ) (chunk : List UInt8) : Prop :=
  ∃ line void, chunk = content (line :: void) ∧ Legible line ∧
    counter + expression line ≤ 2 ^ 53 ∧
    (void = [] ∨ (∃ b ∈ line.body, isSpace b = false) ∧
      ∀ l ∈ void, l.body ≠ [] ∧ expression l = 0)

def ReadsLines (s : State n) (a : Action n) : Prop :=
  ∀ (i : Fin n) count beyond, a = .server count beyond → s.shared.pc = .event i →
    (s.locals i).pollin = true → OneLine (s.locals i).counter ((s.locals i).pipe.take count)

def disconnecting (lines : List Line) : ℕ := lines.countP fun line => line.body = []

structure Counted (s : State n) : Prop where
  counter : (∀ i, (s.locals i).pipe = []) →
    ∑ i, (s.locals i).counter = ∑ i, ((s.locals i).lines.map expression).sum
  disconnect : (∀ i, (s.locals i).pipe = []) → ∀ i, (s.locals i).disconnects =
    if ∃ line ∈ (s.locals i).lines, line.body = [] then 1 else 0

structure Ledger (client : Client) : Prop where
  books : ∃ seen unread, client.lines = seen ++ unread ∧ client.pipe = content unread ∧
    client.counter = (seen.map expression).sum ∧ client.disconnects = disconnecting seen
  short : ∀ line ∈ client.lines, line.bytes.length < PIPE_BUF
  unended : client.writer = .writing → disconnecting client.lines = 0
  once : disconnecting client.lines ≤ 1

theorem leading_append {after : List UInt8}
    (h : (∃ b ∈ line.body, isSpace b = false) ∨ after.head? = some 0) :
    signedValue ((line.body ++ newline :: after).dropWhile isSpace) = leading line := by
  by_cases hblank : ∀ b ∈ line.body, isSpace b = true
  · have hhead : after.head? = some 0 := by
      rcases h with ⟨b, hb, hspace⟩ | h
      · rw [hblank b hb] at hspace
        cases hspace
      · exact h
    obtain ⟨rest, rfl⟩ : ∃ rest, after = 0 :: rest := by
      cases after with
      | nil => cases hhead
      | cons b rest =>
        cases hhead
        exact ⟨rest, rfl⟩
    have hempty : line.body.dropWhile isSpace = [] := List.dropWhile_eq_nil_iff.mpr hblank
    rw [leading, hempty, List.dropWhile_append_of_pos hblank]
    exact signedValue_stop (by decide) (by decide) (by decide) [] rest
  · have hsplit : (line.body ++ newline :: after).dropWhile isSpace =
        line.body.dropWhile isSpace ++ newline :: after := by
      rw [List.dropWhile_append, if_neg]
      simpa [List.isEmpty_iff, List.dropWhile_eq_nil_iff] using hblank
    rw [hsplit, leading]
    exact signedValue_stop (by decide) (by decide) (by decide) _ after

theorem expression_eq (h : Legible line) : expression line = (leading line).toNat := by
  unfold expression
  split
  · rfl
  · have hneg := h.2.2.resolve_left ‹_›
    omega

section Receive

variable {i count : ℕ} {beyond : List UInt8} {srv : Server} {void unread : List Line}

theorem void_of_blank (hvoid : void = [] ∨ (∃ b ∈ line.body, isSpace b = false) ∧
    ∀ l ∈ void, l.body ≠ [] ∧ expression l = 0) (hbody : line.body = []) : void = [] := by
  obtain h | ⟨⟨b, hb, -⟩, -⟩ := hvoid
  · exact h
  · rw [hbody] at hb
    cases hb

theorem head_ne_newline (hbody : line.body ≠ []) (rest : List UInt8) :
    (line.body ++ rest).head? ≠ some newline := by
  obtain ⟨b, body, hb⟩ := List.exists_cons_of_ne_nil hbody
  rw [hb]
  rintro hnl
  cases hnl
  exact line.noNewline (hb ▸ List.mem_cons_self)

theorem receive_empty (hchunk : client.pipe.take count = content (line :: void))
    (hbody : line.body = []) :
    (receive i count beyond srv client).2 = { client with
      pipe := client.pipe.drop count
      disconnects := client.disconnects + 1 } := by
  simp [receive, hchunk, content_cons, hbody]

theorem receive_number (hchunk : client.pipe.take count = content (line :: void))
    (hlegible : Legible line) (hexact : client.counter + expression line ≤ 2 ^ 53)
    (hbody : line.body ≠ []) (hend : (∃ b ∈ line.body, isSpace b = false) ∨
      (content void ++ (List.replicate (PIPE_BUF - count) 0 ++ beyond)).head? = some 0) :
    (receive i count beyond srv client).2 = { client with
      pipe := client.pipe.drop count
      counter := client.counter + expression line } := by
  have hhead : (client.pipe.take count ++ List.replicate (PIPE_BUF - count) 0).head? ≠
      some newline := by
    rw [hchunk, content_cons, List.append_assoc]
    exact head_ne_newline hbody _
  have hvalue := leading_append hend
  have hresult : (atoi (client.pipe.take count ++ List.replicate (PIPE_BUF - count) 0 ++
      beyond)).toInt = leading line := by
    have hbuffer : client.pipe.take count ++ List.replicate (PIPE_BUF - count) 0 ++ beyond =
        line.body ++ newline :: (content void ++ (List.replicate (PIPE_BUF - count) 0 ++ beyond)) := by
      rw [hchunk, content_cons]
      simp only [List.append_assoc, List.cons_append]
    rw [hbuffer, ← hvalue]
    apply toInt_atoi
    · rw [hvalue]
      exact hlegible.1
    · rw [hvalue]
      exact hlegible.2.1
  have hexpression := expression_eq hlegible
  simp only [receive, hresult, if_neg hhead]
  split
  · rw [← hexpression, toDouble_eq hexact]
  · have hzero : expression line = 0 := by omega
    rw [hzero, Nat.add_zero]

theorem drop_eq_of_take {chunk rest : List Line} (hchunk : client.pipe.take count = content chunk)
    (hpipe : client.pipe = content (chunk ++ rest)) : client.pipe.drop count = content rest := by
  have hsplit := List.take_append_drop count client.pipe
  rw [hchunk] at hsplit
  nth_rewrite 2 [hpipe] at hsplit
  rw [content_append] at hsplit
  exact List.append_cancel_left hsplit

theorem terminated_behind (hchunk : client.pipe.take count = content [line])
    (hlen : count ≤ client.pipe.length) (hshort : line.bytes.length < PIPE_BUF) :
    (List.replicate (PIPE_BUF - count) 0 ++ beyond).head? = some 0 := by
  have hcount := congrArg List.length hchunk
  rw [List.length_take, Nat.min_eq_left hlen] at hcount
  have hroom : PIPE_BUF - count = (PIPE_BUF - count - 1) + 1 := by
    simp only [content, List.flatMap_cons, List.flatMap_nil, List.append_nil] at hcount
    omega
  rw [hroom, List.replicate_succ]
  rfl

end Receive

theorem expression_empty (h : line.body = []) : expression line = 0 := by
  simp [expression, isNumber, h, unsigned]

theorem sum_void {void : List Line} (h : ∀ l ∈ void, expression l = 0) :
    (void.map expression).sum = 0 := by
  rw [List.map_congr_left h]
  simp

theorem disconnecting_void {void : List Line} (h : ∀ l ∈ void, l.body ≠ []) :
    disconnecting void = 0 :=
  List.countP_eq_zero.mpr fun l hl => by simpa using h l hl

namespace Ledger

theorem read (h : Ledger client) {i count : ℕ} {beyond : List UInt8} {srv : Server}
    (hone : OneLine client.counter (client.pipe.take count))
    (hlen : count ≤ client.pipe.length) : Ledger (receive i count beyond srv client).2 := by
  obtain ⟨line, void, hchunk, hlegible, hexact, hvoid⟩ := hone
  obtain ⟨⟨seen, unread, hlines, hpipe, hcounter, hdisconnects⟩, hshort, hunended, honce⟩ := h
  have hprefix : content (line :: void) <+: content unread := by
    rw [← hchunk, ← hpipe]
    exact List.take_prefix _ _
  obtain ⟨rest, rfl⟩ := prefix_of_content_prefix hprefix
  have hrest := drop_eq_of_take hchunk hpipe
  by_cases hbody : line.body = []
  · have hnone := void_of_blank hvoid hbody
    subst hnone
    rw [receive_empty hchunk hbody]
    refine ⟨⟨seen ++ [line], rest, ?_, hrest, ?_, ?_⟩, hshort, hunended, honce⟩
    · rw [hlines, List.append_assoc]
    · rw [List.map_append, List.sum_append, ← hcounter]
      simp [expression_empty hbody]
    · change client.disconnects + 1 = _
      rw [disconnecting, List.countP_append, hdisconnects]
      simp [disconnecting, hbody]
  · have hend : (∃ b ∈ line.body, isSpace b = false) ∨
        (content void ++ (List.replicate (PIPE_BUF - count) 0 ++ beyond)).head? = some 0 := by
      obtain rfl | ⟨hsolid, -⟩ := hvoid
      · right
        have hbytes := hshort line (by rw [hlines]; simp)
        exact terminated_behind hchunk hlen hbytes
      · exact .inl hsolid
    have hsilent : ∀ l ∈ void, l.body ≠ [] ∧ expression l = 0 := by
      obtain rfl | ⟨-, hall⟩ := hvoid
      · intro l hl
        cases hl
      · exact hall
    rw [receive_number hchunk hlegible hexact hbody hend]
    refine ⟨⟨seen ++ line :: void, rest, ?_, hrest, ?_, ?_⟩, hshort, hunended, honce⟩
    · rw [hlines, List.append_assoc]
    · rw [List.map_append, List.sum_append, ← hcounter, List.map_cons, List.sum_cons,
        sum_void fun l hl => (hsilent l hl).2, Nat.add_zero]
    · have hnone := disconnecting_void fun l hl => (hsilent l hl).1
      change client.disconnects = _
      rw [disconnecting, List.countP_append, List.countP_cons_of_neg (by simpa using hbody), hdisconnects]
      change _ = _ + disconnecting void
      rw [hnone]
      rfl

theorem write (h : Ledger client) (hwriting : client.writer = .writing)
    (hlen : line.bytes.length < PIPE_BUF) : Ledger { client with
      writer := if line.body = [] then .ended else .writing
      pipe := client.pipe ++ line.bytes
      lines := client.lines ++ [line] } := by
  obtain ⟨⟨seen, unread, hlines, hpipe, hcounter, hdisconnects⟩, hshort, hunended, honce⟩ := h
  have hzero := hunended hwriting
  have hadd : disconnecting (client.lines ++ [line]) = if line.body = [] then 1 else 0 := by
    unfold disconnecting at hzero ⊢
    rw [List.countP_append, hzero]
    by_cases hbody : line.body = [] <;> simp [hbody]
  refine ⟨⟨seen, unread ++ [line], ?_, ?_, hcounter, hdisconnects⟩, ?_, ?_, ?_⟩
  · rw [hlines, List.append_assoc]
  · rw [hpipe, content_append]
    simp [content]
  · intro l hl
    rcases List.mem_append.mp hl with hl | hl
    · exact hshort l hl
    · rw [List.mem_singleton.mp hl]
      exact hlen
  · intro hw
    rw [hadd, if_neg]
    rintro hbody
    simp [hbody] at hw
  · rw [hadd]
    split <;> omega

theorem disconnects (h : Ledger client) (hempty : client.pipe = []) :
    client.counter = (client.lines.map expression).sum ∧
      client.disconnects = if ∃ line ∈ client.lines, line.body = [] then 1 else 0 := by
  obtain ⟨⟨seen, unread, hlines, hpipe, hcounter, hdisconnects⟩, -, -, honce⟩ := h
  have hunread : unread = [] := content_eq_nil.mp (hpipe.symm.trans hempty)
  rw [hunread, List.append_nil] at hlines
  subst hlines
  refine ⟨hcounter, ?_⟩
  rw [hdisconnects]
  split
  case isTrue hex =>
    obtain ⟨line, hmem, hbody⟩ := hex
    have hpos : 0 < disconnecting client.lines :=
      List.countP_pos_iff.mpr ⟨line, hmem, by simpa using hbody⟩
    omega
  case isFalse hnone =>
    apply disconnecting_void
    intro l hl hbody
    exact hnone ⟨l, hl, hbody⟩

end Ledger

theorem ledgers_update {i : Fin n} {srv' : Server} {client' : Client}
    (h : ∀ j, Ledger (s.locals j)) (hi : Ledger client') :
    ∀ j, Ledger ((⟨srv', Function.update s.locals i client'⟩ : State n).locals j) :=
  (Function.forall_update_iff s.locals fun _ client => Ledger client).mpr ⟨hi, fun j _ => h j⟩

theorem ledgers_step {a : Action n} (h : ∀ i, Ledger (s.locals i)) (hok : ReadsLines s a)
    (ht : step s a = some t) : ∀ i, Ledger (t.locals i) := by
  cases step_move ht with
  | write i line hwriting hlen hnul => exact ledgers_update h ((h i).write hwriting hlen)
  | close i hopen =>
    obtain ⟨hbooks, hshort, hunended, honce⟩ := h i
    refine ledgers_update h ⟨hbooks, hshort, ?_, honce⟩
    intro hw
    cases hw
  | poll count beyond hpc hopen =>
    intro i
    obtain ⟨hbooks, hshort, hunended, honce⟩ := h i
    exact ⟨hbooks, hshort, hunended, honce⟩
  | read i count beyond hpc hin hpos hbuf hlen =>
    exact ledgers_update h ((h i).read (hok i count beyond rfl hpc hin) hlen)
  | hangup i count beyond hpc =>
    obtain ⟨hbooks, hshort, hunended, honce⟩ := h i
    exact ledgers_update h ⟨hbooks, hshort, hunended, honce⟩
  | _ => exact h

theorem counted_of_readsLines (h : ReachableBy step ReadsLines (init n) s) : Counted s := by
  have hledgers : ∀ i, Ledger (s.locals i) := by
    apply h.invariant fun u => ∀ i, Ledger (u.locals i)
    · intro i
      exact ⟨⟨[], [], rfl, rfl, rfl, rfl⟩, by simp [init], fun _ => rfl, Nat.zero_le _⟩
    · intro u a v hu hok hv
      exact ledgers_step hu hok hv
  constructor
  · intro hempty
    apply Finset.sum_congr rfl
    intro i _
    exact ((hledgers i).disconnects (hempty i)).1
  · intro hempty i
    exact ((hledgers i).disconnects (hempty i)).2

def onlyClient : Fin 1 := ⟨0, Nat.one_pos⟩

def emptyLine : Line := ⟨[], by decide⟩

def digitLine (digit : UInt8) (h : newline ∉ [digit]) : Line := ⟨[digit], h⟩

def oneByOne : List (Action 1) :=
  [.write onlyClient (digitLine 53 (by decide)), .server 0 [], .server 2 [], .server 0 [],
    .server 0 [], .write onlyClient emptyLine, .close onlyClient, .server 0 [], .server 1 []]

theorem oneLine_five : OneLine 0 [53, 10] := by
  refine ⟨digitLine 53 (by decide), [], rfl, ⟨by decide, by decide, .inl (by decide)⟩, ?_, .inl rfl⟩
  decide

theorem oneLine_empty : OneLine 5 [10] := by
  refine ⟨emptyLine, [], rfl, ⟨by decide, by decide, .inr (by decide)⟩, ?_, .inl rfl⟩
  decide

theorem counted_oneByOne : ∃ s : State 1, (∀ i, (s.locals i).pipe = [] ∧
    (s.locals i).counter = 5 ∧ (s.locals i).disconnects = 1) ∧ Counted s := by
  obtain ⟨s, hs, hp⟩ := exists_reachableBy_of_run step
    (fun (s : State 1) a => match a with
      | .server count _ => decide (∀ i, (s.locals i).pollin = true → s.shared.pc = .event i →
          (s.locals i).counter = 0 ∧ (s.locals i).pipe.take count = [53, 10] ∨
          (s.locals i).counter = 5 ∧ (s.locals i).pipe.take count = [10])
      | _ => true)
    (init 1) oneByOne (fun s => decide (∀ i, (s.locals i).pipe = [] ∧
      (s.locals i).counter = 5 ∧ (s.locals i).disconnects = 1)) (by decide +kernel)
  refine ⟨s, of_decide_eq_true hp, counted_of_readsLines (hs.mono ?_)⟩
  rintro u a hok i count beyond rfl hpc hin
  obtain ⟨hcounter, hchunk⟩ | ⟨hcounter, hchunk⟩ := of_decide_eq_true hok i hin hpc
  · rw [hcounter, hchunk]
    exact oneLine_five
  · rw [hcounter, hchunk]
    exact oneLine_empty

theorem lines_lost : ∃ s : State 1, Reachable step (init 1) s ∧ ∀ i, (s.locals i).pipe = [] ∧
    (s.locals i).counter = 1 ∧ ((s.locals i).lines.map expression).sum = 3 ∧
      (s.locals i).disconnects = 0 ∧ disconnecting (s.locals i).lines = 1 := by
  obtain ⟨s, hs, hp⟩ := exists_reachable_of_run step (init 1)
    [.write onlyClient (digitLine 49 (by decide)), .write onlyClient (digitLine 50 (by decide)),
      .write onlyClient emptyLine, .close onlyClient, .server 0 [], .server 5 []]
    (fun s => decide (∀ i, (s.locals i).pipe = [] ∧ (s.locals i).counter = 1 ∧
      ((s.locals i).lines.map expression).sum = 3 ∧ (s.locals i).disconnects = 0 ∧
      disconnecting (s.locals i).lines = 1)) (by decide +kernel)
  exact ⟨s, hs, of_decide_eq_true hp⟩

end PsOs.FifoServer
