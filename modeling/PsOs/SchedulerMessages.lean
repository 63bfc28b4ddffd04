import PsOs.Scheduler
import PsOs.Strtok

/-!
The main loop of `exercise05/task1/scheduler.c` over its `message` and the position that
`strtok` keeps. There is no result when an access leaves one of the two arrays.
-/

namespace PsOs.Scheduler

open Comparators CStrings Strtok

def MSG_SIZE : ℕ := 1024

@[ext]
structure State where
  numbers : Vector Int64 MSG_SIZE
  mesgText : Vector UInt8 MSG_SIZE
  saved : Option ℕ

abbrev Outcome := Except ParseError (List Int64)

def overwrite {α : Type} {n : ℕ} (values : List α) (array : Vector α n) : Vector α n :=
  Vector.ofFn fun i => values[i]?.getD array[i]

namespace State

def strtok (m : State) (s : Option ℕ) : Option (Option ℕ × State) :=
  (Strtok.strtok (· == 32) m.mesgText s m.saved).map fun r =>
    (r.token, { m with mesgText := r.buffer, saved := some r.saved })

def parseLoop : ℕ → Option ℕ → ℕ → State → Option (Except ParseError ℕ × State)
  | _, none, count, m => some (if count = 0 then .error .MESSAGE_SIZE_ZERO_ERROR else .ok count, m)
  | 0, some _, _, _ => none
  | fuel + 1, some token, count, m =>
    if isValid (stringAt m.mesgText token) then
      if h : count < MSG_SIZE then
        let m := { m with numbers := m.numbers.set count (atol (stringAt m.mesgText token)) h }
        (m.strtok none).bind fun (next, m) => parseLoop fuel next (count + 1) m
      else none
    else some (.error .NOT_A_NUMBER_ERROR, m)

def parseNumbers (m : State) : Option (Except ParseError ℕ × State) :=
  (m.strtok (some 0)).bind fun (token, m) => parseLoop MSG_SIZE token 0 m

def sort (qsort : Qsort Int64) (m : State) (count : ℕ) : State :=
  { m with numbers := overwrite (qsort compare (m.numbers.toList.take count)) m.numbers }

def cleanAt (m : State) (i : ℕ) : State :=
  { m with numbers := m.numbers.setIfInBounds i 0, mesgText := m.mesgText.setIfInBounds i 0 }

def clean (m : State) : State := (List.range MSG_SIZE).foldl cleanAt m

def start (numbers : Vector Int64 MSG_SIZE) (mesgText : Vector UInt8 MSG_SIZE) : State :=
  clean ⟨numbers, mesgText, none⟩

def receive (m : State) (message : List UInt8) : State :=
  { m with mesgText := overwrite message m.mesgText }

def handle (qsort : Qsort Int64) (m : State) : Option (Outcome × State) :=
  m.parseNumbers.map fun (result, m) =>
    match result with
    | .ok count => (.ok (m.numbers.toList.take count), (m.sort qsort count).clean)
    | .error e => (.error e, m.clean)

def iteration (qsort : Qsort Int64) (m : State) :
    Option (List UInt8) → Option (Option Outcome × State)
  | none => some (none, m)
  | some message =>
    (handle qsort (m.receive message)).map fun (o, m) => (some o, m)

def run (qsort : Qsort Int64) : State → List (Option (List UInt8)) → Option (List (Option Outcome))
  | _, [] => some []
  | m, received :: rest =>
    (iteration qsort m received).bind fun (o, m) => (run qsort m rest).map (o :: ·)

end State

def Ended (message : List UInt8) : Prop :=
  message.length ≤ MSG_SIZE ∧ (message.length < MSG_SIZE ∨ 0 ∈ message)

instance (message : List UInt8) : Decidable (Ended message) :=
  inferInstanceAs (Decidable (_ ∧ _))

section Parse

variable {m : State} {token : Option ℕ} {ts : List (List UInt8)}

def Gives (result : Except ParseError ℕ) (m : State) (outcome : Outcome) : Prop :=
  result = outcome.map List.length ∧ result.map (m.numbers.toList.take ·) = outcome

/-- `token` is the pointer that the last call of `strtok` gave out; `ts` are its token and those
that the next calls will find. -/
def Serving (m : State) (token : Option ℕ) : List (List UInt8) → Prop
  | [] => token = none
  | t :: ts => ∃ start i, token = some start ∧ stringAt m.mesgText start = t ∧ m.saved = some i ∧
      Ahead (· == 32) m.mesgText i ts

theorem strtok_serving {s : Option ℕ} {i : ℕ} (hs : s.or m.saved = some i)
    (h : Ahead (· == 32) m.mesgText i ts) :
    ∃ next m', m.strtok s = some (next, m') ∧ Serving m' next ts ∧ m'.numbers = m.numbers := by
  cases ts with
  | nil =>
    obtain ⟨i', hdone⟩ := strtok_done (by decide) h s hs
    refine ⟨none, { m with saved := some i' }, ?_, rfl, rfl⟩
    rw [State.strtok, hdone, Option.map_some]
  | cons t ts =>
    obtain ⟨start, buffer', i', hnext, hstring, hahead⟩ := strtok_next (by decide) h s hs
    refine ⟨some start, { m with mesgText := buffer', saved := some i' }, ?_,
      ⟨start, i', rfl, hstring, rfl, hahead⟩, rfl⟩
    rw [State.strtok, hnext, Option.map_some]

theorem take_set {numbers : Vector Int64 MSG_SIZE} {acc : List Int64}
    (hacc : numbers.toList.take acc.length = acc) (h : acc.length < MSG_SIZE) (x : Int64) :
    (numbers.set acc.length x h).toList.take (acc.length + 1) = acc ++ [x] := by
  have hlen : acc.length < numbers.toList.length := by rwa [Vector.length_toList]
  rw [Vector.toList_set, List.set_eq_take_append_cons_drop, if_pos hlen, hacc,
    List.take_length_add_append, List.take_succ_cons, List.take_zero]

theorem parseLoop_serving {acc : List Int64} {fuel : ℕ} (h : Serving m token ts)
    (hacc : m.numbers.toList.take acc.length = acc) (hroom : acc.length + ts.length ≤ MSG_SIZE)
    (hfuel : ts.length ≤ fuel) :
    ∃ result m', State.parseLoop fuel token acc.length m = some (result, m') ∧
      Gives result m' (parseTokens ts acc) := by
  induction ts generalizing m token acc fuel with
  | nil =>
    obtain rfl : token = none := h
    refine ⟨_, m, by rw [State.parseLoop], ?_⟩
    by_cases hempty : acc = []
    · simp [Gives, hempty, parseTokens, Except.map]
    · simp [Gives, hempty, parseTokens, Except.map, hacc]
  | cons t ts ih =>
    obtain ⟨start, i, rfl, hstring, hsaved, hahead⟩ := h
    obtain ⟨fuel, rfl⟩ := Nat.exists_eq_succ_of_ne_zero (n := fuel) (by rintro rfl; simp at hfuel)
    rw [List.length_cons] at hroom hfuel
    simp only [State.parseLoop, parseTokens, hstring]
    by_cases hvalid : isValid t = true
    · have hlt : acc.length < MSG_SIZE := by omega
      rw [if_pos hvalid, if_pos hvalid, dif_pos hlt]
      let m₁ : State := { m with numbers := m.numbers.set acc.length (atol t) hlt }
      have hs : (none : Option ℕ).or m₁.saved = some i := hsaved
      obtain ⟨next, m', hnext, hserving, hnumbers⟩ := strtok_serving hs hahead
      have hacc' : m'.numbers.toList.take (acc ++ [atol t]).length = acc ++ [atol t] := by
        rw [hnumbers, List.length_append, List.length_singleton]
        exact take_set hacc hlt _
      have hrest := ih hserving hacc' (by simp; omega) (by omega : ts.length ≤ fuel)
      rw [List.length_append, List.length_singleton] at hrest
      rw [hnext, Option.bind_some]
      exact hrest
    · rw [if_neg hvalid, if_neg hvalid]
      exact ⟨_, m, rfl, rfl, rfl⟩

theorem parseNumbers_eq (h : 0 ∈ m.mesgText.toList) :
    ∃ result m', m.parseNumbers = some (result, m') ∧
      Gives result m' (parseNumbers (stringAt m.mesgText 0)) := by
  have hahead := ahead_read (· == 32) h
  obtain ⟨token, m', hstrtok, hserving, -⟩ :=
    strtok_serving (m := m) (s := some 0) (Option.some_or ..) hahead
  have hlen : (tokens (stringAt m.mesgText 0)).length ≤ MSG_SIZE := by
    apply (split_length_le _ _).trans
    apply (List.takeWhile_sublist _).length_le.trans
    simp
  rw [State.parseNumbers, hstrtok, Option.bind_some]
  apply @parseLoop_serving _ _ _ [] _ hserving rfl _ hlen
  rwa [List.length_nil, Nat.zero_add]

end Parse

section Clean

variable {m : State} {message : List UInt8}

def zeroed (saved : Option ℕ) : State := ⟨Vector.replicate _ 0, Vector.replicate _ 0, saved⟩

def Cleaned (m : State) (k : ℕ) : Prop :=
  ∀ j (h : j < MSG_SIZE), j < k → m.numbers[j] = 0 ∧ m.mesgText[j] = 0

theorem Cleaned.succ {k : ℕ} (h : Cleaned m k) : Cleaned (m.cleanAt k) (k + 1) := by
  intro j hj hjk
  by_cases hk : k = j
  · subst hk
    simp [State.cleanAt]
  · simp only [State.cleanAt, Vector.getElem_setIfInBounds_ne hj hk]
    exact h j hj (by omega)

theorem cleaned_range (m : State) (k : ℕ) :
    Cleaned ((List.range k).foldl State.cleanAt m) k ∧
      ((List.range k).foldl State.cleanAt m).saved = m.saved := by
  induction k with
  | zero => exact ⟨fun j _ hj => absurd hj (Nat.not_lt_zero j), rfl⟩
  | succ k ih =>
    rw [List.range_succ, List.foldl_concat]
    exact ⟨ih.1.succ, ih.2⟩

theorem clean_eq (m : State) : m.clean = zeroed m.saved := by
  obtain ⟨hclean, hsaved⟩ := cleaned_range m MSG_SIZE
  rw [← State.clean] at hclean hsaved
  apply State.ext
  · apply Vector.ext
    intro j hj
    exact (hclean j hj hj).1.trans (Vector.getElem_replicate hj).symm
  · apply Vector.ext
    intro j hj
    exact (hclean j hj hj).2.trans (Vector.getElem_replicate hj).symm
  · exact hsaved

theorem overwrite_zeros {n : ℕ} (h : message.length ≤ n) :
    (overwrite message (Vector.replicate n 0)).toList =
      message ++ List.replicate (n - message.length) 0 := by
  apply List.ext_getElem
  · simp [overwrite]
    omega
  · intro j hj hj'
    by_cases hlt : j < message.length
    · simp [overwrite, hlt]
    · simp [overwrite, hlt, List.getElem_append]

theorem read_append_zeros (message : List UInt8) (k : ℕ) :
    (CString.read (message ++ List.replicate k 0)).bytes = (CString.read message).bytes := by
  induction message with
  | nil =>
    cases k with
    | zero => rfl
    | succ k => rfl
  | cons b message ih =>
    by_cases hb : b = 0
    · rw [hb]
      rfl
    · rw [List.cons_append, CString.read_cons hb, CString.read_cons hb, ih]

theorem string_received (h : Ended message) (saved : Option ℕ) :
    0 ∈ ((zeroed saved).receive message).mesgText.toList ∧
      stringAt ((zeroed saved).receive message).mesgText 0 = (CString.read message).bytes := by
  obtain ⟨hle, hend⟩ := h
  rw [stringAt, State.receive, zeroed, overwrite_zeros hle, List.drop_zero]
  refine ⟨?_, read_append_zeros _ _⟩
  rw [List.mem_append, List.mem_replicate]
  obtain hlt | hmem := hend
  · right
    exact ⟨by omega, rfl⟩
  · exact .inl hmem

end Clean

section Run

variable {qsort : Qsort Int64} {received : List (Option (List UInt8))}

def outcome (message : List UInt8) : Outcome := parseNumbers (CString.read message).bytes

theorem handle_received {message : List UInt8} (h : Ended message) (saved : Option ℕ) :
    ∃ saved', State.handle qsort ((zeroed saved).receive message) =
      some (outcome message, zeroed saved') := by
  obtain ⟨hnul, hstring⟩ := string_received h saved
  obtain ⟨result, m', hparse, -, hgives⟩ := parseNumbers_eq hnul
  refine ⟨m'.saved, ?_⟩
  rw [State.handle, hparse, Option.map_some, outcome, ← hstring, ← hgives]
  cases result with
  | ok count => simp only [Except.map, clean_eq, State.sort]
  | error e => simp only [Except.map, clean_eq]

theorem iteration_zeroed {r : Option (List UInt8)} (h : ∀ message, r = some message → Ended message)
    (saved : Option ℕ) :
    ∃ saved', State.iteration qsort (zeroed saved) r = some (r.map outcome, zeroed saved') := by
  cases r with
  | none => exact ⟨saved, rfl⟩
  | some message =>
    obtain ⟨saved', hhandle⟩ := @handle_received qsort _ (h message rfl) saved
    refine ⟨saved', ?_⟩
    rw [State.iteration]
    exact congrArg _ hhandle

theorem run_zeroed (h : ∀ message, some message ∈ received → Ended message) (saved : Option ℕ) :
    State.run qsort (zeroed saved) received = some (received.map (Option.map outcome)) := by
  induction received generalizing saved with
  | nil => rfl
  | cons r received ih =>
    have hfirst : ∀ message, r = some message → Ended message :=
      fun message hmessage => h message (hmessage ▸ List.mem_cons_self)
    obtain ⟨saved', hr⟩ := @iteration_zeroed qsort r hfirst saved
    have hrest := ih (fun message hmem => h message (List.mem_cons_of_mem _ hmem)) saved'
    rw [State.run, hr, Option.bind_some]
    change (State.run qsort (zeroed saved') received).map _ = _
    rw [hrest]
    rfl

theorem run_start (h : ∀ message, some message ∈ received → Ended message)
    (numbers : Vector Int64 MSG_SIZE) (mesgText : Vector UInt8 MSG_SIZE) :
    State.run qsort (State.start numbers mesgText) received =
      some (received.map (Option.map outcome)) := by
  rw [State.start, clean_eq]
  exact run_zeroed h _

end Run

theorem messages_independent (qsort : Qsort Int64) {received : List (Option (List UInt8))}
    (h : ∀ message, some message ∈ received → Ended message)
    (numbers : Vector Int64 MSG_SIZE) (mesgText : Vector UInt8 MSG_SIZE) :
    ∃ outcomes, State.run qsort (State.start numbers mesgText) received = some outcomes ∧
      outcomes.length = received.length ∧
      ∀ (k : ℕ) r o, received[k]? = some r → outcomes[k]? = some o →
        ∀ numbers' mesgText', State.run qsort (State.start numbers' mesgText') [r] = some [o] := by
  refine ⟨_, run_start h numbers mesgText, List.length_map _, ?_⟩
  intro k r o hr ho numbers' mesgText'
  have hended : ∀ message, some message ∈ [r] → Ended message := by
    intro message hmem
    apply h message
    rw [List.mem_singleton.mp hmem]
    exact List.mem_of_getElem? hr
  rw [List.getElem?_map, hr, Option.map_some, Option.some.injEq] at ho
  rw [run_start hended, List.map_singleton, ho]

theorem messages_independent_threeMessages :
    ∃ outcomes, State.run (fun compare l => l.mergeSort fun a b => compare a b ≤ 0)
        (State.start (Vector.replicate _ 7) (Vector.replicate _ 49))
        [some (text "12 x 3"), none, some (text "2 1")] = some outcomes ∧
      outcomes.length = 3 ∧
      ∀ (k : ℕ) r o, [some (text "12 x 3"), none, some (text "2 1")][k]? = some r →
        outcomes[k]? = some o → ∀ numbers mesgText,
          State.run (fun compare l => l.mergeSort fun a b => compare a b ≤ 0)
            (State.start numbers mesgText) [r] = some [o] := by
  apply messages_independent
  intro message hmem
  simp only [List.mem_cons, Option.some.injEq, List.not_mem_nil, or_false, reduceCtorEq,
    false_or] at hmem
  obtain rfl | rfl := hmem <;> decide

end PsOs.Scheduler
