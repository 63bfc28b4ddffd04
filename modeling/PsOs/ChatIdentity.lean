import PsOs.ChatLogin

/-! What the listener makes of a username, for any content of the memory that `malloc` gave. -/

namespace PsOs.ChatServer

open CStrings

variable {admins : Admins} {l : Login}

def strcmpLast : List UInt8 → List UInt8 → ℕ
  | a :: as, b :: bs => if a = b then strcmpLast as bs + 1 else 0
  | _, _ => 0

/-- The scan for the newline and the comparisons end inside of the field of 50 bytes. -/
structure InField (admins : Admins) (l : Login) : Prop where
  scan : strcspn l.memory newline < 50
  compare : ∀ admin ∈ admins.usernames, strcmpLast l.username.bytes admin.bytes < 50

structure Agree (admins : Admins) (l l' : Login) : Prop where
  username : l.username = l'.username
  isAdmin : isAdmin admins l.username = isAdmin admins l'.username

def Ends (received : List UInt8) : Prop := newline ∈ received ∨ 0 ∈ received

theorem strcmpLast_le (s t : List UInt8) : strcmpLast s t ≤ s.length := by
  induction s generalizing t with
  | nil => simp [strcmpLast]
  | cons a s ih =>
    cases t with
    | nil => simp [strcmpLast]
    | cons b t =>
      rw [strcmpLast]
      split
      · exact Nat.succ_le_succ (ih t)
      · exact Nat.zero_le _

theorem strcspn_memory (l : Login) : strcspn l.memory newline = l.username.bytes.length := by
  rw [username_bytes]
  rfl

theorem dropWhile_eq_nil_iff {received : List UInt8} :
    received.dropWhile inName = [] ↔ ¬ Ends received := by
  rw [List.dropWhile_eq_nil_iff, Ends, not_or]
  constructor
  · intro hall
    constructor
    · intro hmem
      simpa [inName] using hall _ hmem
    · intro hmem
      simpa [inName] using hall _ hmem
  · rintro ⟨hnewline, hnul⟩ b hb
    simp only [inName, decide_eq_true_eq]
    constructor
    · rintro rfl
      exact hnul hb
    · rintro rfl
      exact hnewline hb

theorem exists_stop (h : Ends l.received) :
    ∃ stop rest, l.received.dropWhile inName = stop :: rest := by
  apply List.exists_cons_of_ne_nil
  intro hnil
  exact dropWhile_eq_nil_iff.mp hnil h

theorem username_of_ends (h : Ends l.received) :
    l.username.bytes = l.received.takeWhile inName := by
  obtain ⟨stop, rest, hdrop⟩ := exists_stop h
  exact username_of_ended hdrop

theorem username_length_lt (h : Ends l.received) : l.username.bytes.length < 50 := by
  obtain ⟨stop, rest, hdrop⟩ := exists_stop h
  have hlen := congrArg List.length (received_eq hdrop)
  have hcount : l.received.length ≤ 50 := (List.length_take_le _ _).trans l.count_le
  rw [List.length_append, List.length_cons] at hlen
  rw [username_of_ended hdrop]
  omega

theorem inField_of_ends (h : Ends l.received) : InField admins l := by
  have hlt := username_length_lt h
  constructor
  · rwa [strcspn_memory]
  · intro admin hadmin
    exact (strcmpLast_le _ _).trans_lt hlt

theorem agree_of_ends {l' : Login} (h : Ends l.received) (heq : l'.received = l.received) :
    Agree admins l l' := by
  have hname : l.username = l'.username := by
    apply CString.ext
    rw [username_of_ends h, username_of_ends (heq ▸ h), heq]
  exact ⟨hname, by rw [hname]⟩

theorem exists_outside {received : List UInt8} (hlen : received.length ≤ 50)
    (h : ¬ Ends received) : ∃ l : Login, l.received = received ∧ ¬ InField admins l := by
  have htake : received.take received.length = received := List.take_length
  have hdrop : ((received ++ []).take received.length).dropWhile inName = [] := by
    rw [List.append_nil, htake]
    exact dropWhile_eq_nil_iff.mpr h
  obtain ⟨l, hsent, hlater, hcount, hlong⟩ := exists_overlong hlen hdrop
  refine ⟨l, ?_, ?_⟩
  · rw [Login.received, hsent, hlater, hcount, List.append_nil, htake]
  · intro hin
    have hscan := hin.scan
    rw [strcspn_memory] at hscan
    exact absurd hlong (not_le.mpr hscan)

theorem identity_iff (admins : Admins) {received : List UInt8} (hlen : received.length ≤ 50) :
    (∀ l l' : Login, l.received = received → l'.received = received →
      Agree admins l l' ∧ InField admins l ∧ InField admins l') ↔ Ends received := by
  constructor
  · intro hall
    by_contra hends
    obtain ⟨l, hl, hout⟩ := @exists_outside admins _ hlen hends
    exact hout (hall l l hl hl).2.1
  · rintro hends l l' rfl hl'
    exact ⟨agree_of_ends hends hl', inField_of_ends hends, inField_of_ends (hl' ▸ hends)⟩

theorem identity_bob :
    (∀ l l' : Login, l.received = text "bob\n" → l'.received = text "bob\n" →
      Agree bobOnly l l' ∧ InField bobOnly l ∧ InField bobOnly l') ↔ Ends (text "bob\n") :=
  identity_iff bobOnly (by decide)

/-- The name "bo" on fresh memory, and on what a client named "bob" has left. -/
theorem identity_of_leftovers :
    (∃ l : Login, l.received = text "bo" ∧ isAdmin bobOnly l.username = false) ∧
      (∃ l : Login, l.received = text "bo" ∧ isAdmin bobOnly l.username = true) ∧
      ¬ ∀ l l' : Login, l.received = text "bo" → l'.received = text "bo" →
        Agree bobOnly l l' ∧ InField bobOnly l ∧ InField bobOnly l' := by
  have hfresh : ∃ l : Login, l.received = text "bo" ∧ isAdmin bobOnly l.username = false :=
    ⟨⟨text "bo", [], 2, List.replicate 50 0, [], by decide, by decide⟩, by decide, by decide +kernel⟩
  have hbob : ∃ l : Login, l.received = text "bo" ∧ isAdmin bobOnly l.username = true :=
    ⟨⟨text "bo", [], 2, text "bob" ++ List.replicate 47 0, [], by decide, by decide⟩, by decide,
      by decide +kernel⟩
  refine ⟨hfresh, hbob, ?_⟩
  intro hall
  obtain ⟨l, hl, hno⟩ := hfresh
  obtain ⟨l', hl', hyes⟩ := hbob
  have hagree := (hall l l' hl hl').1.isAdmin
  rw [hno, hyes] at hagree
  cases hagree

end PsOs.ChatServer
