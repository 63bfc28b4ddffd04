import PsOs.ChatServer

namespace PsOs.ChatServer

open CStrings

variable {admins : Admins}

def inName (b : UInt8) : Bool := b ≠ 0 ∧ b ≠ newline

def Entitled (admins : Admins) (sent : List UInt8) : Prop :=
  ∃ admin ∈ admins.names, admin.bytes = transmitted sent

/-- What has to hold of the received bytes for the flag to be right whatever the memory of
`client_info` held before. -/
def Trusted (admins : Admins) (sent received : List UInt8) : Prop :=
  match received.dropWhile inName with
  -- the old content completes the name
  | [] => ¬ Entitled admins sent ∧
      ∀ admin ∈ admins.usernames, newline ∉ admin.bytes → ¬ received <+: admin.bytes
  | _ :: _ =>
    -- the empty name is in every entry that is not used
    if received.takeWhile inName = transmitted sent then
      transmitted sent = [] → .empty ∈ admins.names ∨ admins.names.length = MAX_ADMINS
    -- a name cut at a NUL, or with bytes of the next send behind it
    else (∃ admin ∈ admins.usernames, admin.bytes = received.takeWhile inName) ↔
      Entitled admins sent

def Admins.Short (admins : Admins) : Prop := ∀ name ∈ admins.names, name.length < 50

theorem read_usernameField {name : CString} (h : name.length < 50) (rest : List UInt8) :
    CString.read (usernameField name ++ rest) = name := by
  have hlen : name.bytes.length ≤ 50 := Nat.le_of_lt h
  obtain ⟨k, hk⟩ := Nat.exists_eq_succ_of_ne_zero (Nat.sub_ne_zero_of_lt h)
  apply CString.ext
  rw [usernameField, List.take_of_length_le hlen, hk, List.append_assoc, List.replicate_succ,
    List.cons_append, CString.read_append name.noNul, CString.read_cons_nul, List.append_nil]

theorem fieldStrings_map {names : List CString} (h : ∀ name ∈ names, name.length < 50)
    (beyond : List UInt8) : fieldStrings beyond (names.map usernameField) = names := by
  induction names with
  | nil => rfl
  | cons name names ih =>
    rw [List.map_cons, fieldStrings, read_usernameField (h name List.mem_cons_self),
      ih fun other hother => h other (List.mem_cons_of_mem _ hother)]

theorem Admins.Short.usernames (h : admins.Short) : admins.usernames =
    admins.names ++ List.replicate (MAX_ADMINS - admins.names.length) .empty := by
  apply fieldStrings_map
  intro name hname
  rcases List.mem_append.mp hname with hname | hname
  · exact h name hname
  · rw [List.eq_of_mem_replicate hname]
    decide

theorem mem_usernames (h : admins.Short) {name : CString} : name ∈ admins.usernames ↔
    name ∈ admins.names ∨ name = .empty ∧ admins.names.length < MAX_ADMINS := by
  have := admins.le_max
  simp only [h.usernames, List.mem_append, List.mem_replicate]
  constructor
  · rintro (h | ⟨hne, rfl⟩)
    · exact .inl h
    · exact .inr ⟨rfl, by omega⟩
  · rintro (h | ⟨rfl, hlt⟩)
    · exact .inl h
    · exact .inr ⟨by omega, rfl⟩

theorem usernames_short (hshort : admins.Short) {name : CString} (h : name ∈ admins.usernames) :
    name.length < 50 := by
  rcases (mem_usernames hshort).mp h with h | ⟨rfl, -⟩
  · exact hshort name h
  · decide

theorem isAdmin_iff {name : CString} :
    isAdmin admins name = true ↔ ∃ admin ∈ admins.usernames, admin.bytes = name.bytes := by
  simp only [isAdmin, List.any_eq_true, beq_iff_eq]
  constructor
  · rintro ⟨admin, h, rfl⟩
    exact ⟨_, h, rfl⟩
  · rintro ⟨admin, h, heq⟩
    exact ⟨admin, h, CString.ext heq.symm⟩

theorem username_bytes (l : Login) : l.username.bytes = l.memory.takeWhile inName :=
  read_set_strcspn l.memory newline

section Ended

variable {l : Login} {stop : UInt8} {rest : List UInt8}

theorem received_eq (h : l.received.dropWhile inName = stop :: rest) :
    l.received = l.received.takeWhile inName ++ stop :: rest := by
  rw [← h, List.takeWhile_append_dropWhile]

theorem stop_not_inName (h : l.received.dropWhile inName = stop :: rest) :
    inName stop = false := by
  have := List.head_dropWhile_not inName (l := l.received) (by simp [h])
  simpa [h] using this

theorem username_of_ended (h : l.received.dropWhile inName = stop :: rest) :
    l.username.bytes = l.received.takeWhile inName := by
  rw [username_bytes, Login.memory]
  conv_lhs => rw [received_eq h]
  have hall : ∀ b ∈ l.received.takeWhile inName, inName b = true :=
    fun b hb => List.mem_takeWhile_imp hb
  simp only [List.append_assoc, List.cons_append]
  rw [List.takeWhile_append_of_pos hall, List.takeWhile_cons_of_neg (by simp [stop_not_inName h]),
    List.append_nil]

end Ended

section Unended

variable {l : Login}

theorem inName_of_unended (h : l.received.dropWhile inName = []) :
    ∀ b ∈ l.received, inName b = true :=
  List.dropWhile_eq_nil_iff.mp h

theorem username_of_unended (h : l.received.dropWhile inName = []) :
    l.username.bytes =
      l.received ++ (l.old.drop l.received.length ++ l.beyond).takeWhile inName := by
  rw [username_bytes, Login.memory, List.append_assoc]
  exact List.takeWhile_append_of_pos (inName_of_unended h)

theorem newline_notMem_username (l : Login) : newline ∉ l.username.bytes := by
  rw [username_bytes]
  exact fun h => by simpa [inName] using List.mem_takeWhile_imp h

end Unended

theorem entry_transmitted (hshort : admins.Short) {sent : List UInt8}
    (h : transmitted sent = [] → .empty ∈ admins.names ∨ admins.names.length = MAX_ADMINS) :
    (∃ admin ∈ admins.usernames, admin.bytes = transmitted sent) ↔ Entitled admins sent := by
  constructor
  · rintro ⟨admin, hmem, heq⟩
    rcases (mem_usernames hshort).mp hmem with hname | ⟨rfl, hlt⟩
    · exact ⟨admin, hname, heq⟩
    · exact ⟨.empty, (h heq.symm).resolve_right (by omega), heq⟩
  · rintro ⟨admin, hmem, heq⟩
    exact ⟨admin, (mem_usernames hshort).mpr (.inl hmem), heq⟩

theorem isAdmin_of_trusted (hshort : admins.Short) {l : Login}
    (h : Trusted admins l.sent l.received) :
    isAdmin admins l.username = true ↔ Entitled admins l.sent := by
  rw [isAdmin_iff]
  unfold Trusted at h
  cases hdrop : l.received.dropWhile inName with
  | nil =>
    simp only [hdrop] at h
    constructor
    · rintro ⟨admin, hmem, heq⟩
      refine absurd ?_ (h.2 admin hmem (by rw [heq]; exact newline_notMem_username l))
      rw [heq, username_of_unended hdrop]
      exact List.prefix_append ..
    · exact fun hentitled => absurd hentitled h.1
  | cons stop rest =>
    simp only [hdrop] at h
    rw [username_of_ended hdrop]
    split at h
    case isTrue hname =>
      rw [hname]
      exact entry_transmitted hshort h
    case isFalse => exact h

section Contents

variable {sent later : List UInt8} {count : ℕ}

theorem exists_completed (hcount : count ≤ 50)
    (hdrop : ((sent ++ later).take count).dropWhile inName = []) {name : CString}
    (hname : newline ∉ name.bytes) (hshort : name.length < 50)
    (hpre : (sent ++ later).take count <+: name.bytes) :
    ∃ l : Login, l.sent = sent ∧ l.later = later ∧ l.count = count ∧
      l.username.bytes = name.bytes := by
  obtain ⟨rest, hrest⟩ := hpre
  have hlen : ((sent ++ later).take count).length + rest.length < 50 := by
    rw [← List.length_append, hrest]
    exact hshort
  let padding := List.replicate (50 - ((sent ++ later).take count).length - rest.length) (0 : UInt8)
  let l : Login :=
    { sent, later, count
      old := (sent ++ later).take count ++ (rest ++ padding)
      beyond := []
      count_le := hcount
      old_length := by
        simp only [padding, List.length_append, List.length_replicate] at hlen ⊢
        omega }
  have hall : ∀ b ∈ rest, inName b = true := by
    intro b hb
    have hmem : b ∈ name.bytes := by
      rw [← hrest]
      exact List.mem_append_right _ hb
    simp only [inName, decide_eq_true_eq]
    exact ⟨fun hzero => name.noNul (hzero ▸ hmem), fun hnl => hname (hnl ▸ hmem)⟩
  have hpadding : padding.takeWhile inName = [] := by
    rw [List.takeWhile_replicate]
    rfl
  have hl : l.received.dropWhile inName = [] := hdrop
  refine ⟨l, rfl, rfl, rfl, ?_⟩
  rw [username_of_unended hl]
  simp only [l, Login.received, List.drop_left, List.append_nil]
  rw [List.takeWhile_append_of_pos hall, hpadding, List.append_nil, hrest]

theorem exists_overlong (hcount : count ≤ 50)
    (hdrop : ((sent ++ later).take count).dropWhile inName = []) :
    ∃ l : Login, l.sent = sent ∧ l.later = later ∧ l.count = count ∧ 50 ≤ l.username.length := by
  let l : Login := ⟨sent, later, count, List.replicate 50 1, [], hcount, by simp⟩
  have hl : l.received.dropWhile inName = [] := hdrop
  refine ⟨l, rfl, rfl, rfl, ?_⟩
  have hall : ∀ n, (List.replicate n (1 : UInt8)).takeWhile inName = List.replicate n 1 := by
    intro n
    rw [List.takeWhile_replicate]
    rfl
  rw [CString.length, username_of_unended hl]
  simp only [l, Login.received, List.drop_replicate, List.append_nil, hall, List.length_append,
    List.length_replicate]
  omega

def FlagRight (admins : Admins) (sent later : List UInt8) (count : ℕ) : Prop :=
  ∀ l : Login, l.sent = sent → l.later = later → l.count = count →
    (isAdmin admins l.username = true ↔ Entitled admins sent)

theorem trusted_of_isAdmin (hshort : admins.Short) (hcount : count ≤ 50)
    (h : FlagRight admins sent later count) :
    Trusted admins sent ((sent ++ later).take count) := by
  unfold Trusted
  cases hdrop : ((sent ++ later).take count).dropWhile inName with
  | nil =>
    -- one old content runs on beyond every name, another one completes the name of an admin
    obtain ⟨l, hsent, hlater, hc, hlong⟩ := exists_overlong hcount hdrop
    have hnot : ¬ Entitled admins sent := by
      intro hentitled
      obtain ⟨admin, hmem, heq⟩ := isAdmin_iff.mp ((h l hsent hlater hc).mpr hentitled)
      have hlt := usernames_short hshort hmem
      rw [CString.length, heq] at hlt
      exact absurd hlong (not_le.mpr hlt)
    refine ⟨hnot, fun admin hmem hnewline hpre => ?_⟩
    obtain ⟨l', hsent', hlater', hc', hbytes⟩ :=
      exists_completed hcount hdrop hnewline (usernames_short hshort hmem) hpre
    exact hnot ((h l' hsent' hlater' hc').mp (isAdmin_iff.mpr ⟨admin, hmem, hbytes.symm⟩))
  | cons stop rest =>
    let l : Login := ⟨sent, later, count, List.replicate 50 0, [], hcount, by simp⟩
    have hl := h l rfl rfl rfl
    have hdrop' : l.received.dropWhile inName = stop :: rest := hdrop
    rw [isAdmin_iff, username_of_ended hdrop'] at hl
    change (∃ admin ∈ admins.usernames,
      admin.bytes = ((sent ++ later).take count).takeWhile inName) ↔ _ at hl
    dsimp only
    split
    case isTrue hname =>
      intro hempty
      by_contra hnone
      obtain ⟨hnot, hne⟩ := not_or.mp hnone
      have hlt : admins.names.length < MAX_ADMINS := lt_of_le_of_ne admins.le_max hne
      rw [hname, hempty] at hl
      obtain ⟨admin, hmem, heq⟩ :=
        hl.mp ⟨.empty, (mem_usernames hshort).mpr (.inr ⟨rfl, hlt⟩), rfl⟩
      have hadmin : admin = .empty := CString.ext (heq.trans hempty)
      exact hnot (hadmin ▸ hmem)
    case isFalse => exact hl

theorem trusted_iff (hshort : admins.Short) (hcount : count ≤ 50) :
    Trusted admins sent ((sent ++ later).take count) ↔ FlagRight admins sent later count := by
  refine ⟨?_, trusted_of_isAdmin hshort hcount⟩
  rintro h l rfl rfl rfl
  exact isAdmin_of_trusted hshort h

end Contents

end PsOs.ChatServer
