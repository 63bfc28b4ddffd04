import PsOs.CStrings

/-! `strtok`, the position that it keeps between its calls and the tokens that it gives out. -/

namespace PsOs.Strtok

open CStrings

variable {delim : UInt8 → Bool} {n : ℕ}

def scan (stop : UInt8 → Bool) (buffer : Vector UInt8 n) (i : ℕ) : Option ℕ :=
  ((buffer.toList.drop i).findIdx? stop).map (i + ·)

structure Result (n : ℕ) where
  token : Option ℕ
  buffer : Vector UInt8 n
  saved : ℕ

/-- `strtok(s, delim)` for a pointer `s` into `buffer`, which takes the place of the position
`saved` by the last call. There is no result when a scan leaves the buffer. -/
def strtok (delim : UInt8 → Bool) (buffer : Vector UInt8 n) (s saved : Option ℕ) :
    Option (Result n) := do
  let i ← s.or saved
  let start ← scan (fun b => !delim b) buffer i
  if buffer[start]? = some 0 then return ⟨none, buffer, start⟩
  let stop ← scan (fun b => b == 0 || delim b) buffer start
  if buffer[stop]? = some 0 then return ⟨some start, buffer, stop⟩
  return ⟨some start, buffer.setIfInBounds stop 0, stop + 1⟩

def stringAt (buffer : Vector UInt8 n) (i : ℕ) : List UInt8 :=
  (CString.read (buffer.toList.drop i)).bytes

def split (delim : UInt8 → Bool) (s : List UInt8) : List (List UInt8) :=
  (s.splitOnP delim).filter (· ≠ [])

def Ahead (delim : UInt8 → Bool) (buffer : Vector UInt8 n) (i : ℕ) (ts : List (List UInt8)) :
    Prop :=
  ∃ front s rest, buffer.toList = front ++ (s ++ 0 :: rest) ∧ front.length = i ∧ 0 ∉ s ∧
    split delim s = ts

section Split

variable {c : UInt8} {s t : List UInt8}

theorem split_cons_delim (hc : delim c = true) (s : List UInt8) :
    split delim (c :: s) = split delim s := by
  simp [split, List.splitOnP_cons_eq_if_modifyHead, hc]

theorem split_skip {skip : List UInt8} (hskip : ∀ b ∈ skip, delim b = true) (s : List UInt8) :
    split delim (skip ++ s) = split delim s := by
  induction skip with
  | nil => rfl
  | cons b skip ih =>
    rw [List.cons_append, split_cons_delim (hskip b List.mem_cons_self)]
    exact ih fun b hb => hskip b (List.mem_cons_of_mem _ hb)

theorem split_token (ht : ∀ b ∈ t, delim b = false) (hne : t ≠ []) (hc : delim c = true)
    (s : List UInt8) : split delim (t ++ c :: s) = t :: split delim s := by
  simp [split, List.splitOnP_append_cons_of_forall_mem ht c hc, hne]

theorem split_last (ht : ∀ b ∈ t, delim b = false) (hne : t ≠ []) : split delim t = [t] := by
  simp [split, List.splitOnP_eq_singleton ht, hne]

theorem split_length_le (delim : UInt8 → Bool) (s : List UInt8) :
    (split delim s).length ≤ s.length := by
  induction s with
  | nil => simp [split]
  | cons c s ih =>
    have hcons : (split delim (c :: s)).length ≤ (split delim s).length + 1 := by
      simp only [split, List.splitOnP_cons_eq_if_modifyHead]
      split
      · simp
      · cases h : s.splitOnP delim with
        | nil => exact absurd h (List.splitOnP_ne_nil _ _)
        | cons piece pieces => by_cases hpiece : piece = [] <;> simp [hpiece]
    exact hcons.trans (Nat.succ_le_succ ih)

theorem exists_of_split_cons {ts : List (List UInt8)} (h : split delim s = t :: ts) :
    ∃ skip v, s = skip ++ (t ++ v) ∧ (∀ b ∈ skip, delim b = true) ∧ (∀ b ∈ t, delim b = false) ∧
      t ≠ [] ∧ (v = [] ∧ ts = [] ∨ ∃ d s', v = d :: s' ∧ delim d = true ∧ split delim s' = ts) := by
  have hskip : ∀ b ∈ s.takeWhile delim, delim b = true := fun b hb => List.mem_takeWhile_imp hb
  generalize hu : s.dropWhile delim = u
  have hs : s.takeWhile delim ++ u = s := hu ▸ List.takeWhile_append_dropWhile
  have htoken : ∀ b ∈ u.takeWhile (!delim ·), delim b = false := by
    intro b hb
    simpa using List.mem_takeWhile_imp hb
  generalize hv : u.dropWhile (!delim ·) = v
  have hu' : u.takeWhile (!delim ·) ++ v = u := hv ▸ List.takeWhile_append_dropWhile
  rw [← hs, split_skip hskip] at h
  have hne : u.takeWhile (!delim ·) ≠ [] := by
    cases u with
    | nil => cases h
    | cons b u =>
      have hb : delim b = false := by
        have hhead := List.head?_dropWhile_not delim s
        rw [hu] at hhead
        simpa using hhead
      simp [hb]
  rw [← hu'] at h
  cases v with
  | nil =>
    rw [List.append_nil, split_last htoken hne] at h
    obtain ⟨rfl, rfl⟩ := List.cons.inj h
    exact ⟨_, [], by rw [hu', hs], hskip, htoken, hne, .inl ⟨rfl, rfl⟩⟩
  | cons d s' =>
    have hd : delim d = true := by
      have hhead := List.head?_dropWhile_not (!delim ·) u
      rw [hv] at hhead
      simpa using hhead
    rw [split_token htoken hne hd] at h
    obtain ⟨rfl, rfl⟩ := List.cons.inj h
    exact ⟨_, d :: s', by rw [hu', hs], hskip, htoken, hne, .inr ⟨d, s', rfl, hd, rfl⟩⟩

theorem all_of_split_nil (h : split delim s = []) : ∀ b ∈ s, delim b = true := by
  induction s with
  | nil => exact fun b hb => absurd hb List.not_mem_nil
  | cons c s ih =>
    have hc : delim c = true := by
      by_contra hc
      rw [split, List.splitOnP_cons_eq_if_modifyHead, if_neg hc] at h
      cases hs : s.splitOnP delim with
      | nil => exact List.splitOnP_ne_nil _ _ hs
      | cons piece pieces => simp [hs] at h
    rw [split_cons_delim hc] at h
    exact List.forall_mem_cons.mpr ⟨hc, ih h⟩

end Split

section Scan

variable {stop : UInt8 → Bool} {buffer : Vector UInt8 n}

theorem scan_skip {front skip rest : List UInt8} {c : UInt8}
    (hbuffer : buffer.toList = front ++ (skip ++ c :: rest)) (hskip : ∀ b ∈ skip, stop b = false)
    (hc : stop c = true) : scan stop buffer front.length = some (front ++ skip).length := by
  have hfind : (skip ++ c :: rest).findIdx? stop = some skip.length := by
    rw [List.findIdx?_append, List.findIdx?_eq_none_iff.mpr hskip]
    simp [List.findIdx?_cons, hc]
  rw [scan, hbuffer, List.drop_left, hfind, List.length_append]
  rfl

theorem getElem?_front {front rest : List UInt8} {c : UInt8}
    (hbuffer : buffer.toList = front ++ c :: rest) : buffer[front.length]? = some c := by
  rw [← Vector.getElem?_toList, hbuffer]
  simp

end Scan

section Token

variable {buffer : Vector UInt8 n} {front skip t tail : List UInt8}

theorem stringAt_front (hbuffer : buffer.toList = front ++ (t ++ 0 :: tail)) (ht : 0 ∉ t) :
    stringAt buffer front.length = t := by
  rw [stringAt, hbuffer, List.drop_left, CString.read_append ht, CString.read_cons_nul,
    List.append_nil]

theorem strtok_token {s saved : Option ℕ} {d : UInt8}
    (hbuffer : buffer.toList = front ++ (skip ++ (t ++ d :: tail)))
    (hs : s.or saved = some front.length) (hskip : ∀ b ∈ skip, delim b = true)
    (ht : ∀ b ∈ t, delim b = false) (hnul : 0 ∉ t) (hne : t ≠ []) (hd : d = 0 ∨ delim d = true) :
    strtok delim buffer s saved =
      if d = 0 then some ⟨some (front ++ skip).length, buffer, (front ++ skip ++ t).length⟩
      else some ⟨some (front ++ skip).length,
        buffer.setIfInBounds (front ++ skip ++ t).length 0, (front ++ skip ++ t).length + 1⟩ := by
  obtain ⟨c, t, rfl⟩ := List.exists_cons_of_ne_nil hne
  have hc : c ≠ 0 := by
    rintro rfl
    exact hnul List.mem_cons_self
  have hstart : scan (fun b => !delim b) buffer front.length = some (front ++ skip).length := by
    apply scan_skip hbuffer
    · intro b hb
      simp [hskip b hb]
    · simp [ht c List.mem_cons_self]
  have hbuffer' : buffer.toList = front ++ skip ++ (c :: t ++ d :: tail) := by
    rw [hbuffer, List.append_assoc]
  have hfirst : buffer[(front ++ skip).length]? = some c := getElem?_front hbuffer'
  have hstop : scan (fun b => b == 0 || delim b) buffer (front ++ skip).length =
      some (front ++ skip ++ c :: t).length := by
    apply scan_skip hbuffer'
    · intro b hb
      have hbnul : b ≠ 0 := by
        rintro rfl
        exact hnul hb
      simp [ht b hb, hbnul]
    · simpa using hd
  have hend : buffer[(front ++ skip ++ c :: t).length]? = some d := by
    apply getElem?_front
    rw [hbuffer', List.append_assoc (front ++ skip)]
  simp only [strtok, hs, hstart, hfirst, hstop, hend, Option.bind_eq_bind, Option.bind_some,
    Option.some.injEq, hc, if_false]
  rfl

end Token

variable {buffer : Vector UInt8 n} {i : ℕ} {saved : Option ℕ}

theorem strtok_next (hzero : delim 0 = false) {t : List UInt8} {ts : List (List UInt8)}
    (h : Ahead delim buffer i (t :: ts)) (s : Option ℕ) (hs : s.or saved = some i) :
    ∃ start buffer' i', strtok delim buffer s saved = some ⟨some start, buffer', i'⟩ ∧
      stringAt buffer' start = t ∧ Ahead delim buffer' i' ts := by
  obtain ⟨front, s, rest, hbuffer, rfl, hnul, hsplit⟩ := h
  obtain ⟨skip, v, rfl, hskip, ht, hne, hv⟩ := exists_of_split_cons hsplit
  simp only [List.mem_append, not_or] at hnul
  obtain ⟨rfl, rfl⟩ | ⟨d, s', rfl, hd, rfl⟩ := hv
  · have hbuffer' : buffer.toList = front ++ (skip ++ (t ++ 0 :: rest)) := by
      rw [hbuffer, List.append_nil, List.append_assoc]
    refine ⟨_, _, _, strtok_token hbuffer' hs hskip ht hnul.2.1 hne (.inl rfl), ?_, ?_⟩
    · have hbytes : buffer.toList = front ++ skip ++ (t ++ 0 :: rest) := by
        rw [hbuffer', List.append_assoc]
      exact stringAt_front hbytes hnul.2.1
    · exact ⟨_, [], rest, by rw [hbuffer']; simp, rfl, List.not_mem_nil, rfl⟩
  · have hdnul : d ≠ 0 := by
      rintro rfl
      rw [hzero] at hd
      cases hd
    have hbuffer' : buffer.toList = front ++ (skip ++ (t ++ d :: (s' ++ 0 :: rest))) := by
      rw [hbuffer]
      simp only [List.append_assoc, List.cons_append]
    have htoken := strtok_token hbuffer' hs hskip ht hnul.2.1 hne (.inr hd)
    rw [if_neg hdnul] at htoken
    have hset : (buffer.setIfInBounds (front ++ skip ++ t).length 0).toList =
        front ++ skip ++ (t ++ 0 :: (s' ++ 0 :: rest)) := by
      rw [← List.append_assoc, ← List.append_assoc] at hbuffer'
      rw [Vector.toList_setIfInBounds, hbuffer', List.set_append_right _ _ le_rfl, Nat.sub_self,
        List.set_cons_zero, List.append_assoc]
    refine ⟨_, _, _, htoken, stringAt_front hset hnul.2.1, front ++ skip ++ t ++ [0], s', rest,
      ?_, ?_, ?_, rfl⟩
    · rw [hset]
      simp only [List.append_assoc, List.cons_append, List.nil_append]
    · rw [List.length_append, List.length_singleton]
    · exact fun hmem => hnul.2.2 (List.mem_cons_of_mem _ hmem)

theorem strtok_done (hzero : delim 0 = false) (h : Ahead delim buffer i []) (s : Option ℕ)
    (hs : s.or saved = some i) : ∃ i', strtok delim buffer s saved = some ⟨none, buffer, i'⟩ := by
  obtain ⟨front, s, rest, hbuffer, rfl, hnul, hsplit⟩ := h
  have hstart : scan (fun b => !delim b) buffer front.length = some (front ++ s).length := by
    apply scan_skip hbuffer
    · intro b hb
      simp [all_of_split_nil hsplit b hb]
    · simp [hzero]
  have hbytes : buffer.toList = front ++ s ++ 0 :: rest := by
    rw [hbuffer, List.append_assoc]
  have hend : buffer[(front ++ s).length]? = some 0 := getElem?_front hbytes
  refine ⟨(front ++ s).length, ?_⟩
  simp only [strtok, hs, hstart, hend, Option.bind_eq_bind, Option.bind_some, if_true]
  rfl

theorem ahead_read (delim : UInt8 → Bool) (h : 0 ∈ buffer.toList) :
    Ahead delim buffer 0 (split delim (stringAt buffer 0)) := by
  have hread : stringAt buffer 0 = buffer.toList.takeWhile (· ≠ 0) := by
    rw [stringAt, List.drop_zero]
    rfl
  obtain ⟨rest, hrest⟩ : ∃ rest, buffer.toList.dropWhile (· ≠ 0) = 0 :: rest := by
    cases hdrop : buffer.toList.dropWhile (· ≠ 0) with
    | nil =>
      have hall := List.dropWhile_eq_nil_iff.mp hdrop 0 h
      simp at hall
    | cons b rest =>
      have hhead := List.head?_dropWhile_not (· ≠ 0) buffer.toList
      rw [hdrop] at hhead
      have hb : b = 0 := by simpa using hhead
      exact ⟨rest, by rw [hb]⟩
  refine ⟨[], stringAt buffer 0, rest, ?_, rfl, CString.noNul _, rfl⟩
  rw [hread, List.nil_append, ← hrest, List.takeWhile_append_dropWhile]

end PsOs.Strtok
