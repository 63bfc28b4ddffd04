import PsOs.DonationServer
import PsOs.Segmentation

/-!
The server takes the first line of each read, wherever the stream of the lines is cut. The numbers
are exact here.
-/

namespace PsOs.DonationServer

open CStrings Lines Segmentation Strtod TransitionSystems

def added (msg : List UInt8) : Amount :=
  let number := strtod (msg.takeWhile (· ≠ 0))
  if number.2 = [] then number.1 else 0

structure Stream where
  lines : List Line
  short : ∀ line ∈ lines, line.body.length < MAX_BUFFER
  noShutdown : ∀ line ∈ lines, ¬ shutdownCommand <+: line.body

def Stream.sum (stream : Stream) : Amount := (stream.lines.map fun line => added line.body).sum

structure Read where
  received : List UInt8
  beyond : List UInt8

def Read.action (r : Read) : Action := .read r.received r.beyond

structure Reads (stream : Stream) where
  reads : List Read
  flatten : (reads.map Read.received).flatten = content stream.lines
  nonempty : ∀ r ∈ reads, r.received ≠ []
  size_le : ∀ r ∈ reads, r.received.length ≤ MAX_BUFFER

variable {stream : Stream} {s : Server}

def Reads.chunks (reads : Reads stream) : List (List UInt8) := reads.reads.map Read.received

def Stream.lineReads (stream : Stream) (beyond : List UInt8) : List Read :=
  stream.lines.map fun line => ⟨line.bytes, beyond⟩

theorem lineReads_received (stream : Stream) (beyond : List UInt8) :
    (stream.lineReads beyond).map Read.received = stream.lines.map Line.bytes :=
  List.map_map ..

theorem lineReads_flatten (stream : Stream) (beyond : List UInt8) :
    ((stream.lineReads beyond).map Read.received).flatten = content stream.lines := by
  rw [lineReads_received, content, List.flatMap_def]

theorem lineReads_nonempty (stream : Stream) (beyond : List UInt8) :
    ∀ r ∈ stream.lineReads beyond, r.received ≠ [] := by
  intro r hr
  obtain ⟨line, -, rfl⟩ := List.mem_map.mp hr
  simp [Line.bytes]

theorem lineReads_size_le (stream : Stream) (beyond : List UInt8) :
    ∀ r ∈ stream.lineReads beyond, r.received.length ≤ MAX_BUFFER := by
  intro r hr
  obtain ⟨line, hline, rfl⟩ := List.mem_map.mp hr
  have hshort := stream.short line hline
  simp only [Line.bytes, List.length_append, List.length_singleton]
  omega

def Stream.lineByLine (stream : Stream) (beyond : List UInt8) : Reads stream :=
  ⟨stream.lineReads beyond, lineReads_flatten stream beyond, lineReads_nonempty stream beyond,
    lineReads_size_le stream beyond⟩

def Totals (s : Server) (reads : Reads stream) : Prop :=
  ∃ t, run (step id) s (reads.reads.map Read.action) = some t ∧ t.donations = s.donations + stream.sum

/-- No line is cut, and those behind the first newline of a read add nothing. -/
structure Whole (chunks : List (List UInt8)) : Prop where
  seams : chunks.IsChain Seam
  silent : ∀ chunk ∈ chunks, ∀ piece ∈ (pieces chunk).tail, added piece = 0

theorem added_nil : added [] = 0 := rfl

theorem message_mem_pieces (received : List UInt8) : message received ∈ pieces received := by
  obtain ⟨rest, hpieces⟩ := pieces_eq_cons received
  rw [hpieces]
  exact List.mem_cons_self

theorem read_adds {r : Read} (hpc : s.pc = .read) (hne : r.received ≠ [])
    (hsize : r.received.length ≤ MAX_BUFFER)
    (hend : r.received.length < MAX_BUFFER ∨ newline ∈ r.received)
    (hcommand : ¬ shutdownCommand <+: message r.received) :
    ∃ t, step id s r.action = some t ∧ t.pc = .read ∧
      t.donations = s.donations + added (message r.received) := by
  have hstep : step id s r.action = some (s.handle id r.received r.beyond) := by
    simp [step, Read.action, hpc, hne, hsize]
  refine ⟨_, hstep, ?_⟩
  rw [handle_eq s hend (not_shutdown hend hcommand r.beyond)]
  have hvisible : (message r.received).takeWhile (· ≠ 0) = visible r.received := rfl
  simp only [added, hvisible]
  by_cases hnumber : (strtod (visible r.received)).2 = []
  · simp [hnumber, Server.answer, hpc]
  · simp [hnumber, Server.answer, hpc]

theorem run_adds {reads : List Read} (hpc : s.pc = .read)
    (h : ∀ r ∈ reads, r.received ≠ [] ∧ r.received.length ≤ MAX_BUFFER ∧
      (r.received.length < MAX_BUFFER ∨ newline ∈ r.received) ∧
        ¬ shutdownCommand <+: message r.received) :
    ∃ t, run (step id) s (reads.map Read.action) = some t ∧
      t.donations = s.donations + (reads.map fun r => added (message r.received)).sum := by
  induction reads generalizing s with
  | nil => exact ⟨s, rfl, (add_zero _).symm⟩
  | cons r reads ih =>
    obtain ⟨hne, hsize, hend, hcommand⟩ := h r List.mem_cons_self
    obtain ⟨u, hu, hread, hadded⟩ := read_adds hpc hne hsize hend hcommand
    obtain ⟨t, ht, hsum⟩ := ih hread fun x hx => h x (List.mem_cons_of_mem _ hx)
    refine ⟨t, ?_, ?_⟩
    · rw [List.map_cons, run, hu, Option.bind_some, ht]
    · rw [hsum, hadded, List.map_cons, List.sum_cons, add_assoc]

namespace Reads

variable (reads : Reads stream)

theorem chunks_ne_nil : ∀ c ∈ reads.chunks, c ≠ [] := by
  intro c hc
  obtain ⟨r, hr, rfl⟩ := List.mem_map.mp hc
  exact reads.nonempty r hr

def behind : Amount := (reads.chunks.map fun c => ((pieces c).tail.map added).sum).sum

theorem piece_of_seams (hseams : reads.chunks.IsChain Seam) {chunk piece : List UInt8}
    (hchunk : chunk ∈ reads.chunks) (hpiece : piece ∈ pieces chunk) :
    piece = [] ∨ ∃ line ∈ stream.lines, piece = line.body := by
  have hmem := mem_pieces reads.chunks_ne_nil hseams hchunk hpiece
  rw [show reads.chunks.flatten = _ from reads.flatten, pieces_content] at hmem
  rcases hmem with hnil | hmem
  · exact .inl hnil
  · rcases List.mem_append.mp hmem with hmem | hmem
    · obtain ⟨line, hline, heq⟩ := List.mem_map.mp hmem
      exact .inr ⟨line, hline, heq.symm⟩
    · exact .inl (List.mem_singleton.mp hmem)

theorem run_of_seams (hseams : reads.chunks.IsChain Seam) (hpc : s.pc = .read) :
    ∃ t, run (step id) s (reads.reads.map Read.action) = some t ∧
      t.donations = s.donations + (reads.reads.map fun r => added (message r.received)).sum := by
  apply run_adds hpc
  intro r hr
  have hmessage := reads.piece_of_seams hseams (List.mem_map_of_mem hr) (message_mem_pieces _)
  refine ⟨reads.nonempty r hr, reads.size_le r hr, ?_, ?_⟩
  · by_cases hnewline : newline ∈ r.received
    · exact .inr hnewline
    · left
      have hall : message r.received = r.received := by
        apply List.takeWhile_eq_self_iff.mpr
        intro b hb
        apply decide_eq_true
        rintro rfl
        exact hnewline hb
      rw [hall] at hmessage
      obtain ⟨line, hline, hbody⟩ := hmessage.resolve_left (reads.nonempty r hr)
      rw [hbody]
      exact stream.short line hline
  · rcases hmessage with hnil | ⟨line, hline, hbody⟩
    · rw [hnil]
      decide
    · rw [hbody]
      exact stream.noShutdown line hline

theorem sum_of_seams (hseams : reads.chunks.IsChain Seam) :
    stream.sum = (reads.reads.map fun r => added (message r.received)).sum + reads.behind := by
  have hsum := sum_pieces_flatten added_nil reads.chunks_ne_nil hseams
  rw [show reads.chunks.flatten = _ from reads.flatten, sum_pieces_content added_nil] at hsum
  have hhead : ∀ c, ((pieces c).map added).sum =
      added (message c) + ((pieces c).tail.map added).sum := by
    intro c
    obtain ⟨rest, hc⟩ := pieces_eq_cons c
    rw [hc]
    rfl
  simp only [hhead, List.sum_map_add] at hsum
  rw [Stream.sum, hsum, behind, chunks, List.map_map, List.map_map]
  rfl

theorem totals_iff (hseams : reads.chunks.IsChain Seam) (hpc : s.pc = .read) :
    Totals s reads ↔
      s.donations + (reads.reads.map fun r => added (message r.received)).sum =
        s.donations + ((reads.reads.map fun r => added (message r.received)).sum + reads.behind) := by
  obtain ⟨t, ht, hdonations⟩ := reads.run_of_seams hseams hpc
  rw [Totals, reads.sum_of_seams hseams]
  constructor
  · rintro ⟨t', ht', hdonations'⟩
    cases ht.symm.trans ht'
    rw [← hdonations, hdonations']
  · intro heq
    exact ⟨t, ht, hdonations.trans heq⟩

theorem totals_of_whole (h : Whole reads.chunks) (hpc : s.pc = .read) : Totals s reads := by
  have hzero : reads.behind = 0 := by
    apply List.sum_eq_zero
    intro a ha
    obtain ⟨c, hc, rfl⟩ := List.mem_map.mp ha
    apply List.sum_eq_zero
    intro b hb
    obtain ⟨piece, hpiece, rfl⟩ := List.mem_map.mp hb
    exact h.silent c hc piece hpiece
  rw [reads.totals_iff h.seams hpc, hzero, add_zero]

theorem whole_of_totals (hseams : reads.chunks.IsChain Seam)
    (hlines : ∀ line ∈ stream.lines, (added line.body).Nonneg) {p : ℚ}
    (hp : s.donations = .finite p) (hpc : s.pc = .read) (h : Totals s reads) :
    Whole reads.chunks := by
  have hpiece : ∀ c ∈ reads.chunks, ∀ piece ∈ pieces c, (added piece).Nonneg := by
    intro c hc piece hpiece
    rcases reads.piece_of_seams hseams hc hpiece with rfl | ⟨line, hline, rfl⟩
    · exact .zero
    · exact hlines line hline
  have htail : ∀ c ∈ reads.chunks, ∀ a ∈ (pieces c).tail.map added, a.Nonneg := by
    intro c hc a ha
    obtain ⟨piece, hmem, rfl⟩ := List.mem_map.mp ha
    exact hpiece c hc piece (List.mem_of_mem_tail hmem)
  have hhead : (reads.reads.map fun r => added (message r.received)).sum.Nonneg := by
    apply Amount.Nonneg.sum
    intro a ha
    obtain ⟨r, hr, rfl⟩ := List.mem_map.mp ha
    exact hpiece r.received (List.mem_map_of_mem hr) _ (message_mem_pieces _)
  have hsums : ∀ a ∈ reads.chunks.map fun c => ((pieces c).tail.map added).sum, a.Nonneg := by
    intro a ha
    obtain ⟨c, hc, rfl⟩ := List.mem_map.mp ha
    exact .sum (htail c hc)
  rw [reads.totals_iff hseams hpc, hp] at h
  have hbehind := hhead.eq_zero_of_add_eq (.sum hsums) h.symm
  refine ⟨hseams, ?_⟩
  intro c hc piece hmem
  have hsum := Amount.Nonneg.eq_zero_of_sum hsums hbehind _ (List.mem_map_of_mem hc)
  exact Amount.Nonneg.eq_zero_of_sum (htail c hc) hsum _ (List.mem_map_of_mem hmem)

end Reads

theorem whole_lineByLine (stream : Stream) (beyond : List UInt8) :
    Whole (stream.lineByLine beyond).chunks := by
  have hchunks : (stream.lineByLine beyond).chunks = stream.lines.map Line.bytes :=
    lineReads_received stream beyond
  rw [hchunks]
  refine ⟨isChain_lines _, ?_⟩
  intro c hc piece hpiece
  obtain ⟨line, -, rfl⟩ := List.mem_map.mp hc
  have hpieces := pieces_content [line]
  rw [show content [line] = line.bytes from List.append_nil _] at hpieces
  rw [hpieces] at hpiece
  rw [List.mem_singleton.mp hpiece, added_nil]

theorem totals_iff_whole (stream : Stream) (reads : Reads stream) (s : Server)
    (hpc : s.pc = .read) :
    (∀ beyond, Totals s (stream.lineByLine beyond)) ∧ (Whole reads.chunks → Totals s reads) ∧
      (reads.chunks.IsChain Seam → (∀ line ∈ stream.lines, (added line.body).Nonneg) →
        ∀ p, s.donations = .finite p → (Totals s reads ↔ Whole reads.chunks)) := by
  refine ⟨?_, fun h => reads.totals_of_whole h hpc, ?_⟩
  · intro beyond
    exact (stream.lineByLine beyond).totals_of_whole (whole_lineByLine stream beyond) hpc
  · intro hseams hlines p hp
    exact ⟨reads.whole_of_totals hseams hlines hp hpc, fun h => reads.totals_of_whole h hpc⟩

def fortyTwo : Stream where
  lines := [⟨text "40", by decide⟩, ⟨text "2", by decide⟩]
  short := by decide
  noShutdown := by decide

def together : Reads fortyTwo where
  reads := [⟨text "40\n2\n", []⟩]
  flatten := by decide
  nonempty := by decide
  size_le := by decide

def apart : Reads fortyTwo where
  reads := [⟨text "4", []⟩, ⟨text "0\n2\n", []⟩]
  flatten := by decide
  nonempty := by decide
  size_le := by decide

def beforeNewline : Reads fortyTwo where
  reads := [⟨text "40", []⟩, ⟨text "\n", []⟩, ⟨text "2\n", []⟩]
  flatten := by decide
  nonempty := by decide
  size_le := by decide

theorem fortyTwo_nonneg : ∀ line ∈ fortyTwo.lines, (added line.body).Nonneg := by
  intro line hline
  rcases List.mem_pair.mp hline with rfl | rfl
  · exact ⟨40, by decide +kernel, by decide +kernel⟩
  · exact ⟨2, by decide +kernel, by decide +kernel⟩

theorem totals_iff_whole_fortyTwo :
    Totals (asked 0) (fortyTwo.lineByLine []) ∧ Totals (asked 0) beforeNewline ∧
      (Totals (asked 0) together ↔ Whole together.chunks) :=
  ⟨(totals_iff_whole fortyTwo together (asked 0) rfl).1 [],
    (totals_iff_whole fortyTwo beforeNewline (asked 0) rfl).2.1 ⟨by decide, by decide +kernel⟩,
    (totals_iff_whole fortyTwo together (asked 0) rfl).2.2 (by decide) fortyTwo_nonneg 0 rfl⟩

theorem two_lost : ¬ Totals (asked 0) together ∧ ¬ Totals (asked 0) apart ∧
    fortyTwo.sum = .finite 42 := by
  have htogether : (run (step id) (asked 0) (together.reads.map Read.action)).map Server.donations =
      some (.finite 40) := by decide +kernel
  have hapart : (run (step id) (asked 0) (apart.reads.map Read.action)).map Server.donations =
      some (.finite 4) := by decide +kernel
  have hsum : fortyTwo.sum = .finite 42 := by decide +kernel
  refine ⟨?_, ?_, hsum⟩
  · rintro ⟨t, ht, hdonations⟩
    rw [ht, Option.map_some, hdonations, hsum] at htogether
    exact absurd htogether (by decide +kernel)
  · rintro ⟨t, ht, hdonations⟩
    rw [ht, Option.map_some, hdonations, hsum] at hapart
    exact absurd hapart (by decide +kernel)

end PsOs.DonationServer
