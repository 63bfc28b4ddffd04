import Mathlib.Algebra.BigOperators.Group.List.Basic
import Mathlib.Data.List.Chain
import PsOs.Lines

/-! A stream of lines that is cut into chunks. -/

namespace PsOs.Segmentation

open Lines

def pieces (bytes : List UInt8) : List (List UInt8) := bytes.splitOn newline

def Seam (s t : List UInt8) : Prop := s.getLast? = some newline ∨ t.head? = some newline

instance (s t : List UInt8) : Decidable (Seam s t) := inferInstanceAs (Decidable (_ ∨ _))

variable {s t : List UInt8} {chunk : List UInt8} {chunks : List (List UInt8)}

theorem pieces_newline (s t : List UInt8) : pieces (s ++ newline :: t) = pieces s ++ pieces t :=
  List.splitOn_append_cons_self s t

theorem pieces_eq_cons (s : List UInt8) :
    ∃ behind, pieces s = s.takeWhile (· ≠ newline) :: behind := by
  induction s with
  | nil => exact ⟨[], rfl⟩
  | cons b s ih =>
    obtain ⟨behind, hs⟩ := ih
    have hcons := List.splitOn_cons_eq_if_modifyHead (a := newline) b s
    by_cases hb : b = newline
    · exact ⟨pieces s, by simpa [pieces, hb] using hcons⟩
    · refine ⟨behind, ?_⟩
      rw [show s.splitOn newline = pieces s from rfl, hs] at hcons
      simpa [pieces, hb] using hcons

theorem pieces_content (lines : List Line) :
    pieces (content lines) = lines.map Line.body ++ [[]] := by
  induction lines with
  | nil => rfl
  | cons line lines ih =>
    rw [content_cons, pieces_newline, ih, pieces, List.splitOn_eq_singleton line.noNewline]
    rfl

/-- The pieces on both sides of a seam are those of the whole, except for one that is empty. -/
theorem pieces_seam (h : Seam s t) : ∃ front back, pieces (s ++ t) = front ++ back ∧
    (pieces s = front ++ [[]] ∧ pieces t = back ∨ pieces s = front ∧ pieces t = [] :: back) := by
  rcases h with h | h
  · obtain ⟨s', rfl⟩ := List.getLast?_eq_some_iff.mp h
    refine ⟨pieces s', pieces t, ?_, .inl ⟨pieces_newline s' [], rfl⟩⟩
    rw [List.append_assoc]
    exact pieces_newline s' t
  · obtain ⟨t', rfl⟩ := List.head?_eq_some_iff.mp h
    exact ⟨pieces s, pieces t', pieces_newline s t', .inr ⟨rfl, pieces_newline [] t'⟩⟩

theorem seam_flatten (hne : ∀ c ∈ chunks, c ≠ []) (h : (chunk :: chunks).IsChain Seam) :
    chunks = [] ∨ Seam chunk chunks.flatten := by
  cases chunks with
  | nil => exact .inl rfl
  | cons next chunks =>
    right
    obtain ⟨b, next, rfl⟩ := List.exists_cons_of_ne_nil (hne next List.mem_cons_self)
    rcases (List.isChain_cons_cons.mp h).1 with hlast | hhead
    · exact .inl hlast
    · exact .inr hhead

theorem mem_pieces (hne : ∀ c ∈ chunks, c ≠ []) (h : chunks.IsChain Seam) (hchunk : chunk ∈ chunks)
    {piece : List UInt8} (hpiece : piece ∈ pieces chunk) :
    piece = [] ∨ piece ∈ pieces chunks.flatten := by
  induction chunks with
  | nil => cases hchunk
  | cons first chunks ih =>
    have hrest : ∀ c ∈ chunks, c ≠ [] := fun c hc => hne c (List.mem_cons_of_mem _ hc)
    rw [List.flatten_cons]
    rcases seam_flatten hrest h with rfl | hseam
    · rw [List.mem_singleton.mp hchunk] at hpiece
      right
      simpa using hpiece
    · obtain ⟨front, back, hwhole, hsides⟩ := pieces_seam hseam
      have hside : piece ∈ pieces first ∨ piece = [] ∨ piece ∈ pieces chunks.flatten := by
        rcases List.mem_cons.mp hchunk with rfl | hchunk
        · exact .inl hpiece
        · exact .inr (ih hrest h.tail hchunk)
      rw [hwhole, List.mem_append]
      rcases hsides with ⟨hs, ht⟩ | ⟨hs, ht⟩ <;> rw [hs, ht] at hside <;> grind

section Sums

variable {M : Type} [AddCommMonoid M] {f : List UInt8 → M}

theorem sum_pieces_seam (hf : f [] = 0) (h : Seam s t) :
    ((pieces (s ++ t)).map f).sum = ((pieces s).map f).sum + ((pieces t).map f).sum := by
  obtain ⟨front, back, hwhole, ⟨hs, ht⟩ | ⟨hs, ht⟩⟩ := pieces_seam h <;>
    simp [hwhole, hs, ht, hf]

theorem sum_pieces_flatten (hf : f [] = 0) (hne : ∀ c ∈ chunks, c ≠ []) (h : chunks.IsChain Seam) :
    ((pieces chunks.flatten).map f).sum = (chunks.map fun c => ((pieces c).map f).sum).sum := by
  induction chunks with
  | nil => simp [pieces, hf]
  | cons first chunks ih =>
    have hrest : ∀ c ∈ chunks, c ≠ [] := fun c hc => hne c (List.mem_cons_of_mem _ hc)
    rw [List.flatten_cons, List.map_cons, List.sum_cons]
    rcases seam_flatten hrest h with rfl | hseam
    · simp
    · rw [sum_pieces_seam hf hseam, ih hrest h.tail]

theorem sum_pieces_content (hf : f [] = 0) (lines : List Line) :
    ((pieces (content lines)).map f).sum = (lines.map fun line => f line.body).sum := by
  rw [pieces_content, List.map_append, List.sum_append, List.map_map]
  simp [hf, Function.comp_def]

end Sums

theorem isChain_lines (lines : List Line) : (lines.map Line.bytes).IsChain Seam := by
  induction lines with
  | nil => exact .nil
  | cons line lines ih =>
    cases lines with
    | nil => exact .singleton _
    | cons next lines =>
      exact List.isChain_cons_cons.mpr ⟨.inl (List.getLast?_append_cons ..), ih⟩

end PsOs.Segmentation
