import Mathlib.Data.List.Basic
import Mathlib.Data.UInt

/-! Lines that end with a newline, and the text that they make. -/

namespace PsOs.Lines

def newline : UInt8 := 10

@[ext]
structure Line where
  body : List UInt8
  noNewline : newline ∉ body
  deriving DecidableEq

def Line.bytes (line : Line) : List UInt8 := line.body ++ [newline]

def content (lines : List Line) : List UInt8 := lines.flatMap Line.bytes

variable {lines lines' : List Line} {line line' : Line}

theorem content_cons (line : Line) (lines : List Line) :
    content (line :: lines) = line.body ++ newline :: content lines := by
  simp [content, Line.bytes]

theorem content_append (lines lines' : List Line) :
    content (lines ++ lines') = content lines ++ content lines' :=
  List.flatMap_append

theorem content_eq_nil : content lines = [] ↔ lines = [] := by
  cases lines with
  | nil => simp [content]
  | cons line lines => simp [content_cons]

theorem takeWhile_line (line : Line) (rest : List UInt8) :
    (line.body ++ newline :: rest).takeWhile (· ≠ newline) = line.body := by
  have hall : ∀ b ∈ line.body, decide (b ≠ newline) = true := by
    intro b hb
    apply decide_eq_true
    rintro rfl
    exact line.noNewline hb
  rw [List.takeWhile_append_of_pos hall, List.takeWhile_cons_of_neg (by simp), List.append_nil]

theorem cons_of_prefix {rest : List UInt8} (h : line.body ++ newline :: rest <+: content lines') :
    ∃ lines'', lines' = line :: lines'' ∧ rest <+: content lines'' := by
  cases lines' with
  | nil =>
    have hnil := List.prefix_nil.mp h
    simp at hnil
  | cons line' lines'' =>
    rw [content_cons] at h
    obtain ⟨tail, htail⟩ := h
    rw [List.append_assoc, List.cons_append] at htail
    have hbody := congrArg (List.takeWhile (· ≠ newline)) htail
    rw [takeWhile_line, takeWhile_line] at hbody
    rw [hbody] at htail
    have hrest := List.append_cancel_left htail
    exact ⟨lines'', congrArg (· :: lines'') (Line.ext hbody.symm), tail, (List.cons.inj hrest).2⟩

theorem bytes_prefix {rest : List UInt8} : line'.bytes <+: line.bytes ++ rest ↔ line = line' := by
  constructor
  · rintro ⟨tail, htail⟩
    simp only [Line.bytes, List.append_assoc, List.singleton_append] at htail
    have hbody := congrArg (List.takeWhile (· ≠ newline)) htail
    rw [takeWhile_line, takeWhile_line] at hbody
    exact Line.ext hbody.symm
  · rintro rfl
    exact List.prefix_append _ _

theorem prefix_of_content_prefix (h : content lines <+: content lines') : lines <+: lines' := by
  induction lines generalizing lines' with
  | nil => exact List.nil_prefix
  | cons line lines ih =>
    rw [content_cons] at h
    obtain ⟨lines'', rfl, hrest⟩ := cons_of_prefix h
    exact List.cons_prefix_cons.mpr ⟨rfl, ih hrest⟩

end PsOs.Lines
