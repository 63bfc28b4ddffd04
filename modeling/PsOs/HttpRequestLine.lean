import PsOs.CharArrays
import PsOs.HttpResponse

/-! `method[16]` and `path[64]` of `handle_client`, from `sscanf` to the last `strcmp`. -/

namespace PsOs.HttpResponse

open CStrings CharArrays

inductive Branch where
  | index
  | donate
  | shutdown
  | notImplemented
  deriving DecidableEq

def firstToken (request : List UInt8) : List UInt8 := (token request).1

def secondToken (request : List UInt8) : List UInt8 := (token (token request).2).1

/-- `sscanf(buffer, "%s %s", method, path)`: a token that is missing is not stored. -/
def sscanf (request : List UInt8) (method path : CharArray) : Option (CharArray × CharArray) :=
  if firstToken request = [] then some (method, path)
  else
    (storeString method 0 (firstToken request)).bind fun method =>
      if secondToken request = [] then some (method, path)
      else (storeString path 0 (secondToken request)).map fun path => (method, path)

def compare (method path : CharArray) (m p : List UInt8) : Option Bool :=
  (strcmpEq method 0 m).bind fun equal => if equal then strcmpEq path 0 p else some false

def branch (method path : CharArray) : Option Branch := do
  if ← compare method path (text "GET") (text "/") then return .index
  if ← compare method path (text "POST") (text "/donate") then return .donate
  if ← compare method path (text "POST") (text "/shutdown") then return .shutdown
  return .notImplemented

def parseRequestLine (received : List UInt8) : Option Branch :=
  (sscanf (requestText received) (unassigned 16) (unassigned 64)).bind fun (method, path) =>
    branch method path

/-- There is a first token, both tokens fit, and only a first token that no branch asks for may
stand alone. -/
structure Parsable (request : List UInt8) : Prop where
  first : firstToken request ≠ []
  firstFits : (firstToken request).length < 16
  secondFits : (secondToken request).length < 64
  alone : secondToken request = [] →
    firstToken request ≠ text "GET" ∧ firstToken request ≠ text "POST"

def branchOf (line : RequestLine) : Branch :=
  if line = ⟨text "GET", text "/"⟩ then .index
  else if line = donateLine then .donate
  else if line = ⟨text "POST", text "/shutdown"⟩ then .shutdown
  else .notImplemented

def Route.branch {D : Type} : Route D → Branch
  | .index => .index
  | .donate _ => .donate
  | .shutdown => .shutdown
  | .other => .notImplemented

section Token

variable {request : List UInt8}

theorem token_noNul (h : 0 ∉ request) : 0 ∉ (token request).1 ∧ 0 ∉ (token request).2 := by
  have hword : 0 ∉ request.dropWhile isSpace := fun hmem =>
    h ((List.dropWhile_sublist _).subset hmem)
  constructor
  · exact fun hmem => hword ((List.takeWhile_sublist _).subset hmem)
  · exact fun hmem => hword ((List.dropWhile_sublist _).subset hmem)

end Token

section Compare

variable {w w' m p : List UInt8}

def assigned (size : ℕ) (w : List UInt8) : CharArray :=
  w.map some ++ some 0 :: (unassigned size).drop (w.length + 1)

theorem storeString_unassigned {size : ℕ} :
    storeString (unassigned size) 0 w = if w.length < size then some (assigned size w) else none := by
  split
  case isTrue hlt => exact storeString_zero (by simpa [unassigned] using hlt)
  case isFalse hge => exact storeString_zero_none (by simpa [unassigned] using hge)

theorem strcmpEq_assigned {size : ℕ} (hw : 0 ∉ w) (hm : 0 ∉ m) :
    strcmpEq (assigned size w) 0 m = some (decide (w = m)) :=
  strcmpEq_front [] hw hm _

theorem compare_assigned (hw : 0 ∉ w) (hw' : 0 ∉ w') (hm : 0 ∉ m) (hp : 0 ∉ p) :
    compare (assigned 16 w) (assigned 64 w') m p = some (decide (w = m ∧ w' = p)) := by
  rw [compare, strcmpEq_assigned hw hm, Option.bind_some, strcmpEq_assigned hw' hp]
  by_cases hwm : w = m <;> simp [hwm]

theorem compare_unassigned (hw : 0 ∉ w) (hm : 0 ∉ m) :
    compare (assigned 16 w) (unassigned 64) m p = if w = m then none else some false := by
  rw [compare, strcmpEq_assigned hw hm, Option.bind_some, strcmpEq_unassigned]
  by_cases hwm : w = m <;> simp [hwm]

theorem branch_assigned (hw : 0 ∉ w) (hw' : 0 ∉ w') :
    branch (assigned 16 w) (assigned 64 w') = some (branchOf ⟨w, w'⟩) := by
  have hget : 0 ∉ text "GET" := by decide
  have hpost : 0 ∉ text "POST" := by decide
  have hindex := compare_assigned hw hw' hget (by decide : 0 ∉ text "/")
  have hdonate := compare_assigned hw hw' hpost (by decide : 0 ∉ text "/donate")
  have hshutdown := compare_assigned hw hw' hpost (by decide : 0 ∉ text "/shutdown")
  simp only [branch, hindex, hdonate, hshutdown, Option.bind_eq_bind, Option.bind_some,
    decide_eq_true_eq, branchOf, donateLine, RequestLine.mk.injEq]
  split_ifs <;> rfl

theorem branch_unassigned (hw : 0 ∉ w) :
    branch (assigned 16 w) (unassigned 64) =
      if w = text "GET" ∨ w = text "POST" then none else some .notImplemented := by
  have hindex := compare_unassigned (p := text "/") hw (by decide : 0 ∉ text "GET")
  have hdonate := compare_unassigned (p := text "/donate") hw (by decide : 0 ∉ text "POST")
  have hshutdown := compare_unassigned (p := text "/shutdown") hw (by decide : 0 ∉ text "POST")
  by_cases hget : w = text "GET"
  · rw [if_pos hget] at hindex
    rw [branch, hindex, if_pos (.inl hget)]
    rfl
  · by_cases hpost : w = text "POST"
    · rw [if_neg hget] at hindex
      rw [if_pos hpost] at hdonate
      rw [branch, hindex, hdonate, if_pos (.inr hpost)]
      rfl
    · rw [if_neg hget] at hindex
      rw [if_neg hpost] at hdonate hshutdown
      rw [branch, hindex, hdonate, hshutdown, if_neg (not_or.mpr ⟨hget, hpost⟩)]
      rfl

theorem branch_nothing (path : CharArray) : branch (unassigned 16) path = none := by
  rw [branch, compare, strcmpEq_unassigned]
  rfl

end Compare

section RequestLine

variable {received : List UInt8}

theorem requestText_noNul (received : List UInt8) : 0 ∉ requestText received :=
  CString.noNul _

theorem parseRequestLine_eq {w w' : List UInt8} (hfirst : firstToken (requestText received) = w)
    (hsecond : secondToken (requestText received) = w') :
    parseRequestLine received =
      if w = [] ∨ 16 ≤ w.length then none
      else if w' = [] then
        if w = text "GET" ∨ w = text "POST" then none else some .notImplemented
      else if 64 ≤ w'.length then none
      else some (branchOf ⟨w, w'⟩) := by
  obtain ⟨hw, hrest⟩ := token_noNul (requestText_noNul received)
  obtain ⟨hw', -⟩ := token_noNul hrest
  rw [← firstToken, hfirst] at hw
  rw [← secondToken, hsecond] at hw'
  simp only [parseRequestLine, sscanf, hfirst, hsecond, storeString_unassigned]
  by_cases hempty : w = []
  · rw [if_pos hempty, if_pos (.inl hempty)]
    exact branch_nothing _
  · by_cases hfits : w.length < 16
    · have hnot : ¬ (w = [] ∨ 16 ≤ w.length) := not_or.mpr ⟨hempty, not_le.mpr hfits⟩
      rw [if_neg hempty, if_pos hfits, if_neg hnot, Option.bind_some]
      by_cases halone : w' = []
      · rw [if_pos halone, if_pos halone]
        exact branch_unassigned hw
      · by_cases hfits' : w'.length < 64
        · rw [if_neg halone, if_neg halone, if_pos hfits', if_neg (not_le.mpr hfits')]
          exact branch_assigned hw hw'
        · rw [if_neg halone, if_neg halone, if_neg hfits', if_pos (not_lt.mp hfits')]
          rfl
    · have hlong : w = [] ∨ 16 ≤ w.length := .inr (not_lt.mp hfits)
      rw [if_neg hempty, if_neg hfits, if_pos hlong]
      rfl

theorem route_branch {D : Type} (fp : Doubles D) (request : List UInt8) (line : RequestLine) :
    (route fp request line).branch = branchOf line := by
  unfold route branchOf
  split_ifs <;> rfl

theorem parseRequestLine_of_requestLine {D : Type} (fp : Doubles D) {line : RequestLine}
    (h : requestLine (requestText received) = some line) :
    parseRequestLine received = some (route fp (requestText received) line).branch := by
  have hline : (if firstToken (requestText received) ≠ [] ∧ secondToken (requestText received) ≠ [] ∧
      (firstToken (requestText received)).length < 16 ∧
        (secondToken (requestText received)).length < 64 then
      some ⟨firstToken (requestText received), secondToken (requestText received)⟩
    else none) = some line := h
  rw [route_branch, parseRequestLine_eq rfl rfl]
  split at hline
  case isTrue hfits =>
    obtain ⟨hfirst, hsecond, hlt, hlt'⟩ := hfits
    rw [if_neg (not_or.mpr ⟨hfirst, not_le.mpr hlt⟩), if_neg hsecond, if_neg (not_le.mpr hlt'),
      Option.some.inj hline]
  case isFalse => cases hline

theorem parseRequestLine_isSome_iff (received : List UInt8) :
    (parseRequestLine received).isSome = true ↔ Parsable (requestText received) := by
  rw [parseRequestLine_eq rfl rfl]
  constructor
  · intro h
    split_ifs at h with hfirst hsecond halone hlong
    · cases h
    · cases h
    · rw [not_or, not_le] at hfirst
      rw [not_or] at halone
      exact ⟨hfirst.1, hfirst.2, by simp [hsecond], fun _ => halone⟩
    · cases h
    · rw [not_or, not_le] at hfirst
      exact ⟨hfirst.1, hfirst.2, not_le.mp hlong, fun hnil => absurd hnil hsecond⟩
  · intro h
    rw [if_neg (not_or.mpr ⟨h.first, not_le.mpr h.firstFits⟩)]
    split_ifs with hsecond halone hlong
    · exact absurd halone (not_or.mpr (h.alone hsecond))
    · rfl
    · exact absurd h.secondFits (not_lt.mpr hlong)
    · rfl

theorem parseRequestLine_unsafe : parseRequestLine [] = none ∧
    parseRequestLine (text "PROPFINDPROPPATCH / HTTP/1.1") = none ∧
    parseRequestLine (text "GET /" ++ List.replicate 63 97) = none := by
  refine ⟨?_, ?_, ?_⟩ <;> decide +kernel

end RequestLine

end PsOs.HttpResponse
