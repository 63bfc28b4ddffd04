import Mathlib.Tactic.IntervalCases
import PsOs.CStrings

/-!
`exercise10/task3`: the plugins of `map_string` and the loop that runs a chain of them.
`main` gets its strings from `argv`, so they are far below the range of the `int` indices.
-/

namespace PsOs.Plugins

open CStrings

def caesarByte (c : UInt8) : UInt8 :=
  if ('a'.toUInt8 ≤ c ∧ c ≤ 'z'.toUInt8) ∨ ('A'.toUInt8 ≤ c ∧ c ≤ 'Z'.toUInt8) then
    let base := if 'a'.toUInt8 ≤ c then 'a'.toUInt8 else 'A'.toUInt8
    (c - base + 13) % 26 + base
  else c

def caesarCipher (input : CString) : List UInt8 := mapInPlace caesarByte input.toBuffer

def xorString (input : CString) : List UInt8 := mapInPlace (· ^^^ 0x20) input.toBuffer

def reverseString (input : CString) : List UInt8 :=
  (List.range input.length).map (fun i => input.bytes.getD (input.length - 1 - i) 0) ++ [0]

inductive Library where
  | notFound
  | noTransform
  | plugin (transform : CString → Option (List UInt8))

inductive Line (π : Type) where
  | result (path : π) (s : CString)
  | errorLoading (path : π)
  | errorFinding (path : π)
  | errorIn (path : π)

/-- The loop of `map_string.c`: its output, and the last string unless `main` returned 1. -/
def mapString {π : Type} (dlopen : π → Library) (s : CString) :
    List π → List (Line π) × Option CString
  | [] => ([], some s)
  | path :: paths =>
    match dlopen path with
    | .notFound => ([.errorLoading path], none)
    | .noTransform => ([.errorFinding path], none)
    | .plugin transform =>
      match transform s with
      | none => ([.errorIn path], none)
      | some newResult =>
        let rest := mapString dlopen (.read newResult) paths
        (.result path (.read newResult) :: rest.1, rest.2)

inductive Plugin where
  | caesarCipher
  | xorString
  | reverseString
  deriving DecidableEq

def Plugin.transform : Plugin → CString → List UInt8
  | .caesarCipher => Plugins.caesarCipher
  | .xorString => Plugins.xorString
  | .reverseString => Plugins.reverseString

def Plugin.library (p : Plugin) : Library := .plugin fun s => some (p.transform s)

def Plugin.apply (p : Plugin) (s : CString) : CString := .read (p.transform s)

def chain (s : CString) (ps : List Plugin) : CString := ps.foldl (fun r p => p.apply r) s

theorem mapString_library (s : CString) (ps : List Plugin) :
    (mapString Plugin.library s ps).2 = some (chain s ps) := by
  induction ps generalizing s with
  | nil => rfl
  | cons p ps ih => exact ih (p.apply s)

theorem caesarByte_caesarByte (c : UInt8) : caesarByte (caesarByte c) = c := by
  have hall : ∀ n < 256, caesarByte (caesarByte (UInt8.ofNat n)) = UInt8.ofNat n := by
    decide +kernel
  simpa using hall c.toNat c.toNat_lt

theorem caesarByte_eq_iff (c : UInt8) {b : UInt8} (hb : caesarByte b = b) :
    caesarByte c = b ↔ c = b := by
  constructor
  · intro h
    rw [← caesarByte_caesarByte c, h, hb]
  · rintro rfl
    exact hb

theorem xorByte_xorByte (c : UInt8) : c ^^^ 0x20 ^^^ 0x20 = c := by
  rw [UInt8.xor_assoc, UInt8.xor_self, UInt8.xor_zero]

theorem xorByte_eq_zero_iff (c : UInt8) : c ^^^ 0x20 = 0 ↔ c = 0x20 := UInt8.xor_eq_zero_iff

theorem caesarCipher_bytes (s : CString) :
    (Plugin.caesarCipher.apply s).bytes = s.bytes.map caesarByte := by
  simp only [Plugin.apply, Plugin.transform, caesarCipher, mapInPlace_toBuffer]
  apply read_map_of_noNul
  intro b hb h
  exact s.noNul ((caesarByte_eq_iff b (by decide)).mp h ▸ hb)

theorem reverseString_bytes (s : CString) :
    (Plugin.reverseString.apply s).bytes = s.bytes.reverse := by
  have hcopy : (List.range s.length).map (fun i => s.bytes.getD (s.length - 1 - i) 0) =
      s.bytes.reverse := by
    apply List.ext_getElem
    · simp [CString.length]
    · intro i hi _
      simp only [List.length_map, List.length_range, CString.length] at hi
      have hback : s.bytes.length - 1 - i < s.bytes.length := by omega
      simp only [List.getElem_map, List.getElem_range, List.getElem_reverse, CString.length]
      simp [List.getD_eq_getElem?_getD, List.getElem?_eq_getElem hback]
  simp only [Plugin.apply, Plugin.transform, reverseString, hcopy]
  rw [CString.read_append (by simpa using s.noNul), CString.read_cons_nul, List.append_nil]

theorem xorString_bytes {s : CString} (hs : 0x20 ∉ s.bytes) :
    (Plugin.xorString.apply s).bytes = s.bytes.map (· ^^^ 0x20) := by
  simp only [Plugin.apply, Plugin.transform, xorString, mapInPlace_toBuffer]
  apply read_map_of_noNul
  intro b hb h
  exact hs ((xorByte_eq_zero_iff b).mp h ▸ hb)

theorem xorString_length_lt {s : CString} (hs : 0x20 ∈ s.bytes) :
    (Plugin.xorString.apply s).length < s.length := by
  simp only [Plugin.apply, Plugin.transform, xorString, mapInPlace_toBuffer]
  exact read_map_length_lt hs (by decide)

theorem apply_length_le (p : Plugin) (s : CString) : (p.apply s).length ≤ s.length := by
  cases p with
  | caesarCipher => simp [CString.length, caesarCipher_bytes]
  | reverseString => simp [CString.length, reverseString_bytes]
  | xorString =>
    simp only [Plugin.apply, Plugin.transform, xorString, mapInPlace_toBuffer]
    exact read_map_length_le _ _

theorem space_mem_apply_iff {p : Plugin} (hp : p ≠ .xorString) (s : CString) :
    0x20 ∈ (p.apply s).bytes ↔ 0x20 ∈ s.bytes := by
  cases p with
  | caesarCipher =>
    have hspace : caesarByte 0x20 = 0x20 := by decide
    simp [caesarCipher_bytes, caesarByte_eq_iff _ hspace]
  | reverseString => simp [reverseString_bytes]
  | xorString => exact absurd rfl hp

theorem space_not_mem_xor {s : CString} (hs : 0x20 ∉ s.bytes) :
    0x20 ∉ (Plugin.xorString.apply s).bytes := by
  rw [xorString_bytes hs]
  intro h
  obtain ⟨b, hb, he⟩ := List.mem_map.mp h
  have hb0 : b = 0 := by
    rw [← xorByte_xorByte b, he, UInt8.xor_self]
  exact s.noNul (hb0 ▸ hb)

theorem space_not_mem_apply (p : Plugin) {s : CString} (hs : 0x20 ∉ s.bytes) :
    0x20 ∉ (p.apply s).bytes := by
  by_cases hp : p = .xorString
  · subst hp
    exact space_not_mem_xor hs
  · exact mt (space_mem_apply_iff hp s).mp hs

theorem apply_apply {p : Plugin} {s : CString} (h : p = .xorString → 0x20 ∉ s.bytes) :
    p.apply (p.apply s) = s := by
  apply CString.ext
  cases p with
  | caesarCipher => simp [caesarCipher_bytes, Function.comp_def, caesarByte_caesarByte]
  | reverseString => simp [reverseString_bytes]
  | xorString =>
    have hs := h rfl
    simp only [xorString_bytes (space_not_mem_xor hs), xorString_bytes hs, List.map_map,
      Function.comp_def, xorByte_xorByte, List.map_id_fun', id_eq]

theorem chain_length_le (s : CString) (ps : List Plugin) : (chain s ps).length ≤ s.length := by
  induction ps generalizing s with
  | nil => exact le_rfl
  | cons p ps ih => exact (ih _).trans (apply_length_le p s)

theorem chain_length_lt {s : CString} {ps : List Plugin} (hs : 0x20 ∈ s.bytes)
    (hps : .xorString ∈ ps) : (chain s ps).length < s.length := by
  induction ps generalizing s with
  | nil => cases hps
  | cons p ps ih =>
    by_cases hp : p = .xorString
    · subst hp
      exact (chain_length_le _ ps).trans_lt (xorString_length_lt hs)
    · have hmem : .xorString ∈ ps := by
        rcases List.mem_cons.mp hps with h | h
        · exact absurd h.symm hp
        · exact h
      exact (ih ((space_mem_apply_iff hp s).mpr hs) hmem).trans_le (apply_length_le p s)

theorem chain_reverse {s : CString} {ps : List Plugin}
    (h : 0x20 ∉ s.bytes ∨ .xorString ∉ ps) : chain (chain s ps) ps.reverse = s := by
  induction ps generalizing s with
  | nil => rfl
  | cons p ps ih =>
    have hrest : 0x20 ∉ (p.apply s).bytes ∨ .xorString ∉ ps := by
      rcases h with hs | hps
      · exact .inl (space_not_mem_apply p hs)
      · exact .inr fun hmem => hps (List.mem_cons_of_mem _ hmem)
    have hp : p = .xorString → 0x20 ∉ s.bytes := by
      rintro rfl
      exact h.resolve_right fun hps => hps List.mem_cons_self
    calc chain (chain s (p :: ps)) (p :: ps).reverse
        = p.apply (chain (chain (p.apply s) ps) ps.reverse) := by
          simp [chain, List.foldl_append]
      _ = p.apply (p.apply s) := by rw [ih hrest]
      _ = s := apply_apply hp

/-- Running a chain and then its reverse gives the string back exactly when no `xor_string`
can meet a space, whose image is the terminator. -/
theorem mapString_reverse_iff (s : CString) (ps : List Plugin) :
    ((mapString Plugin.library s ps).2.bind fun t =>
        (mapString Plugin.library t ps.reverse).2) = some s ↔
      0x20 ∉ s.bytes ∨ .xorString ∉ ps := by
  simp only [mapString_library, Option.bind_some, Option.some.injEq]
  constructor
  · intro h
    by_contra hcon
    obtain ⟨hs, hps⟩ := not_or.mp hcon
    have hlt := chain_length_lt (not_not.mp hs) (not_not.mp hps)
    have hle := chain_length_le (chain s ps) ps.reverse
    rw [h] at hle
    omega
  · exact chain_reverse

theorem mapString_space_lost :
    ((mapString Plugin.library ⟨[97, 32, 98], by decide⟩ [.xorString]).2.bind fun t =>
        (mapString Plugin.library t [.xorString]).2) ≠ some ⟨[97, 32, 98], by decide⟩ := by
  decide

end PsOs.Plugins
