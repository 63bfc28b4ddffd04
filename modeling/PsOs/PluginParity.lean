import PsOs.CommutingInvolutions
import PsOs.Plugins

namespace PsOs.Plugins

open CommutingInvolutions CStrings

abbrev Spaceless := {s : CString // 0x20 ∉ s.bytes}

def act (s : Spaceless) (p : Plugin) : Spaceless := ⟨p.apply s.val, space_not_mem_apply p s.property⟩

theorem caesarByte_xorByte (c : UInt8) : caesarByte (c ^^^ 0x20) = caesarByte c ^^^ 0x20 := by
  have hall : ∀ n < 256, caesarByte (UInt8.ofNat n ^^^ 0x20) = caesarByte (UInt8.ofNat n) ^^^ 0x20 := by
    decide +kernel
  simpa using hall c.toNat c.toNat_lt

/-- What a plugin is for, on the characters of a string without spaces. -/
def Plugin.effect : Plugin → List UInt8 → List UInt8
  | .caesarCipher => List.map caesarByte
  | .xorString => List.map (· ^^^ 0x20)
  | .reverseString => List.reverse

theorem xor_bytes (s : Spaceless) : (act s .xorString).val.bytes = s.val.bytes.map (· ^^^ 0x20) :=
  xorString_bytes s.property

theorem caesar_bytes (s : Spaceless) :
    (act s .caesarCipher).val.bytes = s.val.bytes.map caesarByte := caesarCipher_bytes s.val

theorem reverse_bytes (s : Spaceless) : (act s .reverseString).val.bytes = s.val.bytes.reverse :=
  reverseString_bytes s.val

theorem act_comm (s : Spaceless) (p q : Plugin) : act (act s p) q = act (act s q) p := by
  apply Subtype.ext
  apply CString.ext
  cases p <;> cases q <;>
    simp [xor_bytes, caesar_bytes, reverse_bytes, Function.comp_def, caesarByte_xorByte]

theorem commuting_act : Commuting act where
  involutive s _ := Subtype.ext (apply_apply fun _ => s.property)
  commute := act_comm

theorem foldl_act (s : Spaceless) (ps : List Plugin) : (ps.foldl act s).val = chain s.val ps := by
  induction ps generalizing s with
  | nil => rfl
  | cons p ps ih => exact ih (act s p)

theorem act_bytes (s : Spaceless) (p : Plugin) : (act s p).val.bytes = p.effect s.val.bytes := by
  cases p with
  | caesarCipher => exact caesar_bytes s
  | xorString => exact xor_bytes s
  | reverseString => exact reverse_bytes s

theorem foldl_act_bytes (s : Spaceless) (ps : List Plugin) :
    (ps.foldl act s).val.bytes = ps.foldl (fun bytes p => p.effect bytes) s.val.bytes := by
  induction ps generalizing s with
  | nil => rfl
  | cons p ps ih =>
    rw [List.foldl_cons, List.foldl_cons, ← act_bytes]
    exact ih (act s p)

theorem act_length (s : Spaceless) (p : Plugin) : (act s p).val.length = s.val.length := by
  unfold CString.length
  cases p <;> simp [xor_bytes, caesar_bytes, reverse_bytes]

theorem foldl_act_length (s : Spaceless) (ps : List Plugin) :
    (ps.foldl act s).val.length = s.val.length := by
  induction ps generalizing s with
  | nil => rfl
  | cons p ps ih => exact (ih (act s p)).trans (act_length s p)

theorem chain_eq_of_parity {s : CString} (hs : 0x20 ∉ s.bytes) {ps qs : List Plugin}
    (hparity : ∀ p, ps.count p % 2 = qs.count p % 2) : chain s ps = chain s qs := by
  have heq := commuting_act.foldl_eq_of_parity hparity ⟨s, hs⟩
  rw [← foldl_act ⟨s, hs⟩ ps, heq, foldl_act]

/-- What a chain of plugins does to a string without spaces: `once` lists those that occur an odd
number of times, in any order. -/
structure NormalForm (s : CString) (ps : List Plugin) (t : CString) : Prop where
  result : (mapString Plugin.library s ps).2 = some t
  bytes : ∀ b ∈ t.bytes, b ≠ 0x20 ∧ b ≠ 0
  length : t.length = s.length
  parity : ∀ qs : List Plugin, (∀ p, qs.count p % 2 = ps.count p % 2) →
    (mapString Plugin.library s qs).2 = some t
  once : ∀ once : List Plugin, once.Nodup → (∀ p, p ∈ once ↔ ps.count p % 2 = 1) →
    (mapString Plugin.library s once).2 = some t ∧ t = once.foldl (fun r p => p.apply r) s ∧
      t.bytes = once.foldl (fun bytes p => p.effect bytes) s.bytes
  anyOrder : ∀ qs : List Plugin, qs.Perm ps → (mapString Plugin.library s qs).2 = some t
  decrypted : (mapString Plugin.library t ps).2 = some s

theorem parity_normal_form (s : CString) (hs : 0x20 ∉ s.bytes) (ps : List Plugin) :
    ∃ t, NormalForm s ps t := by
  have hspaceless : 0x20 ∉ (chain s ps).bytes := by
    rw [← foldl_act ⟨s, hs⟩ ps]
    exact (ps.foldl act ⟨s, hs⟩).property
  have hchain : ∀ qs : List Plugin, (∀ p, qs.count p % 2 = ps.count p % 2) →
      (mapString Plugin.library s qs).2 = some (chain s ps) := by
    intro qs hparity
    rw [mapString_library, chain_eq_of_parity hs hparity]
  refine ⟨chain s ps, mapString_library s ps, ?_, ?_, hchain, ?_, ?_, ?_⟩
  · intro b hb
    constructor
    · rintro rfl
      exact hspaceless hb
    · rintro rfl
      exact (chain s ps).noNul hb
  · rw [← foldl_act ⟨s, hs⟩ ps]
    exact foldl_act_length _ ps
  · intro once hnodup honce
    have hparity : ∀ p, once.count p % 2 = ps.count p % 2 := by
      intro p
      by_cases hp : p ∈ once
      · rw [List.count_eq_one_of_mem hnodup hp, (honce p).mp hp]
      · rw [List.count_eq_zero_of_not_mem hp]
        have := mt (honce p).mpr hp
        omega
    have happlied : chain s ps = chain s once := (chain_eq_of_parity hs hparity).symm
    refine ⟨hchain once hparity, happlied, ?_⟩
    rw [happlied, ← foldl_act ⟨s, hs⟩ once]
    exact foldl_act_bytes ⟨s, hs⟩ once
  · intro qs hperm
    exact hchain qs fun p => by rw [hperm.count_eq]
  · have hdouble : ∀ p, (ps ++ ps).count p % 2 = ([] : List Plugin).count p % 2 := by
      intro p
      rw [List.count_append, List.count_nil]
      omega
    have hback := chain_eq_of_parity hs hdouble
    rw [mapString_library]
    simpa [chain] using hback

theorem parity_normal_form_word : ∃ t, NormalForm ⟨[97, 91, 200], by decide⟩
    [.xorString, .caesarCipher, .xorString, .reverseString, .xorString] t :=
  parity_normal_form _ (by decide) _

end PsOs.Plugins
