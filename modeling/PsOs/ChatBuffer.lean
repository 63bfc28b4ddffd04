import PsOs.CharArrays
import PsOs.ChatSession

/-! The array `msg` in the loop of `client_thread`. -/

namespace PsOs.ChatServer

open CharArrays CStrings

def handleRead (isAdmin : Bool) (msg : CharArray) (received : List UInt8) :
    Option (CharArray × Bool) := do
  let msg ← storeBytes msg 0 received
  let msg ← store msg received.length 0
  let _printed ← loadString msg
  let command ← CharArrays.strncmpEq 9 msg (shutdownCommand ++ [0])
  return (msg, command && isAdmin)

def handleReads (isAdmin : Bool) : CharArray → List (List UInt8) → Option Bool
  | _, [] => some false
  | msg, received :: reads =>
    if received = [] then some false
    else (handleRead isAdmin msg received).bind fun (msg, obeyed) =>
      if obeyed then some true else handleReads isAdmin msg reads

/-- No read before the end of the loop fills the array. -/
def Short (isAdmin : Bool) : List (List UInt8) → Prop
  | [] => True
  | received :: reads => received ≠ [] → received.length < MAX_BUFFER ∧
      ((isShutdown received && isAdmin) = false → Short isAdmin reads)

section Loop

variable {isAdmin : Bool} {msg : CharArray} {received : List UInt8} {reads : List (List UInt8)}

theorem handleRead_short (hmsg : msg.length = MAX_BUFFER) (h : received.length < MAX_BUFFER) :
    ∃ msg', msg'.length = MAX_BUFFER ∧
      handleRead isAdmin msg received = some (msg', isShutdown received && isAdmin) := by
  have hbytes := storeBytes_zero (hmsg ▸ h.le : received.length ≤ msg.length)
  have hpos : 0 < (msg.drop received.length).length := by
    rw [List.length_drop]
    omega
  obtain ⟨old, rest, hdrop⟩ := List.exists_cons_of_length_pos hpos
  have hstore := store_front (received.map some) rest old 0
  rw [List.length_map] at hstore
  rw [hdrop] at hbytes
  have hended : received.map some ++ some 0 :: rest = (received ++ [0]).map some ++ rest := by
    rw [List.map_append, List.append_assoc]
    rfl
  have hnul : 0 ∈ received ++ [0] := List.mem_append_right _ (List.mem_singleton_self 0)
  have hcommand : 0 ∈ shutdownCommand ++ [0] := List.mem_append_right _ (List.mem_singleton_self 0)
  refine ⟨received.map some ++ some 0 :: rest, ?_, ?_⟩
  · have hlen := congrArg List.length hdrop
    rw [List.length_drop, List.length_cons] at hlen
    rw [List.length_append, List.length_map, List.length_cons]
    omega
  · rw [handleRead, hbytes, Option.bind_eq_bind, Option.bind_some, hstore, hended,
      Option.bind_eq_bind, Option.bind_some, loadString_terminated hnul, Option.bind_eq_bind,
      Option.bind_some, strncmpEq_terminated hnul hcommand]
    rfl

theorem handleRead_long (hmsg : msg.length = MAX_BUFFER) (h : MAX_BUFFER ≤ received.length) :
    handleRead isAdmin msg received = none := by
  rw [handleRead]
  by_cases hfull : received.length = msg.length
  · have hbytes := storeBytes_zero hfull.le
    have hend := store_end (received.map some) 0
    rw [List.drop_eq_nil_of_le hfull.ge, List.append_nil] at hbytes
    rw [List.length_map] at hend
    rw [hbytes, Option.bind_eq_bind, Option.bind_some, hend]
    rfl
  · have hlong : msg.length < received.length := by omega
    have hbytes : storeBytes msg 0 received = none := storeBytes_none [] hlong
    rw [hbytes]
    rfl

theorem handleReads_isSome (hmsg : msg.length = MAX_BUFFER) :
    (handleReads isAdmin msg reads).isSome = true ↔ Short isAdmin reads := by
  induction reads generalizing msg with
  | nil => exact iff_of_true rfl trivial
  | cons received reads ih =>
    rw [handleReads, Short]
    by_cases hempty : received = []
    · rw [if_pos hempty]
      exact iff_of_true rfl fun hne => absurd hempty hne
    · rw [if_neg hempty]
      by_cases hlt : received.length < MAX_BUFFER
      · obtain ⟨msg', hmsg', hread⟩ := @handleRead_short isAdmin _ _ hmsg hlt
        rw [hread, Option.bind_some]
        cases hobeyed : (isShutdown received && isAdmin) with
        | true => simp [hlt]
        | false => simpa [hempty, hlt] using ih hmsg'
      · rw [handleRead_long hmsg (not_lt.mp hlt)]
        simp [hempty, hlt]

end Loop

theorem handleReads_isSome_iff (isAdmin : Bool) (reads : List (List UInt8)) :
    (handleReads isAdmin (unassigned MAX_BUFFER) reads).isSome = true ↔ Short isAdmin reads :=
  handleReads_isSome List.length_replicate

theorem handleReads_full :
    handleReads false (unassigned MAX_BUFFER) [List.replicate MAX_BUFFER 97] = none := by
  have hlong : MAX_BUFFER ≤ (List.replicate MAX_BUFFER (97 : UInt8)).length :=
    List.length_replicate.ge
  have hne : List.replicate MAX_BUFFER (97 : UInt8) ≠ [] := List.cons_ne_nil _ _
  have hmsg : (unassigned MAX_BUFFER).length = MAX_BUFFER := List.length_replicate
  rw [handleReads, if_neg hne, handleRead_long hmsg hlong]
  rfl

end PsOs.ChatServer
