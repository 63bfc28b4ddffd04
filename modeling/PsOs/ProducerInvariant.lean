import PsOs.ProducerMoves
import PsOs.WorkQueues

namespace PsOs.ProducerConsumer

open Threads WorkQueues

variable {c n : ℕ} {task : Task} {s t : State c}

def ConsumerPc.inSection : ConsumerPc → Bool
  | .check | .wait | .pop | .unlock _ => true
  | _ => false

def MainPc.inSection : MainPc → Bool
  | .push _ | .signal _ | .unlock _ => true
  | _ => false

def sections (s : State c) : Owner c → Bool
  | .main => s.shared.main.inSection
  | .consumer i => (s.locals i).pc.inSection

def worth (v : ℤ) : ℤ := if v = INT_MAX then 0 else v

def ConsumerPc.carried : ConsumerPc → ℤ
  | .unlock temp | .test temp => worth temp
  | _ => 0

def ConsumerPc.tookPill : ConsumerPc → Bool
  | .unlock temp | .test temp => temp = INT_MAX
  | .print | .exited => true
  | _ => false

def values (n : ℕ) : List ℤ := (List.range n).map fun i => (Element.value i).num

def feed (n c : ℕ) : List ℤ := values n ++ List.replicate c INT_MAX

def Element.index (n : ℕ) : Element → ℕ
  | .value i => i
  | .pill i => n + i

def Element.Bound (n c : ℕ) : Element → Prop
  | .value i => i < n
  | .pill i => i < c

def MainPc.count (n c : ℕ) : MainPc → ℕ
  | .create _ | .failed | .overrun => 0
  | .values i => i
  | .pills i => n + i
  | .lock element | .push element => element.index n
  | .signal element | .unlock element => element.index n + 1
  | .broadcast | .join _ _ | .finished _ => n + c

def MainPc.Bound (n c : ℕ) : MainPc → Prop
  | .values i => i ≤ n
  | .pills i => i ≤ c
  | .lock element | .push element | .signal element | .unlock element => element.Bound n c
  | _ => True

def MainPc.Inside (n c : ℕ) : MainPc → Prop
  | .create i => i ≤ n
  | .failed | .overrun => True
  | _ => c ≤ n

structure Books (taken : List ℤ) (consumer : Consumer) : Prop where
  sum : consumer.sum + consumer.pc.carried = (taken.map worth).sum
  small : |consumer.sum| + |consumer.pc.carried| ≤ (taken.map fun v => |worth v|).sum
  pills : taken.count INT_MAX = if consumer.pc.tookPill = true then 1 else 0

def Joined (s : State c) : Prop :=
  match s.shared.main with
  | .join k sum => (∀ j : Fin c, j.val < k → (s.locals j).pc = .exited) ∧
      sum = (∑ j : Fin c, if j.val < k then (s.locals j).sum else 0).bmod (2 ^ 32)
  | .finished sum => (∀ j, (s.locals j).pc = .exited) ∧
      sum = (∑ j, (s.locals j).sum).bmod (2 ^ 32)
  | _ => True

structure Inv (n : ℕ) (s : State c) : Prop where
  guards : Guards s.shared.mutex (· = true) (sections s)
  found : ∀ i, (s.locals i).pc = .pop → s.shared.queue ≠ []
  running : ∀ i, (s.locals i).pc ≠ .aborted
  fifo : s.shared.taken.map Prod.snd ++ s.shared.queue = s.shared.pushed
  fed : s.shared.pushed = (feed n c).take (s.shared.main.count n c)
  bound : s.shared.main.Bound n c
  inside : s.shared.main.Inside n c
  books : ∀ i, Books (share i s.shared.taken) (s.locals i)
  unborn : ∀ k, s.shared.main = .create k → ∀ i : Fin c, k ≤ i → (s.locals i).pc = .unborn
  joined : Joined s

section Restarted

def ConsumerPc.idle : ConsumerPc → Bool
  | .unborn | .sleep => true
  | _ => false

def ConsumerPc.awake : ConsumerPc → Bool
  | .poll | .lock | .relock => true
  | _ => false

def Restarted (locals locals' : Fin c → Consumer) : Prop :=
  ∀ i, locals' i = locals i ∨ (locals i).pc.idle = true ∧
    ∃ pc : ConsumerPc, pc.awake = true ∧ locals' i = (locals i).goto pc

variable {locals locals' : Fin c → Consumer}

theorem Restarted.refl (locals : Fin c → Consumer) : Restarted locals locals := fun _ => .inl rfl

theorem restarted_update {i : Fin c} {pc : ConsumerPc} (hidle : (locals i).pc.idle = true)
    (hpc : pc.awake = true) :
    Restarted locals (Function.update locals i ((locals i).goto pc)) := by
  intro j
  by_cases hji : j = i
  · subst hji
    exact .inr ⟨hidle, pc, hpc, Function.update_self ..⟩
  · exact .inl (Function.update_of_ne hji _ _)

theorem restarted_wake (woken : Finset (Fin c)) (locals : Fin c → Consumer) :
    Restarted locals (wake woken locals) := by
  intro i
  unfold wake
  split
  case isTrue h => exact .inr ⟨by rw [h.1]; rfl, .relock, rfl, rfl⟩
  case isFalse => exact .inl rfl

theorem Restarted.sum (h : Restarted locals locals') (i : Fin c) :
    (locals' i).sum = (locals i).sum := by
  obtain heq | ⟨-, pc, -, heq⟩ := h i
  · rw [heq]
  · rw [heq]
    rfl

theorem Restarted.field {β : Type} (h : Restarted locals locals') (f : ConsumerPc → β) {b : β}
    (hunborn : f .unborn = b) (hsleep : f .sleep = b) (hpoll : f .poll = b) (hlock : f .lock = b)
    (hrelock : f .relock = b) (i : Fin c) : f (locals' i).pc = f (locals i).pc := by
  obtain heq | ⟨hidle, pc, hawake, heq⟩ := h i
  · rw [heq]
  · have hold : f (locals i).pc = b := by
      cases hpc : (locals i).pc <;> first | assumption | (rw [hpc] at hidle; cases hidle)
    rw [hold, heq]
    change f pc = b
    cases pc <;> first | assumption | cases hawake

theorem Restarted.inSection (h : Restarted locals locals') (i : Fin c) :
    (locals' i).pc.inSection = (locals i).pc.inSection :=
  h.field ConsumerPc.inSection rfl rfl rfl rfl rfl i

theorem Restarted.books {taken : List ℤ} (h : Restarted locals locals') {i : Fin c}
    (hbooks : Books taken (locals i)) : Books taken (locals' i) := by
  have hcarried := h.field ConsumerPc.carried rfl rfl rfl rfl rfl i
  have htook := h.field ConsumerPc.tookPill rfl rfl rfl rfl rfl i
  constructor
  · rw [h.sum, hcarried]
    exact hbooks.sum
  · rw [h.sum, hcarried]
    exact hbooks.small
  · rw [htook]
    exact hbooks.pills

theorem Restarted.pop (h : Restarted locals locals') (i : Fin c) :
    (locals' i).pc = .pop ↔ (locals i).pc = .pop := by
  have hsame := h.field (fun pc => decide (pc = .pop)) rfl rfl rfl rfl rfl i
  exact decide_eq_decide.mp hsame

theorem Restarted.exited (h : Restarted locals locals') (i : Fin c) :
    (locals' i).pc = .exited ↔ (locals i).pc = .exited := by
  have hsame := h.field (fun pc => decide (pc = .exited)) rfl rfl rfl rfl rfl i
  exact decide_eq_decide.mp hsame

theorem Restarted.aborted (h : Restarted locals locals') (i : Fin c) :
    (locals' i).pc = .aborted ↔ (locals i).pc = .aborted := by
  have hsame := h.field (fun pc => decide (pc = .aborted)) rfl rfl rfl rfl rfl i
  exact decide_eq_decide.mp hsame

theorem MainMove.restarted (hm : MainMove task n s t)
    (hunborn : ∀ k, s.shared.main = .create k → ∀ i : Fin c, k ≤ i → (s.locals i).pc = .unborn) :
    Restarted s.locals t.locals := by
  cases hm with
  | create i hpc =>
    apply restarted_update
    · rw [hunborn i hpc i (Nat.le_refl _)]
      rfl
    · cases task <;> rfl
  | signal element woken hpc hwoken => exact restarted_wake woken s.locals
  | broadcast hpc => exact restarted_wake Finset.univ s.locals
  | _ => exact .refl s.locals

end Restarted

section Guarded

theorem sections_main (h : Restarted s.locals t.locals) :
    sections t = Function.update (sections s) .main t.shared.main.inSection := by
  funext owner
  cases owner with
  | main => simp [sections]
  | consumer i => simp [sections, h.inSection i]

theorem sections_consumer {srv' : Server c} {i : Fin c} {consumer' : Consumer}
    (hmain : srv'.main = s.shared.main) :
    sections ⟨srv', Function.update s.locals i consumer'⟩ =
      Function.update (sections s) (.consumer i) consumer'.pc.inSection := by
  funext owner
  cases owner with
  | main => simp [sections, hmain]
  | consumer j =>
    by_cases hji : j = i
    · subst hji
      simp [sections]
    · simp [sections, hji]

theorem ConsumerMove.frame {i : Fin c} {srv srv' : Server c} {consumer consumer' : Consumer}
    (hm : ConsumerMove task i srv consumer srv' consumer') :
    srv'.main = srv.main ∧ srv'.pushed = srv.pushed := by
  cases hm <;> exact ⟨rfl, rfl⟩

theorem guards_consumer (h : Inv n s) {i : Fin c} {srv' : Server c} {consumer' : Consumer}
    (hm : ConsumerMove task i s.shared (s.locals i) srv' consumer') :
    Guards srv'.mutex (· = true) (sections ⟨srv', Function.update s.locals i consumer'⟩) := by
  rw [sections_consumer hm.frame.1]
  have hguards := h.guards
  cases hm with
  | lock hpc hfree =>
    rw [hfree] at hguards
    exact hguards.acquire
  | wait hpc | unlock temp hpc =>
    apply hguards.release
    · simp [sections, hpc, ConsumerPc.inSection]
    · simp [Consumer.goto, ConsumerPc.inSection]
  | poll pc hpc hnext =>
    apply hguards.stay
    rcases hnext with rfl | rfl <;> simp [Consumer.goto, ConsumerPc.inSection]
  | _ => exact hguards.stay (by simp [sections, Consumer.goto, ConsumerPc.inSection, *])

theorem guards_main (h : Inv n s) (hm : MainMove task n s t) :
    Guards t.shared.mutex (· = true) (sections t) := by
  rw [sections_main (hm.restarted h.unborn)]
  have hguards := h.guards
  cases hm with
  | lock element hpc hfree =>
    rw [hfree] at hguards
    exact hguards.acquire
  | unlock element hpc =>
    apply hguards.release
    · simp [sections, hpc, MainPc.inSection]
    · cases element <;> simp [Element.next, MainPc.inSection]
  | push element hpc => exact hguards.stay (by simp [sections, hpc, MainPc.inSection])
  | signal element woken hpc hwoken =>
    exact hguards.stay (by simp [sections, hpc, MainPc.inSection])
  | pillsDone i hpc hi =>
    exact hguards.stay (by cases task <;> simp [Server.goto, Task.closing, MainPc.inSection])
  | _ => exact hguards.stay (by simp [Server.goto, MainPc.inSection])

end Guarded

end PsOs.ProducerConsumer
