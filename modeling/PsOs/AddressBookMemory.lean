import PsOs.AddressBookRefinement
import PsOs.TrackerRefinement

/-!
The calls that `exercise01/task1/addressbook.c` makes of the memory tracker. `malloc` is given by
the addresses that it returns, 0 for `NULL`; the sizes are those of LP64.
-/

namespace PsOs.AddressBookMemory

open AddressBook LinkedLists MemoryTracker TransitionSystems

structure Process where
  book : Store
  contacts : ℕ
  address : Block → UInt64
  calls : List MemoryTracker.Call

def created (book : UInt64) : Process := ⟨AddressBook.create, 0, fun _ => 0, [.allocate book 8 4]⟩

namespace Process

def add (p : Process) (contact node : UInt64) : Option Process :=
  if contact = 0 ∨ node = 0 then none
  else (p.book.addContact p.contacts).map fun book =>
    { book
      contacts := p.contacts + 1
      address := Function.update (Function.update p.address (.contact p.contacts) contact)
        (.node p.book.fresh) node
      calls := p.calls ++ [.allocate contact 156 10, .allocate node 16 25] }

def remove (p : Process) (contact : ℕ) : Option Process :=
  (p.book.removeContact contact).map fun book =>
    { p with
      book
      calls := p.calls ++
        (book.released.drop p.book.released.length).map fun block => .free (p.address block) }

def freeAddressBook (p : Process) (book : UInt64) : Option (List MemoryTracker.Call) :=
  (traverse p.book.nodes p.book.fresh p.book.head).map fun _ => p.calls ++ [.free book]

end Process

inductive Operation where
  | add (contact node : UInt64)
  | remove (contact : ℕ)

def step (p : Process) : Operation → Option Process
  | .add contact node => p.add contact node
  | .remove contact => p.remove contact

def session (book : UInt64) (operations : List Operation) : Option (List MemoryTracker.Call) :=
  (run step (created book) operations).bind fun p => p.freeAddressBook book

theorem freeAddressBook_eq {p : Process} {cells : List (ℕ × ℕ)} (h : Holds p.book cells)
    (book : UInt64) : p.freeAddressBook book = some (p.calls ++ [.free book]) := by
  rw [Process.freeAddressBook, traverse_eq h.segment h.length_le, Option.map_some]

structure Freed {n : ℕ} (t : Tracker n) : Prop where
  live : ∀ i, (t.memory i).address = 0
  error : t.error = 0

section Account

variable {n : ℕ} {acc : Account} {x : UInt64} {c : MemoryTracker.Call}
  {calls calls' : List MemoryTracker.Call}

theorem live_step (h : x ∈ acc.live) (hc : c ≠ .free x) : x ∈ (acc.step n c).live := by
  unfold Account.step
  split
  case h_1 => exact h
  case h_2 =>
    cases c with
    | allocate address size line => exact Finmap.mem_insert.mpr (.inr h)
    | free address =>
      have hne : x ≠ address := by
        rintro rfl
        exact hc rfl
      exact Finmap.mem_erase.mpr ⟨hne, h⟩

theorem live_foldl (h : x ∈ acc.live) (hcalls : .free x ∉ calls) :
    x ∈ (calls.foldl (Account.step n) acc).live := by
  induction calls generalizing acc with
  | nil => exact h
  | cons c calls ih =>
    obtain ⟨hc, hcalls⟩ := not_or.mp (mt List.mem_cons.mpr hcalls)
    exact ih (live_step h (Ne.symm hc)) hcalls

theorem account_append (n : ℕ) (calls calls' : List MemoryTracker.Call) :
    account n (calls ++ calls') = calls'.foldl (Account.step n) (account n calls) :=
  List.foldl_append

theorem allFresh_append : AllFresh n acc (calls ++ calls') ↔
    AllFresh n acc calls ∧ AllFresh n (calls.foldl (Account.step n) acc) calls' := by
  induction calls generalizing acc with
  | nil => simp [AllFresh]
  | cons c calls ih => simp [AllFresh, ih, and_assoc]

theorem faults_foldl {e : Error} (h : e ∈ acc.faults) :
    e ∈ (calls.foldl (Account.step n) acc).faults := by
  induction calls generalizing acc with
  | nil => exact h
  | cons c calls ih =>
    apply ih
    unfold Account.step
    split
    · exact List.mem_append_left _ h
    · cases c <;> exact h

/-- What `malloc` promises for a run that has made these calls, on a tracker that is large enough. -/
structure Allocated (n : ℕ) (calls : List MemoryTracker.Call) : Prop where
  fresh : AllFresh n .init calls
  room : .MAX_ALLOC ∉ (account n calls).faults

theorem Allocated.append (h : Allocated n (calls ++ calls')) : Allocated n calls := by
  constructor
  · exact (allFresh_append.mp h.fresh).1
  · intro hfault
    apply h.room
    rw [account_append]
    exact faults_foldl hfault

theorem Allocated.allocate {address size : UInt64} {line : UInt16}
    (h : Allocated n (calls ++ [.allocate address size line])) (ha : address ≠ 0) :
    address ∉ (account n calls).live ∧
      address ∈ (account n (calls ++ [.allocate address size line])).live := by
  obtain ⟨-, hfresh, -⟩ := allFresh_append.mp h.fresh
  refine ⟨hfresh ha, ?_⟩
  have hroom := h.room
  rw [account_append] at hroom ⊢
  by_cases hfull : n ≤ (account n calls).live.keys.card
  · simp [Account.step, Account.fault, ha, hfull] at hroom
  · simp [Account.step, Account.fault, Account.apply, ha, hfull]

theorem freed_iff (h : AllFresh n .init calls) : Freed (tracked n calls) ↔
    (account n calls).live = ∅ ∧ ∀ e ∈ (account n calls).faults, e = .NULL_FREE := by
  have hrep := represents_account h
  constructor
  · rintro ⟨hlive, herror⟩
    refine ⟨?_, hrep.error.mp herror⟩
    apply Finmap.ext
    rw [← hrep.live]
    simp [entries, used, hlive]
    rfl
  · rintro ⟨hlive, hfaults⟩
    refine ⟨?_, hrep.error.mpr hfaults⟩
    intro i
    by_contra hi
    have hmem := (hrep.mem_live hi).mpr ⟨i, rfl⟩
    rw [hlive] at hmem
    exact Finmap.notMem_empty hmem

end Account

/-- The block at `x`, which holds the first node that has been added, is never given to `free`. -/
structure Kept (n : ℕ) (x : UInt64) (p : Process) (cells : List (ℕ × ℕ)) : Prop where
  holds : Holds p.book cells
  nodup : (contents cells).Nodup
  bound : ∀ c ∈ contents cells, c < p.contacts
  apart : ∀ cell ∈ cells.tail,
    p.address (.node cell.1) ≠ x ∧ p.address (.contact cell.2) ≠ x
  live : x ∈ (account n p.calls).live

section Kept

variable {n : ℕ} {book x contact node : UInt64} {p p' : Process} {cells cells' : List (ℕ × ℕ)}

theorem add_eq_some (h : p.add contact node = some p') : contact ≠ 0 ∧ node ≠ 0 ∧
    ∃ book, p.book.addContact p.contacts = some book ∧
      p' = ⟨book, p.contacts + 1,
        Function.update (Function.update p.address (.contact p.contacts) contact)
          (.node p.book.fresh) node,
        p.calls ++ [.allocate contact 156 10, .allocate node 16 25]⟩ := by
  simp only [Process.add] at h
  split at h
  · cases h
  case isFalse hne =>
    obtain ⟨book, hbook, rfl⟩ := Option.map_eq_some_iff.mp h
    obtain ⟨hcontact, hnode⟩ := not_or.mp hne
    exact ⟨hcontact, hnode, book, hbook, rfl⟩

theorem Allocated.add {calls : List MemoryTracker.Call}
    (h : Allocated n (calls ++ [.allocate contact 156 10, .allocate node 16 25]))
    (hcontact : contact ≠ 0) (hnode : node ≠ 0) (hx : x ∈ (account n calls).live) :
    contact ≠ x ∧ node ≠ x := by
  rw [List.append_cons] at h
  have hx' : x ∈ (account n (calls ++ [.allocate contact 156 10])).live := by
    rw [account_append]
    exact live_foldl hx (by simp)
  constructor
  · rintro rfl
    exact (h.append.allocate hcontact).1 hx
  · rintro rfl
    exact (h.allocate hnode).1 hx'

theorem Kept.add (h : Kept n x p cells) (hadd : p.add contact node = some p')
    (ha : Allocated n p'.calls) : ∃ cells', Kept n x p' cells' := by
  obtain ⟨hcontact, hnode, book, hbook, rfl⟩ := add_eq_some hadd
  obtain ⟨book', hbook', hholds⟩ := h.holds.addContact p.contacts
  rw [hbook] at hbook'
  cases hbook'
  obtain ⟨hcx, hnx⟩ := ha.add hcontact hnode h.live
  have hnew : p.contacts ∉ contents cells := fun hmem => Nat.lt_irrefl _ (h.bound _ hmem)
  refine ⟨_, hholds, ?_, ?_, ?_, ?_⟩
  · simp only [contents, List.map_append, List.map_cons, List.map_nil]
    apply List.nodup_append.mpr ⟨h.nodup, List.nodup_singleton _, ?_⟩
    rintro c hc d hd rfl
    exact hnew (List.mem_singleton.mp hd ▸ hc)
  · intro c hc
    simp only [contents, List.map_append, List.map_cons, List.map_nil, List.mem_append,
      List.mem_singleton] at hc
    rcases hc with hc | rfl
    · exact Nat.lt_succ_of_lt (h.bound c hc)
    · exact Nat.lt_succ_self _
  · intro cell hcell
    have hmem : cell ∈ cells.tail ∨ cell = (p.book.fresh, p.contacts) := by
      cases cells with
      | nil => cases hcell
      | cons c cells => simpa using hcell
    rcases hmem with hmem | rfl
    · have hin := List.mem_of_mem_tail hmem
      have hfresh : cell.1 ≠ p.book.fresh :=
        (h.holds.bound cell.1 (List.mem_map_of_mem hin)).ne
      have hcontacts : cell.2 ≠ p.contacts := (h.bound cell.2 (List.mem_map_of_mem hin)).ne
      simpa [Function.update_apply, hfresh, hcontacts] using h.apart cell hmem
    · simp [hcx, hnx]
  · rw [account_append]
    exact live_foldl h.live (by simp)

theorem Kept.shrink (h : Kept n x p cells) {contact : ℕ} {book : Store} {freed : List Block}
    (hbook : p.book.removeContact contact = some book) (hholds : Holds book cells')
    (hcells : cells'.Sublist cells) (htail : cells'.tail.Sublist cells.tail)
    (hreleased : book.released = p.book.released ++ freed)
    (hfreed : ∀ block ∈ freed, p.address block ≠ x) :
    ∃ p', p.remove contact = some p' ∧ Kept n x p' cells' := by
  have hcontents : (contents cells').Sublist (contents cells) := hcells.map _
  have hremove : p.remove contact = some ⟨book, p.contacts, p.address, p.calls ++
      (book.released.drop p.book.released.length).map fun block => .free (p.address block)⟩ := by
    rw [Process.remove, hbook, Option.map_some]
  refine ⟨_, hremove, hholds, h.nodup.sublist hcontents,
    fun c hc => h.bound c (hcontents.subset hc), fun cell hc => h.apart cell (htail.subset hc), ?_⟩
  simp only [hreleased, List.drop_left, account_append]
  apply live_foldl h.live
  intro hmem
  obtain ⟨block, hblock, heq⟩ := List.mem_map.mp hmem
  cases heq
  exact hfreed block hblock rfl

theorem Kept.remove (h : Kept n x p cells) {contact : ℕ} (hremove : p.remove contact = some p') :
    ∃ cells', Kept n x p' cells' := by
  suffices hkept : ∃ p' cells', p.remove contact = some p' ∧ Kept n x p' cells' by
    obtain ⟨p'', cells', hp, hkept⟩ := hkept
    rw [hremove] at hp
    cases hp
    exact ⟨cells', hkept⟩
  match cells, h with
  | [], h =>
    obtain ⟨p'', hp, hkept⟩ := h.shrink (h.holds.remove_empty contact) h.holds (.refl _) (.refl _)
      (List.append_nil _).symm (fun _ hb => absurd hb List.not_mem_nil)
    exact ⟨p'', _, hp, hkept⟩
  | [(a₀, x₀)], h =>
    rw [Process.remove, h.holds.remove_only] at hremove
    cases hremove
  | (a₀, x₀) :: (a₁, x₁) :: rest, h =>
    by_cases h₁ : contact = x₁
    · subst h₁
      obtain ⟨book, hbook, hholds, hreleased⟩ := h.holds.remove_second
      have hsub : rest.Sublist ((a₁, contact) :: rest) := List.sublist_cons_self _ _
      obtain ⟨p'', hp, hkept⟩ := h.shrink hbook hholds (hsub.trans (List.sublist_cons_self _ _))
        ((List.tail_sublist _).trans hsub) (hreleased.trans (List.append_nil _).symm)
        (fun _ hb => absurd hb List.not_mem_nil)
      exact ⟨p'', _, hp, hkept⟩
    · by_cases hmem : contact ∈ contents rest
      · obtain ⟨book, front, z, y, b, back, hbook, hcells, hholds, hreleased, -⟩ :=
          h.holds.remove_later h.nodup hmem
        have hsub : (front ++ (z, y) :: back).Sublist ((a₁, x₁) :: rest) := by
          rw [hcells]
          exact (List.Sublist.refl front).append ((List.sublist_cons_self _ _).cons_cons _)
        have hapart := h.apart (b, contact) (by
          rw [List.tail_cons, hcells]
          simp)
        obtain ⟨p'', hp, hkept⟩ := h.shrink hbook hholds (hsub.cons_cons _) hsub hreleased (by
          simp [hapart.1, hapart.2])
        exact ⟨p'', _, hp, hkept⟩
      · have habsent : contact ∉ contents ((a₁, x₁) :: rest) := fun hin =>
          (List.mem_cons.mp hin).elim h₁ hmem
        obtain ⟨p'', hp, hkept⟩ := h.shrink (h.holds.remove_absent habsent) h.holds (.refl _)
          (.refl _) (List.append_nil _).symm (fun _ hb => absurd hb List.not_mem_nil)
        exact ⟨p'', _, hp, hkept⟩

theorem step_calls {operation : Operation} (h : step p operation = some p') :
    p.calls <+: p'.calls := by
  cases operation with
  | add contact node =>
    obtain ⟨-, -, book, -, rfl⟩ := add_eq_some h
    exact List.prefix_append _ _
  | remove contact =>
    obtain ⟨book, -, rfl⟩ := Option.map_eq_some_iff.mp h
    exact List.prefix_append _ _

theorem run_calls {operations : List Operation} (h : run step p operations = some p') :
    p.calls <+: p'.calls := by
  induction operations generalizing p with
  | nil =>
    cases h
    exact List.prefix_refl _
  | cons operation operations ih =>
    obtain ⟨q, hq, hp'⟩ := Option.bind_eq_some_iff.mp h
    exact (step_calls hq).trans (ih hp')

theorem Allocated.of_prefix {calls calls' : List MemoryTracker.Call} (h : Allocated n calls')
    (hfirst : calls <+: calls') : Allocated n calls := by
  obtain ⟨rest, rfl⟩ := hfirst
  exact h.append

theorem Kept.run (h : Kept n x p cells) {operations : List Operation}
    (hrun : run step p operations = some p') (ha : Allocated n p'.calls) :
    ∃ cells', Kept n x p' cells' := by
  induction operations generalizing p cells with
  | nil =>
    cases hrun
    exact ⟨cells, h⟩
  | cons operation operations ih =>
    obtain ⟨q, hq, hp'⟩ := Option.bind_eq_some_iff.mp hrun
    have hstep : ∃ cells', Kept n x q cells' := by
      cases operation with
      | add contact node => exact h.add hq (ha.of_prefix (run_calls hp'))
      | remove contact => exact h.remove hq
    obtain ⟨cells', hkept⟩ := hstep
    exact ih hkept hp'

theorem kept_first (hbook : book ≠ 0) (hadd : (created book).add contact node = some p)
    (ha : Allocated n p.calls) : node ≠ book ∧ Kept n node p [(0, 0)] := by
  obtain ⟨hcontact, hnode, store, hstore, rfl⟩ := add_eq_some hadd
  obtain ⟨store', hstore', hholds⟩ := holds_create.addContact 0
  obtain rfl : store = store' := Option.some.inj (hstore.symm.trans hstore')
  have hfirst : Allocated n ([] ++ [.allocate book 8 4]) := ha.append
  have hlive : book ∈ (account n (created book).calls).live := (hfirst.allocate hbook).2
  refine ⟨(ha.add hcontact hnode hlive).2, hholds, List.nodup_singleton _, ?_, ?_, ?_⟩
  · simp [contents, created]
  · exact fun _ hcell => absurd hcell List.not_mem_nil
  · have hallocated : Allocated n ((created book).calls ++ [.allocate contact 156 10] ++
        [.allocate node 16 25]) := by
      rw [List.append_assoc]
      exact ha
    have hnew := (hallocated.allocate hnode).2
    rw [List.append_assoc] at hnew
    exact hnew

theorem remove_created (book : UInt64) (contact : ℕ) :
    step (created book) (.remove contact) = some (created book) := by
  simp [step, Process.remove, created, Store.removeContact, AddressBook.create]

theorem run_created {operations : List Operation}
    (h : ∀ contact node, .add contact node ∉ operations) :
    run step (created book) operations = some (created book) := by
  induction operations with
  | nil => rfl
  | cons operation operations ih =>
    cases operation with
    | add contact node => exact absurd List.mem_cons_self (h contact node)
    | remove contact =>
      rw [TransitionSystems.run, remove_created, Option.bind_some]
      exact ih fun contact node hmem => h contact node (List.mem_cons_of_mem _ hmem)

theorem kept_of_adds (hbook : book ≠ 0) {operations : List Operation}
    (hadds : ∃ contact node, .add contact node ∈ operations)
    (hrun : run step (created book) operations = some p) (ha : Allocated n p.calls) :
    ∃ x cells, x ≠ book ∧ Kept n x p cells := by
  induction operations with
  | nil =>
    obtain ⟨contact, node, hmem⟩ := hadds
    cases hmem
  | cons operation operations ih =>
    obtain ⟨q, hq, hp⟩ := Option.bind_eq_some_iff.mp hrun
    cases operation with
    | add contact node =>
      obtain ⟨hne, hkept⟩ := kept_first hbook hq (ha.of_prefix (run_calls hp))
      obtain ⟨cells, hkept'⟩ := hkept.run hp ha
      exact ⟨node, cells, hne, hkept'⟩
    | remove contact =>
      rw [remove_created] at hq
      cases hq
      refine ih ?_ hp
      obtain ⟨contact', node', hmem⟩ := hadds
      cases hmem with
      | tail _ hmem => exact ⟨contact', node', hmem⟩

end Kept

theorem freed_iff_neverAdds {n : ℕ} {book : UInt64} {operations : List Operation}
    (hbook : book ≠ 0) (hmalloc : ∀ calls, session book operations = some calls → Allocated n calls) :
    (∃ calls, session book operations = some calls ∧ Freed (tracked n calls)) ↔
      ∀ contact node, .add contact node ∉ operations := by
  constructor
  · rintro ⟨calls, hcalls, hfreed⟩ contact node hadd
    have ha := hmalloc calls hcalls
    obtain ⟨p, hp, hfree⟩ := Option.bind_eq_some_iff.mp hcalls
    obtain ⟨-, -, rfl⟩ := Option.map_eq_some_iff.mp hfree
    obtain ⟨x, cells, hne, hkept⟩ := kept_of_adds hbook ⟨contact, node, hadd⟩ hp ha.append
    have hlive : x ∈ (account n (p.calls ++ [.free book])).live := by
      rw [account_append]
      exact live_foldl hkept.live (by simpa using hne)
    rw [((freed_iff ha.fresh).mp hfreed).1] at hlive
    exact Finmap.notMem_empty hlive
  · intro hremoves
    have hcalls : session book operations = some [.allocate book 8 4, .free book] := by
      rw [session, run_created hremoves]
      rfl
    refine ⟨_, hcalls, ?_⟩
    have ha := hmalloc _ hcalls
    have hfirst : Allocated n [.allocate book 8 4] := ha.of_prefix ⟨[.free book], rfl⟩
    have hroom : n ≠ 0 := by
      rintro rfl
      have hfull := hfirst.room
      simp [account, Account.step, Account.fault, Account.init, hbook] at hfull
    have hempty : (Finmap.insert book (8 : UInt64) (∅ : Blocks)).erase book = ∅ := by
      apply Finmap.ext_lookup
      intro a
      by_cases hab : a = book
      · rw [hab, Finmap.lookup_erase, Finmap.lookup_empty]
      · rw [Finmap.lookup_erase_ne hab, Finmap.lookup_insert_of_ne _ hab]
    rw [freed_iff ha.fresh]
    simp [account, Account.step, Account.fault, Account.init, Account.apply, hbook, hroom, hempty]

def addOne : List Operation := [.add 32 48]

theorem allocated_addOne {calls : List MemoryTracker.Call} (h : session 16 addOne = some calls) :
    Allocated 100 calls := by
  cases h
  refine ⟨?_, by decide⟩
  change AllFresh 100 .init [.allocate 16 8 4, .allocate 32 156 10, .allocate 48 16 25, .free 16]
  exact ⟨fun _ => by decide, fun _ => by decide +kernel, fun _ => by decide +kernel, trivial, trivial⟩

theorem freed_iff_neverAdds_addOne :
    (∃ calls, session 16 addOne = some calls ∧ Freed (tracked 100 calls)) ↔
      ∀ contact node, .add contact node ∉ addOne :=
  freed_iff_neverAdds (by decide) fun _ => allocated_addOne

theorem addOne_leaks : ∃ calls, session 16 addOne = some calls ∧ Allocated 100 calls ∧
    (((List.finRange 100).map (tracked 100 calls).memory).filter fun m => m.address ≠ 0) =
      [⟨32, 156, 10⟩, ⟨48, 16, 25⟩] :=
  ⟨_, rfl, allocated_addOne rfl, by decide +kernel⟩

end PsOs.AddressBookMemory
