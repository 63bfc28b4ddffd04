import PsOs.AddressBook

namespace PsOs.AddressBook

open LinkedLists TransitionSystems

variable {store : Store} {cells : List (ℕ × ℕ)} {contact : ℕ}

structure Holds (store : Store) (cells : List (ℕ × ℕ)) : Prop where
  segment : Segment store.nodes store.head cells none
  nodup : (addresses cells).Nodup
  bound : ∀ a ∈ addresses cells, a < store.fresh

theorem Holds.length_le (h : Holds store cells) : cells.length ≤ store.fresh :=
  length_le_of_addresses h.nodup h.bound

theorem Holds.fresh_notMem (h : Holds store cells) : store.fresh ∉ addresses cells :=
  fun hmem => Nat.lt_irrefl _ (h.bound _ hmem)

theorem Holds.countContacts (h : Holds store cells) : store.countContacts = some cells.length := by
  have hsegment := h.segment
  unfold Store.countContacts
  cases hhead : store.head with
  | none =>
    rw [hhead] at hsegment
    cases hsegment
    rfl
  | some head =>
    rw [hhead] at hsegment
    change countFrom store.nodes store.fresh head 1 = _
    rw [countFrom_eq hsegment h.length_le, Nat.add_sub_cancel_left]

theorem holds_create : Holds create [] :=
  ⟨.nil none, List.nodup_nil, fun _ ha => absurd ha List.not_mem_nil⟩

theorem holds_append {nodes : Heap ℕ} {head : Option ℕ} {released : List Block}
    (h : Holds store cells)
    (hs : Segment nodes head (cells ++ [(store.fresh, contact)]) none) :
    Holds ⟨nodes, store.fresh + 1, head, released⟩ (cells ++ [(store.fresh, contact)]) := by
  refine ⟨hs, ?_, ?_⟩
  · have hfresh := h.fresh_notMem
    simp only [addresses, List.map_append, List.map_cons, List.map_nil]
    exact List.nodup_append.mpr ⟨h.nodup, List.nodup_singleton _, by
      rintro a ha b hb rfl
      exact hfresh (List.mem_singleton.mp hb ▸ ha)⟩
  · intro a ha
    simp only [addresses, List.map_append, List.map_cons, List.map_nil, List.mem_append,
      List.mem_singleton] at ha
    rcases ha with ha | rfl
    · exact Nat.lt_succ_of_lt (h.bound a ha)
    · exact Nat.lt_succ_self _

theorem mallocNode_fresh (store : Store) (node : Node ℕ) :
    (store.mallocNode node).nodes store.fresh = some node := by
  simp [Store.mallocNode]

theorem Holds.mallocNode (h : Holds store cells) (node : Node ℕ) :
    Segment (store.mallocNode node).nodes store.head cells none :=
  h.segment.frame h.fresh_notMem _

theorem Holds.addContact_first (h : Holds store []) (contact : ℕ) :
    ∃ store', store.addContact contact = some store' ∧ Holds store' [(store.fresh, contact)] := by
  have hhead : store.head = none := by
    have hsegment := h.segment
    cases hs : store.head with
    | none => rfl
    | some a =>
      rw [hs] at hsegment
      cases hsegment
  refine ⟨{ store.mallocNode ⟨contact, none⟩ with head := some store.fresh }, ?_, ?_⟩
  · simp [Store.addContact, Store.mallocNode, hhead]
  · exact holds_append h (.cons (mallocNode_fresh store _) (.nil none))

theorem Holds.addContact_last {front : List (ℕ × ℕ)} {z x : ℕ}
    (h : Holds store (front ++ [(z, x)])) (contact : ℕ) :
    ∃ store', store.addContact contact = some store' ∧
      Holds store' (front ++ [(z, x)] ++ [(store.fresh, contact)]) := by
  have hold := h.mallocNode ⟨contact, none⟩
  obtain ⟨q, hfront, hlast⟩ := hold.split
  obtain ⟨rfl, next, hz, hnext⟩ := hlast.node
  cases hnext
  have hnodup := h.nodup
  simp only [addresses, List.map_append, List.map_cons, List.map_nil] at hnodup
  have hzfront : z ∉ addresses front := by
    intro hmem
    exact (List.nodup_append.mp hnodup).2.2 z hmem z (List.mem_singleton_self z) rfl
  have hzfresh : store.fresh ≠ z := by
    rintro rfl
    exact h.fresh_notMem (by simp [addresses])
  obtain ⟨head, hhead⟩ : ∃ head, store.head = some head := by
    cases hs : store.head with
    | some a => exact ⟨a, rfl⟩
    | none =>
      rw [hs] at hfront
      cases hfront
  have htmp : lastNode (store.mallocNode ⟨contact, none⟩).nodes (store.fresh + 1) head = some z := by
    have hlen := h.length_le
    rw [List.length_append] at hlen
    apply lastNode_eq (x := x) (hhead ▸ hold)
    omega
  refine ⟨⟨Function.update (store.mallocNode ⟨contact, none⟩).nodes z
    (some ⟨x, some store.fresh⟩), store.fresh + 1, store.head, store.released⟩, ?_, ?_⟩
  · simp only [Store.addContact, hhead, Store.mallocNode] at htmp hz ⊢
    simp only [htmp, Option.bind_some, Store.setNext, hz, Option.map_some]
  · apply holds_append h
    rw [List.append_assoc]
    apply (hfront.frame hzfront _).append
    apply Segment.cons
    · rw [Function.update_self]
    · apply Segment.cons
      · rw [Function.update_of_ne hzfresh]
        exact mallocNode_fresh store _
      · exact .nil none

theorem Holds.addContact (h : Holds store cells) (contact : ℕ) :
    ∃ store', store.addContact contact = some store' ∧
      Holds store' (cells ++ [(store.fresh, contact)]) := by
  rcases List.eq_nil_or_concat cells with rfl | ⟨front, ⟨z, x⟩, rfl⟩
  · exact h.addContact_first contact
  · rw [List.concat_eq_append] at h ⊢
    exact h.addContact_last contact

section Search

variable {h : Heap ℕ} {a : ℕ} {fuel : ℕ}

theorem search_skip {previous : Option ℕ} {c : ℕ × ℕ} (hs : Segment h (some a) (c :: cells) none)
    (hdata : contact ≠ c.2) : ∃ next, Segment h next cells none ∧
      Store.search h contact (fuel + 1) previous a =
        next.elim (some none) (Store.search h contact fuel (some a)) := by
  obtain ⟨ha, next, hnode, hrest⟩ := hs.node
  cases ha
  refine ⟨next, hrest, ?_⟩
  simp only [Store.search, hnode, Option.bind_some, if_neg (Ne.symm hdata)]
  cases next with
  | none => rfl
  | some next => rfl

theorem search_absent {previous : Option ℕ} (hs : Segment h (some a) cells none)
    (hfuel : cells.length ≤ fuel) (habsent : contact ∉ contents cells) :
    Store.search h contact fuel previous a = some none := by
  induction fuel generalizing a cells previous with
  | zero =>
    cases hs
    exact absurd hfuel (Nat.not_succ_le_zero _)
  | succ fuel ih =>
    cases cells with
    | nil => cases hs
    | cons c cells =>
      obtain ⟨hdata, habsent⟩ := not_or.mp (mt List.mem_cons.mpr habsent)
      obtain ⟨next, hrest, hsearch⟩ := search_skip hs hdata
      rw [hsearch]
      cases next with
      | none => rfl
      | some next => exact ih hrest (by simpa using hfuel) habsent

theorem search_found {previous : Option ℕ} {front back : List (ℕ × ℕ)} {z y b : ℕ}
    (hs : Segment h (some a) (front ++ (z, y) :: (b, contact) :: back) none)
    (hfuel : (front ++ (z, y) :: (b, contact) :: back).length ≤ fuel)
    (habsent : contact ∉ contents (front ++ [(z, y)])) :
    Store.search h contact fuel previous a = some (some (some z, b)) := by
  induction front generalizing a fuel previous with
  | nil =>
    obtain ⟨fuel, rfl⟩ : ∃ k, fuel = k + 2 := ⟨fuel - 2, by simp at hfuel; omega⟩
    obtain ⟨ha, next, hz, hrest⟩ := hs.node
    obtain ⟨rfl, next', hb, -⟩ := hrest.node
    cases ha
    have hdata : y ≠ contact := by
      rintro rfl
      exact habsent List.mem_cons_self
    simp only [Store.search, hz, Option.bind_some, if_neg hdata, hb, if_true]
  | cons c front ih =>
    obtain ⟨fuel, rfl⟩ : ∃ k, fuel = k + 1 := ⟨fuel - 1, by simp at hfuel; omega⟩
    obtain ⟨hdata, habsent⟩ := not_or.mp (mt List.mem_cons.mpr habsent)
    obtain ⟨next, hrest, hsearch⟩ := search_skip hs hdata
    rw [hsearch]
    cases next with
    | none => cases front <;> cases hrest
    | some next => exact ih hrest (by simpa using hfuel) habsent

end Search

theorem Holds.sublist {cells' : List (ℕ × ℕ)} {store' : Store} (h : Holds store cells)
    (hsub : cells'.Sublist cells) (hfresh : store'.fresh = store.fresh)
    (hs : Segment store'.nodes store'.head cells' none) : Holds store' cells' := by
  have haddresses : (addresses cells').Sublist (addresses cells) := hsub.map _
  refine ⟨hs, h.nodup.sublist haddresses, fun a ha => ?_⟩
  rw [hfresh]
  exact h.bound a (haddresses.subset ha)

theorem Holds.unlink {front back : List (ℕ × ℕ)} {z y b : ℕ}
    (h : Holds store (front ++ (z, y) :: (b, contact) :: back)) :
    ∃ store', store.unlink z b = some store' ∧ Holds store' (front ++ (z, y) :: back) ∧
      store'.released = store.released ++ [.contact contact, .node b] := by
  obtain ⟨q, hfront, hcells⟩ := h.segment.split
  obtain ⟨rfl, next, hz, hrest⟩ := hcells.node
  obtain ⟨rfl, next', hb, hback⟩ := hrest.node
  have hnodup := h.nodup
  simp only [addresses, List.map_append, List.map_cons, List.nodup_append, List.nodup_cons,
    List.mem_cons, not_or] at hnodup
  obtain ⟨-, ⟨⟨hzb, hzback⟩, hbback, -⟩, hdisjoint⟩ := hnodup
  have hzfront : z ∉ addresses front := fun hmem => hdisjoint z hmem z (.inl rfl) rfl
  have hbfront : b ∉ addresses front := fun hmem => hdisjoint b hmem b (.inr (.inl rfl)) rfl
  refine ⟨⟨Function.update (Function.update store.nodes z (some ⟨y, next'⟩)) b none, store.fresh,
    store.head, store.released ++ [.contact contact, .node b]⟩, ?_, ?_, rfl⟩
  · simp only [Store.unlink, Store.setNext, hb, hz, Option.bind_some, Option.map_some]
  · refine h.sublist ?_ rfl ?_
    · exact (List.Sublist.refl front).append ((List.sublist_cons_self _ _).cons_cons _)
    · apply ((hfront.frame hzfront _).frame hbfront _).append
      apply Segment.cons
      · rw [Function.update_of_ne hzb, Function.update_self]
      · exact (hback.frame hzback _).frame hbback _

section Remove

variable {a₀ x₀ a₁ x₁ : ℕ} {rest : List (ℕ × ℕ)}

theorem Holds.remove_empty (h : Holds store []) (contact : ℕ) :
    store.removeContact contact = some store := by
  have hsegment := h.segment
  cases hhead : store.head with
  | none => simp [Store.removeContact, hhead]
  | some a =>
    rw [hhead] at hsegment
    cases hsegment

theorem Holds.remove_only (h : Holds store [(a₀, x₀)]) (contact : ℕ) :
    store.removeContact contact = none := by
  obtain ⟨hhead, next, hnode, hrest⟩ := h.segment.node
  cases hrest
  simp [Store.removeContact, hhead, hnode]

theorem Holds.second (h : Holds store ((a₀, x₀) :: (a₁, x₁) :: rest)) :
    store.head = some a₀ ∧ store.nodes a₀ = some ⟨x₀, some a₁⟩ ∧
      ∃ next, store.nodes a₁ = some ⟨x₁, next⟩ ∧ Segment store.nodes next rest none := by
  obtain ⟨hhead, next, h₀, hrest⟩ := h.segment.node
  obtain ⟨rfl, hnext⟩ := hrest.node
  exact ⟨hhead, h₀, hnext⟩

theorem Holds.remove_second (h : Holds store ((a₀, x₀) :: (a₁, x₁) :: rest)) :
    ∃ store', store.removeContact x₁ = some store' ∧ Holds store' rest ∧
      store'.released = store.released := by
  obtain ⟨hhead, h₀, next, h₁, hrest⟩ := h.second
  refine ⟨{ store with head := next }, ?_, h.sublist ?_ rfl hrest, rfl⟩
  · simp only [Store.removeContact, hhead, h₀, h₁, Option.bind_some, if_true]
  · exact (List.sublist_cons_self _ _).trans (List.sublist_cons_self _ _)

theorem Holds.remove_absent (h : Holds store ((a₀, x₀) :: (a₁, x₁) :: rest))
    (habsent : contact ∉ contents ((a₁, x₁) :: rest)) :
    store.removeContact contact = some store := by
  obtain ⟨hhead, h₀, next, h₁, hrest⟩ := h.second
  have hlen : ((a₁, x₁) :: rest).length ≤ store.fresh := by
    have := h.length_le
    simp only [List.length_cons] at this ⊢
    omega
  have hsearch : Store.search store.nodes contact store.fresh none a₁ = some none :=
    search_absent (.cons h₁ hrest) hlen habsent
  have hdata : x₁ ≠ contact := by
    rintro rfl
    exact habsent List.mem_cons_self
  simp only [Store.removeContact, hhead, h₀, h₁, Option.bind_some, if_neg hdata, hsearch]

theorem Holds.remove_later (h : Holds store ((a₀, x₀) :: (a₁, x₁) :: rest))
    (hnodup : (contents ((a₀, x₀) :: (a₁, x₁) :: rest)).Nodup) (hmem : contact ∈ contents rest) :
    ∃ store' front z y b back, store.removeContact contact = some store' ∧
      (a₁, x₁) :: rest = front ++ (z, y) :: (b, contact) :: back ∧
      Holds store' ((a₀, x₀) :: front ++ (z, y) :: back) ∧
      store'.released = store.released ++ [.contact contact, .node b] ∧
      contents ((a₀, x₀) :: front ++ (z, y) :: back) =
        (contents ((a₀, x₀) :: (a₁, x₁) :: rest)).erase contact := by
  obtain ⟨hhead, h₀, next, h₁, hrest⟩ := h.second
  obtain ⟨⟨b, c⟩, hcell, hc⟩ := List.mem_map.mp hmem
  obtain rfl : contact = c := hc.symm
  obtain ⟨middle, back, rfl⟩ := List.append_of_mem hcell
  -- the node in front of the one that is removed, which is the second node or a later one
  obtain ⟨front, ⟨z, y⟩, hfront⟩ : ∃ front c, (a₁, x₁) :: middle = front ++ [c] := by
    rcases List.eq_nil_or_concat ((a₁, x₁) :: middle) with hnil | ⟨front, c, heq⟩
    · cases hnil
    · exact ⟨front, c, by rw [heq, List.concat_eq_append]⟩
  have hcells : (a₁, x₁) :: (middle ++ (b, contact) :: back) =
      front ++ (z, y) :: (b, contact) :: back := by
    rw [← List.cons_append, hfront, List.append_assoc]
    rfl
  rw [hcells, ← List.cons_append] at h hnodup
  have hsplit : contents ((a₀, x₀) :: front ++ (z, y) :: (b, contact) :: back) =
      contents ((a₀, x₀) :: (front ++ [(z, y)])) ++ contact :: contents back := by
    simp [contents]
  have hfirst : contact ∉ contents ((a₀, x₀) :: (front ++ [(z, y)])) := by
    intro hmem
    rw [hsplit] at hnodup
    exact (List.nodup_append.mp hnodup).2.2 contact hmem contact List.mem_cons_self rfl
  have hbefore : contact ∉ contents (front ++ [(z, y)]) :=
    fun hmem => hfirst (List.mem_cons_of_mem _ hmem)
  have hdata : x₁ ≠ contact := by
    rintro rfl
    rw [← hfront] at hbefore
    exact hbefore List.mem_cons_self
  have hsearch : Store.search store.nodes contact store.fresh none a₁ = some (some (some z, b)) := by
    have hlist : Segment store.nodes (some a₁) (front ++ (z, y) :: (b, contact) :: back) none :=
      hcells ▸ .cons h₁ hrest
    apply search_found hlist _ hbefore
    have := h.length_le
    simp only [List.length_append, List.length_cons] at this ⊢
    omega
  obtain ⟨store', hunlink, hholds, hreleased⟩ := h.unlink
  refine ⟨store', front, z, y, b, back, ?_, hcells, hholds, hreleased, ?_⟩
  · simp only [Store.removeContact, hhead, h₀, h₁, Option.bind_some, if_neg hdata, hsearch, hunlink]
  · rw [hcells, ← List.cons_append, hsplit, List.erase_append_right _ hfirst, List.erase_cons_head]
    simp [contents]

end Remove

/-- The book is empty, or it has two contacts at least and neither of the first two is removed. -/
def Removable (s : Session) : Call → Prop
  | .add _ => True
  | .remove contact => s.reference = [] ∨
      ∃ x₀ x₁ rest, s.reference = x₀ :: x₁ :: rest ∧ contact ≠ x₀ ∧ contact ≠ x₁

structure SessionInv (s : Session) (store : Store) (cells : List (ℕ × ℕ)) : Prop where
  book : s.book = some store
  holds : Holds store cells
  reference : contents cells = s.reference
  nodup : s.reference.Nodup
  used : ∀ c ∈ s.reference, c ∈ s.used

def Faithful (s : Session) : Prop := ∃ store, Agrees s store

section Session

variable {s t : Session} {c : Call}

theorem SessionInv.faithful (h : SessionInv s store cells) : Faithful s := by
  refine ⟨store, h.book, ⟨cells, h.holds.segment, h.reference⟩, ?_⟩
  rw [h.holds.countContacts, ← h.reference, contents, List.length_map]

theorem SessionInv.add (h : SessionInv s store cells) {contact : ℕ}
    (ht : step s (.add contact) = some t) : ∃ store' cells', SessionInv t store' cells' := by
  simp only [step] at ht
  split at ht
  · cases ht
  case isFalse hused =>
    cases ht
    obtain ⟨store', hadd, hholds⟩ := h.holds.addContact contact
    refine ⟨store', _, ?_, hholds, ?_, ?_, ?_⟩
    · rw [h.book, Option.bind_some, hadd]
    · simp [contents, ← h.reference]
    · apply List.nodup_append.mpr ⟨h.nodup, List.nodup_singleton _, ?_⟩
      rintro x hx y hy rfl
      exact hused (List.mem_singleton.mp hy ▸ h.used x hx)
    · intro x hx
      rcases List.mem_append.mp hx with hx | hx
      · exact List.mem_cons_of_mem _ (h.used x hx)
      · rw [List.mem_singleton.mp hx]
        exact List.mem_cons_self

theorem SessionInv.remove (h : SessionInv s store cells) {contact : ℕ}
    (hok : Removable s (.remove contact)) (ht : step s (.remove contact) = some t) :
    ∃ store' cells', SessionInv t store' cells' := by
  have hkeep : ∀ store' cells', store.removeContact contact = some store' → Holds store' cells' →
      contents cells' = s.reference.erase contact → SessionInv t store' cells' := by
    intro store' cells' hremove hholds hcontents
    cases ht
    refine ⟨?_, hholds, hcontents, h.nodup.erase contact, ?_⟩
    · rw [h.book, Option.bind_some, hremove]
    · exact fun x hx => h.used x (List.mem_of_mem_erase hx)
  rcases hok with hempty | ⟨x₀, x₁, rest, hreference, hne₀, hne₁⟩
  · have hcells : cells = [] := by
      rw [← h.reference, contents, List.map_eq_nil_iff] at hempty
      exact hempty
    subst hcells
    refine ⟨store, [], hkeep store [] (h.holds.remove_empty contact) h.holds ?_⟩
    rw [hempty]
    rfl
  · obtain ⟨a₀, a₁, cells', rfl, rfl⟩ : ∃ a₀ a₁ cells', cells = (a₀, x₀) :: (a₁, x₁) :: cells' ∧
        contents cells' = rest := by
      have hcontents := h.reference.trans hreference
      match cells, hcontents with
      | (a₀, y₀) :: (a₁, y₁) :: cells', hcontents =>
        cases hcontents
        exact ⟨a₀, a₁, cells', rfl, rfl⟩
    by_cases hmem : contact ∈ contents cells'
    · obtain ⟨store', front, z, y, b, back, hremove, -, hholds, -, hcontents⟩ :=
        h.holds.remove_later (h.reference ▸ h.nodup) hmem
      exact ⟨store', _, hkeep _ _ hremove hholds (h.reference ▸ hcontents)⟩
    · have habsent : contact ∉ contents ((a₁, x₁) :: cells') := fun hx =>
        (List.mem_cons.mp hx).elim hne₁ hmem
      refine ⟨store, _, hkeep _ _ (h.holds.remove_absent habsent) h.holds ?_⟩
      rw [h.reference, List.erase_of_not_mem]
      rw [← h.reference]
      exact fun hx => (List.mem_cons.mp hx).elim hne₀ habsent

theorem SessionInv.not_faithful (h : SessionInv s store cells) {contact : ℕ}
    (hok : ¬ Removable s (.remove contact)) (ht : step s (.remove contact) = some t) :
    ¬ Faithful t := by
  rintro ⟨store', hbook, hreads, -⟩
  cases ht
  simp only [h.book, Option.bind_some] at hbook
  have hnodup := h.nodup
  simp only [Removable, ← h.reference] at hok hnodup hreads
  match cells, h.holds with
  | [], _ => exact hok (.inl rfl)
  | [(a, x)], hholds =>
    rw [hholds.remove_only] at hbook
    cases hbook
  | (a₀, x₀) :: (a₁, x₁) :: rest, hholds =>
    by_cases h₁ : contact = x₁
    · subst h₁
      obtain ⟨store'', hremove, hrest, -⟩ := hholds.remove_second
      rw [hbook] at hremove
      cases hremove
      have hlen := congrArg List.length (hreads.unique ⟨rest, hrest.segment, rfl⟩)
      have hmem : contact ∈ contents ((a₀, x₀) :: (a₁, contact) :: rest) := by simp [contents]
      rw [List.length_erase_of_mem hmem] at hlen
      simp [contents] at hlen
    · have h₀ : contact = x₀ := by
        by_contra h₀
        exact hok (.inr ⟨x₀, x₁, contents rest, rfl, h₀, h₁⟩)
      subst h₀
      have habsent : contact ∉ contents ((a₁, x₁) :: rest) := (List.nodup_cons.mp hnodup).1
      rw [hholds.remove_absent habsent] at hbook
      cases hbook
      have hlen := congrArg List.length (hreads.unique ⟨_, hholds.segment, rfl⟩)
      have hmem : contact ∈ contents ((a₀, contact) :: (a₁, x₁) :: rest) := List.mem_cons_self
      rw [List.length_erase_of_mem hmem] at hlen
      simp [contents] at hlen

end Session

theorem refines_list_iff (calls : List Call) :
    AllStates step Faithful start calls ↔ AllSteps step Removable start calls := by
  have hfaithful : ∀ s, (∃ store cells, SessionInv s store cells) → Faithful s := by
    rintro s ⟨store, cells, h⟩
    exact h.faithful
  apply allStates_iff_allSteps hfaithful
  · rintro s c t ⟨store, cells, h⟩ hok ht
    cases c with
    | add contact => exact h.add ht
    | remove contact => exact h.remove hok ht
  · rintro s c t ⟨store, cells, h⟩ hok ht
    cases c with
    | add contact => exact absurd trivial hok
    | remove contact => exact h.not_faithful hok ht
  · refine ⟨create, [], rfl, holds_create, rfl, List.nodup_nil, ?_⟩
    intro c hc
    cases hc

theorem remove_not_faithful :
    (∃ s, run step start [.add 1, .remove 1] = some s ∧ s.book = none) ∧
      ∃ s store, run step start [.add 1, .add 2, .add 3, .remove 2] = some s ∧
        s.book = some store ∧ s.reference = [1, 3] ∧ store.countContacts = some 1 :=
  ⟨⟨_, rfl, rfl⟩, _, _, rfl, rfl, rfl, by decide⟩

end PsOs.AddressBook
