import PsOs.LinkedLists
import PsOs.TransitionSystems

/-!
The list operations of `exercise01/task1/addressbook.c`. An operation that dereferences `NULL`
or a freed node has no result, and neither has a loop that does not end. Contacts are known by
their addresses; `malloc` succeeds and returns a new address.
-/

namespace PsOs.AddressBook

open LinkedLists

inductive Block where
  | node (address : ℕ)
  | contact (address : ℕ)
  deriving DecidableEq

structure Store where
  nodes : Heap ℕ
  fresh : ℕ
  head : Option ℕ
  released : List Block

def create : Store := ⟨fun _ => none, 0, none, []⟩

namespace Store

def mallocNode (s : Store) (node : Node ℕ) : Store :=
  { s with nodes := Function.update s.nodes s.fresh (some node), fresh := s.fresh + 1 }

def setNext (s : Store) (a : ℕ) (next : Option ℕ) : Option Store :=
  (s.nodes a).map fun node =>
    { s with nodes := Function.update s.nodes a (some { node with next }) }

def addContact (s : Store) (contact : ℕ) : Option Store :=
  let newNode := s.fresh
  let s := s.mallocNode ⟨contact, none⟩
  match s.head with
  | none => some { s with head := some newNode }
  | some head => (lastNode s.nodes s.fresh head).bind fun tmp => s.setNext tmp (some newNode)

def search (h : Heap ℕ) (contact : ℕ) : ℕ → Option ℕ → ℕ → Option (Option (Option ℕ × ℕ))
  | 0, _, _ => none
  | fuel + 1, previous, current => (h current).bind fun node =>
    if node.data = contact then some (some (previous, current))
    else
      match node.next with
      | none => some none
      | some next => search h contact fuel (some current) next

def unlink (s : Store) (previous current : ℕ) : Option Store :=
  (s.nodes current).bind fun node => (s.setNext previous node.next).map fun s =>
    { s with
      nodes := Function.update s.nodes current none
      released := s.released ++ [.contact node.data, .node current] }

def removeContact (s : Store) (contact : ℕ) : Option Store :=
  match s.head with
  | none => some s
  | some head =>
    (s.nodes head).bind fun headNode =>
    -- `current = address_book->head->next`, which is dereferenced without a test
    headNode.next.bind fun current =>
    (s.nodes current).bind fun node =>
      if node.data = contact then some { s with head := node.next }
      else (search s.nodes contact s.fresh none current).bind fun found =>
        match found with
        | none => some s
        | some (previous, current) => previous.bind fun previous => s.unlink previous current

def countContacts (s : Store) : Option ℕ :=
  match s.head with
  | none => some 0
  | some head => countFrom s.nodes s.fresh head 1

end Store

inductive Call where
  | add (contact : ℕ)
  | remove (contact : ℕ)

/-- The book beside the list that it is to hold; `used` lists the contacts that have been added. -/
structure Session where
  book : Option Store
  reference : List ℕ
  used : List ℕ

def start : Session := ⟨some create, [], []⟩

/-- No contact is added twice. -/
def step (s : Session) : Call → Option Session
  | .add contact =>
    if contact ∈ s.used then none
    else some ⟨s.book.bind (·.addContact contact), s.reference ++ [contact], contact :: s.used⟩
  | .remove contact =>
    some { s with
      book := s.book.bind (·.removeContact contact)
      reference := s.reference.erase contact }

structure Agrees (s : Session) (store : Store) : Prop where
  book : s.book = some store
  reads : Reads store.nodes store.head s.reference
  count : store.countContacts = some s.reference.length

end PsOs.AddressBook
