import CompressedLedger.Bytes.Fixed
import CompressedLedger.Error

/-!
# Trees and their successors

A tree of leaves or of addresses is known by its accounts: the tree itself, its queue, its kind and
perhaps a context account.  A full tree is rolled over to a successor, so what a client knows is a
chain: the tree it started from and the successors in order.  New leaves go to the last one, the
active tree.
-/

namespace CompressedLedger

/-- What a tree holds and how it is appended to. -/
inductive TreeKind where
  | stateV1
  | addressV1
  | stateV2
  | addressV2
deriving DecidableEq, Repr

namespace TreeKind

/-- The number that stands for a kind. -/
def tag : TreeKind → Nat
  | stateV1 => 1
  | addressV1 => 2
  | stateV2 => 3
  | addressV2 => 4

/-- The kind a number stands for. -/
def ofTag : Nat → Except Error TreeKind
  | 1 => .ok stateV1
  | 2 => .ok addressV1
  | 3 => .ok stateV2
  | 4 => .ok addressV2
  | _ => .error .malformedResponse

/-- Whether the tree holds account hashes. -/
def isState : TreeKind → Bool
  | stateV1 | stateV2 => true
  | addressV1 | addressV2 => false

/-- Whether the tree holds addresses. -/
def isAddress (k : TreeKind) : Bool := !k.isState

/-- Whether the tree is appended to through its queue, in batches. -/
def isBatched : TreeKind → Bool
  | stateV2 | addressV2 => true
  | stateV1 | addressV1 => false

/-- The kind of state tree that new accounts go to where none is asked for. -/
def defaultState : TreeKind := stateV1

@[simp] theorem ofTag_tag (k : TreeKind) : ofTag k.tag = .ok k := by cases k <;> rfl

end TreeKind

/-- The accounts of one tree. -/
structure TreeAccounts where
  tree : Pubkey
  queue : Pubkey
  kind : TreeKind
  cpiContext : Option Pubkey
deriving DecidableEq

/-- The account that new leaves are written to: the queue of a batched state tree, and the tree
itself otherwise. -/
def TreeAccounts.output (t : TreeAccounts) : Pubkey :=
  if t.kind = .stateV2 then t.queue else t.tree

/-- A tree and its successors in the order of their rollover. -/
structure TreeChain where
  first : TreeAccounts
  successors : List TreeAccounts
deriving DecidableEq

namespace TreeChain

/-- A tree that has not been rolled over. -/
def single (t : TreeAccounts) : TreeChain := ⟨t, []⟩

/-- All trees of a chain, oldest first. -/
def toList (c : TreeChain) : List TreeAccounts := c.first :: c.successors

/-- The tree that takes new leaves: the last of the chain. -/
def active (c : TreeChain) : TreeAccounts := c.successors.getLastD c.first

/-- Whether the tree has a successor. -/
def isRolledOver (c : TreeChain) : Bool := !c.successors.isEmpty

/-- Whether a key is the chain's first tree or its queue. -/
def hasKey (c : TreeChain) (key : Pubkey) : Bool :=
  c.first.tree == key || c.first.queue == key

/-- The first chain a key belongs to. -/
def lookup (chains : List TreeChain) (key : Pubkey) : Except Error TreeChain :=
  match chains.find? (·.hasKey key) with
  | some c => .ok c
  | none => .error .unknownTree

theorem active_eq_getLast (c : TreeChain) :
    c.active = c.toList.getLast (List.cons_ne_nil c.first c.successors) :=
  (List.getLast_eq_getLastD _).symm

end TreeChain

end CompressedLedger
