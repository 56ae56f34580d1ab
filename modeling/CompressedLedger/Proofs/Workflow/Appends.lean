import CompressedLedger.Proofs.Account.Inclusion
import CompressedLedger.Proofs.Checks
import CompressedLedger.Workflow.Transfer

/-!
# Runs that append to a tree

A run of leaves stops at the first one that is refused, for lack of room or because it encodes no
scalar (`judged_appendAll`).  A run of accounts hashes each of them at the next index before it
appends the hash, so it stops at the first one that has no leaf hash or finds no room
(`judged_appendAccounts`).

What a run of accounts has done when it reaches its end is `Appends`, step by step.  From it follows
what the tree holds in the end (`Appends.represents`), where each account stands
(`Appends.placed`) and which root came after it (`Appends.root_eq`).  An account that was appended
stays where it is and as it is, so checking it against the tree at the end succeeds in both respects
(`Appends.mapM_checkAccount`).
-/

namespace CompressedLedger.Workflow

open Merkle MerkleTree

variable {chain : TreeChain} {t u : MerkleTree} {stored : List Scalar}
  {accounts : List (Account × Bool)} {appended : List AppendedAccount}

/-! ### Checks -/

/-- Whether a tree of a depth has a position. -/
def roomCheck (depth position : ℕ) : Check := ⟨position < 2 ^ depth, .treeFull⟩

/-- What is asked of a leaf that is appended at a position. -/
def leafChecks (depth : ℕ) (leaf : Hash × ℕ) : List Check :=
  [roomCheck depth leaf.2, ⟨leaf.1.toNat < Scalar.modulus, .scalarOutOfRange⟩]

/-- What is asked of an account that is hashed and appended at a position. -/
def accountChecks (depth : ℕ) (account : (Account × Bool) × ℕ) : List Check :=
  [⟨¬account.1.1.Oversized, .poseidonInput⟩, roomCheck depth account.2]

theorem roomCheck_holds_iff (ht : t.Represents stored) :
    (roomCheck t.depth t.size).Holds ↔ t.isFull = false := by
  rw [ht.isFull_eq_false_iff, ← ht.size_eq]
  rfl

/-! ### Leaves -/

theorem appendAll_cons (t : MerkleTree) (leaf : Hash) (rest : List Hash) :
    appendAll t (leaf :: rest) = appendAll t [leaf] >>= fun u => appendAll u rest := by
  unfold appendAll
  rw [← List.singleton_append, List.foldlM_append]

/-- A run of one leaf makes the checks of an append and gives the tree after it. -/
theorem judged_appendAll_singleton (ht : t.Represents stored) (leaf : Hash) :
    Judged (appendAll t [leaf]) (leafChecks t.depth (leaf, t.size)) fun u =>
      t.accepted [leaf] = [leaf] ∧ u = t.appendEach [leaf] := by
  have hroom := roomCheck_holds_iff ht
  unfold appendAll
  rw [List.foldlM_cons]
  rcases t.append_cases leaf with ⟨hfull, hcall⟩ | ⟨hfull, hle, hcall⟩ | ⟨hfull, a, rfl, hcall⟩
  · have hnone : t.accepted [leaf] = [] := by rw [accepted, hcall]; rfl
    rw [hcall]
    refine Judged.of_error (FirstFailure.here ?_) fun u hu => ?_
    · rw [hroom, hfull]
      exact Bool.true_eq_false_eq_False
    · rw [hnone] at hu
      exact List.cons_ne_nil _ _ hu.1.symm
  · have hnone : t.accepted [leaf] = [] := by rw [accepted, hcall]; rfl
    rw [hcall]
    have hrefused : FirstFailure (leafChecks t.depth (leaf, t.size)) .scalarOutOfRange :=
      FirstFailure.later (hroom.mpr hfull) (FirstFailure.here (Nat.not_lt_of_le hle))
    refine Judged.of_error hrefused fun u hu => ?_
    rw [hnone] at hu
    exact List.cons_ne_nil _ _ hu.1.symm
  · have hone : t.accepted [a.toHash] = [a.toHash] := by rw [accepted, hcall]; rfl
    have hafter : t.appendEach [a.toHash] = t.push a := congrArg Prod.snd hcall
    rw [hcall, hafter]
    refine Judged.of_ok ?_ fun u => and_iff_right hone
    rw [leafChecks, List.forall_mem_cons, List.forall_mem_singleton]
    refine ⟨hroom.mpr hfull, ?_⟩
    show a.toHash.toNat < Scalar.modulus
    rw [Scalar.toNat_toHash]
    exact a.isLt

/-- A run of leaves makes the checks of all its appends, and succeeds if every one is accepted. -/
theorem judged_appendAll (ht : t.Represents stored) (leaves : List Hash) :
    Judged (appendAll t leaves) ((leaves.zipIdx t.size).flatMap (leafChecks t.depth)) fun u =>
      t.accepted leaves = leaves ∧ u = t.appendEach leaves := by
  induction leaves generalizing t stored with
  | nil => exact (judged_pure t).congr fun u => (and_iff_right rfl).symm
  | cons leaf rest ih =>
    have hrest : ∀ u, t.accepted [leaf] = [leaf] ∧ u = t.appendEach [leaf] →
        Judged (appendAll u rest) ((rest.zipIdx (t.size + 1)).flatMap (leafChecks t.depth))
          fun v => u.accepted rest = rest ∧ v = u.appendEach rest := by
      rintro u ⟨hone, rfl⟩
      obtain ⟨new, -, hnext⟩ := ht.appendEach [leaf]
      have hrun := ih hnext
      rwa [ht.size_appendEach, hone, List.length_singleton, depth_appendEach] at hrun
    rw [appendAll_cons, List.zipIdx_cons, List.flatMap_cons]
    refine ((judged_appendAll_singleton ht leaf).bind hrest).congr fun v => ?_
    have hsplit := @accepted_cons_eq_self_iff t leaf rest
    rw [hsplit]
    constructor
    · rintro ⟨u, ⟨hone, rfl⟩, hothers, rfl⟩
      exact ⟨⟨hone, hothers⟩, rfl⟩
    · rintro ⟨⟨hone, hothers⟩, rfl⟩
      exact ⟨_, ⟨hone, rfl⟩, hothers, rfl⟩

/-! ### One account -/

/-- An account that is hashed at the next index and appended there. -/
def appendedNext (t : MerkleTree) (chain : TreeChain) (account : Account) (readOnly : Bool)
    (leaf : Scalar) : AppendedAccount :=
  ⟨⟨account, ⟨leaf, chain, UInt32.ofNat t.size, false⟩, readOnly⟩, leaf, (t.push leaf).root⟩

theorem appendAccount_of_full (hfull : t.isFull = true) (chain : TreeChain) (account : Account)
    (readOnly : Bool) :
    appendAccount t chain account readOnly =
      account.leafHash chain.first.tree (UInt32.ofNat t.size) chain.first.kind.isBatched >>=
        fun _ => .error .treeFull := by
  unfold appendAccount
  apply bind_congr
  intro leaf
  have hcall : t.append leaf.toHash = (.error .treeFull, t) := if_pos hfull
  rw [hcall]

theorem appendAccount_of_room (ht : t.Represents stored) (hroom : t.isFull = false)
    (chain : TreeChain) (account : Account) (readOnly : Bool) :
    appendAccount t chain account readOnly =
      account.leafHash chain.first.tree (UInt32.ofNat t.size) chain.first.kind.isBatched >>=
        fun leaf => .ok (appendedNext t chain account readOnly leaf, t.push leaf) := by
  unfold appendAccount
  apply bind_congr
  intro leaf
  -- the leaf just stored is found at its index
  have hcontext : (t.push leaf).context (UInt32.ofNat t.size) chain =
      .ok ⟨leaf, chain, UInt32.ofNat t.size, false⟩ := by
    rw [context, ht.leaf?_push hroom leaf]
  rw [append_toHash hroom]
  show (t.push leaf).context (UInt32.ofNat t.size) chain >>= _ = _
  rw [hcontext]
  rfl

/-- The account is hashed before the tree is asked for room, and nothing else can fail. -/
theorem judged_appendAccount (ht : t.Represents stored) (chain : TreeChain)
    (account : Account × Bool) :
    Judged (appendAccount t chain account.1 account.2) (accountChecks t.depth (account, t.size))
      fun out => t.isFull = false ∧ ∃ leaf,
        account.1.leafHash chain.first.tree (UInt32.ofNat t.size) chain.first.kind.isBatched =
          .ok leaf ∧ out = (appendedNext t chain account.1 account.2 leaf, t.push leaf) := by
  have hhash : Judged (account.1.leafHash chain.first.tree (UInt32.ofNat t.size)
      chain.first.kind.isBatched) [⟨¬account.1.Oversized, .poseidonInput⟩] _ :=
    Judged.of_eq_error_iff fun e => Account.leafHash_eq_error_iff
  have hplace := roomCheck_holds_iff ht
  by_cases hfull : t.isFull = true
  · have herror : Judged (.error .treeFull : Except Error (AppendedAccount × MerkleTree))
        [roomCheck t.depth t.size] fun _ => False := by
      refine Judged.of_error (FirstFailure.here ?_) fun _ hout => hout
      rw [hplace, hfull]
      exact Bool.true_eq_false_eq_False
    rw [appendAccount_of_full hfull]
    refine (hhash.bind fun _ _ => herror).congr fun out => ?_
    simp [hfull]
  · have hroom := Bool.eq_false_of_not_eq_true hfull
    have hok : ∀ leaf, Judged (.ok (appendedNext t chain account.1 account.2 leaf, t.push leaf))
        [roomCheck t.depth t.size] (· = (appendedNext t chain account.1 account.2 leaf,
          t.push leaf)) := fun leaf =>
      Judged.of_ok (List.forall_mem_singleton.mpr (hplace.mpr hroom)) fun _ => Iff.rfl
    rw [appendAccount_of_room ht hroom]
    exact (hhash.bind fun leaf _ => hok leaf).congr fun out => (and_iff_right hroom).symm

/-! ### Many accounts -/

/-- What a run of accounts has done: each had a leaf hash at the next index and was appended
there. -/
inductive Appends (chain : TreeChain) :
    MerkleTree → List (Account × Bool) → List AppendedAccount → MerkleTree → Prop
  | nil (t : MerkleTree) : Appends chain t [] [] t
  | cons {t u : MerkleTree} {account : Account × Bool} {leaf : Scalar}
      {rest : List (Account × Bool)} {others : List AppendedAccount} (hroom : t.isFull = false)
      (hleaf : account.1.leafHash chain.first.tree (UInt32.ofNat t.size)
        chain.first.kind.isBatched = .ok leaf)
      (hrest : Appends chain (t.push leaf) rest others u) :
      Appends chain t (account :: rest)
        (appendedNext t chain account.1 account.2 leaf :: others) u

theorem appendAccounts_cons (chain : TreeChain) (t : MerkleTree) (account : Account × Bool)
    (rest : List (Account × Bool)) :
    appendAccounts chain t (account :: rest) =
      appendAccount t chain account.1 account.2 >>= fun first =>
        (fun others => (first.1 :: others.1, others.2)) <$> appendAccounts chain first.2 rest :=
  rfl

/-- A run of accounts makes the checks of each of them in turn. -/
theorem judged_appendAccounts (ht : t.Represents stored) (chain : TreeChain)
    (accounts : List (Account × Bool)) :
    Judged (appendAccounts chain t accounts)
      ((accounts.zipIdx t.size).flatMap (accountChecks t.depth))
      fun out => Appends chain t accounts out.1 out.2 := by
  induction accounts generalizing t stored with
  | nil =>
    refine (judged_pure ([], t)).congr fun out => ?_
    constructor
    · rintro rfl
      exact Appends.nil t
    · rintro h
      obtain ⟨others, u⟩ := out
      cases h
      rfl
  | cons account rest ih =>
    have hrest : ∀ first, (t.isFull = false ∧ ∃ leaf,
        account.1.leafHash chain.first.tree (UInt32.ofNat t.size) chain.first.kind.isBatched =
          .ok leaf ∧ first = (appendedNext t chain account.1 account.2 leaf, t.push leaf)) →
        Judged ((fun others => (first.1 :: others.1, others.2)) <$>
          appendAccounts chain first.2 rest)
          ((rest.zipIdx (t.size + 1)).flatMap (accountChecks t.depth)) fun out =>
            ∃ others : List AppendedAccount × MerkleTree,
              Appends chain first.2 rest others.1 others.2 ∧
                out = (first.1 :: others.1, others.2) := by
      rintro first ⟨hroom, leaf, -, rfl⟩
      have hrun := ih (ht.push (ht.isFull_eq_false_iff.mp hroom) leaf)
      rw [ht.size_push hroom] at hrun
      exact hrun.map _
    rw [appendAccounts_cons, List.zipIdx_cons, List.flatMap_cons]
    refine ((judged_appendAccount ht chain account).bind hrest).congr fun out => ?_
    constructor
    · rintro ⟨first, ⟨hroom, leaf, hleaf, rfl⟩, others, hothers, rfl⟩
      exact Appends.cons hroom hleaf hothers
    · intro h
      obtain ⟨all, u⟩ := out
      cases h with
      | cons hroom hleaf hothers =>
        exact ⟨_, ⟨hroom, _, hleaf, rfl⟩, (_, u), hothers, rfl⟩

namespace Appends

/-- The tree at the end holds the new leaves behind the old ones. -/
theorem represents (h : Appends chain t accounts appended u) (ht : t.Represents stored) :
    u.Represents (stored ++ appended.map (·.leaf)) := by
  induction h generalizing stored with
  | nil t => rwa [List.map_nil, List.append_nil]
  | @cons t u account leaf rest others hroom hleaf hrest ih =>
    have hall := ih (ht.push (ht.isFull_eq_false_iff.mp hroom) leaf)
    rwa [List.append_assoc] at hall

/-- No account that follows moves or changes a leaf. -/
theorem leaf?_eq (h : Appends chain t accounts appended u) (ht : t.Represents stored)
    {index : UInt32} {leaf : Scalar} (hleaf : t.leaf? index = some leaf) :
    u.leaf? index = some leaf :=
  ht.leaf?_of_append (h.represents ht) hleaf

end Appends

/-- The account was hashed at the position, and its place has that hash and that index. -/
structure PlacedAt (chain : TreeChain) (account : (Account × Bool) × ℕ) (a : AppendedAccount) :
    Prop where
  account_eq : a.located.account = account.1.1
  readOnly_eq : a.located.readOnly = account.1.2
  context_eq : a.located.context = ⟨a.leaf, chain, UInt32.ofNat account.2, false⟩
  leafHash_eq : account.1.1.leafHash chain.first.tree (UInt32.ofNat account.2)
    chain.first.kind.isBatched = .ok a.leaf

/-- The account hashes to what its place says, and the tree has that leaf there. -/
structure StandsIn (chain : TreeChain) (t : MerkleTree) (a : AppendedAccount) : Prop where
  chain_eq : a.located.context.chain = chain
  verifyHash_eq : a.located.verifyHash = .ok true
  leaf?_eq : t.leaf? a.located.context.leafIndex = some a.leaf

/-- Where an account stands, it passes both checks. -/
theorem StandsIn.checkAccount_eq {a : AppendedAccount} (h : StandsIn chain t a)
    (ht : t.Represents stored) : checkAccount t a = .ok ⟨true, true⟩ := by
  obtain ⟨siblings, hpath, -, hverify⟩ := ht.verify_path h.leaf?_eq
  unfold checkAccount
  rw [h.verifyHash_eq]
  show t.path a.located.context.leafIndex >>= _ = _
  rw [hpath]
  show verify _ _ _ _ >>= _ = _
  rw [hverify]
  rfl

namespace Appends

/-- The accounts stand one behind the other from the first free position on. -/
theorem placed (h : Appends chain t accounts appended u) (ht : t.Represents stored) :
    List.Forall₂ (PlacedAt chain) (accounts.zipIdx t.size) appended := by
  induction h generalizing stored with
  | nil t => exact List.Forall₂.nil
  | @cons t u account leaf rest others hroom hleaf hrest ih =>
    have hothers := ih (ht.push (ht.isFull_eq_false_iff.mp hroom) leaf)
    rw [ht.size_push hroom] at hothers
    rw [List.zipIdx_cons]
    exact List.Forall₂.cons ⟨rfl, rfl, rfl, hleaf⟩ hothers

theorem standsIn (h : Appends chain t accounts appended u) (ht : t.Represents stored) :
    ∀ a ∈ appended, StandsIn chain u a := by
  induction h generalizing stored with
  | nil t => exact List.forall_mem_nil _
  | @cons t u account leaf rest others hroom hleaf hrest ih =>
    have hnext := ht.push (ht.isFull_eq_false_iff.mp hroom) leaf
    rw [List.forall_mem_cons]
    refine ⟨⟨rfl, ?_, ?_⟩, ih hnext⟩
    · exact LocatedAccount.verifyHash_eq_ok_true_iff.mpr hleaf
    · exact hrest.leaf?_eq hnext (ht.leaf?_push hroom leaf)

/-- Checked against the tree at the end, every account passes. -/
theorem mapM_checkAccount (h : Appends chain t accounts appended u) (ht : t.Represents stored) :
    appended.mapM (checkAccount u) = .ok (List.replicate appended.length ⟨true, true⟩) := by
  rw [← List.map_const', Except.mapM_eq_ok_iff, List.forall₂_map_right_iff, List.forall₂_same]
  intro a ha
  exact (h.standsIn ht a ha).checkAccount_eq (h.represents ht)

/-- The root after an account is the one over all leaves up to its own. -/
theorem root_eq (h : Appends chain t accounts appended u) (ht : t.Represents stored)
    {before after : List AppendedAccount} {a : AppendedAccount}
    (hsplit : appended = before ++ a :: after) :
    rootFromLeaves (fun p => ((stored ++ (before ++ [a]).map (·.leaf)).map Scalar.toHash).getD p
      FixedBytes.zero) t.depth 0 = .ok a.root.toHash := by
  induction h generalizing stored before with
  | nil t => simp at hsplit
  | @cons t u account leaf rest others hroom hleaf hrest ih =>
    have hnext := ht.push (ht.isFull_eq_false_iff.mp hroom) leaf
    rcases before with - | ⟨b, before⟩
    · obtain ⟨rfl, -⟩ := List.cons.inj hsplit
      exact hnext.rootFromLeaves_root
    · obtain ⟨rfl, hothers⟩ := List.cons.inj hsplit
      have hlater := ih hnext hothers
      rwa [List.append_assoc] at hlater

end Appends

end CompressedLedger.Workflow
