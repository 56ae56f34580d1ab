import CompressedLedger.Proofs.Packing.CoinSelection
import CompressedLedger.Proofs.Packing.Inputs
import CompressedLedger.Proofs.Workflow.Appends

/-!
# Runs of a transfer

A transfer makes a tree, appends leaves and accounts, checks all accounts against the tree, chooses
some of them and packs these (`transfer_eq`).  Each stage makes its own checks of what was given to
the run, so they can be listed before it starts (`transferChecks`).  Checking the accounts adds
nothing to the list, since accounts that were appended always pass; and as all of them belong to one
chain of trees, whatever is chosen, the table of keys grows by no more than the chain's tree and
queue and the output (`judged_pay`).

A transfer fails exactly with the cause of the first of these checks that does not hold.  If all of
them hold, it gives what `Settled` says (`transfer_exact`).
-/

namespace CompressedLedger.Workflow

open Coins KeyTable Merkle MerkleTree Packer

/-! ### The keys of the chosen accounts -/

/-- The keys that the inputs of a transfer name: the tree and its queue, if anything is sent. -/
def inputKeys (chain : TreeChain) (amount : UInt64) : List Pubkey :=
  if amount = 0 then [] else [chain.first.tree, chain.first.queue]

/-- The keys that a transfer names: those of its inputs and the output. -/
def transferKeys (chain : TreeChain) (amount : UInt64) : List Pubkey :=
  inputKeys chain amount ++ [chain.active.output]

section Chosen

variable {chain : TreeChain} {amount : UInt64} {chosen : List LocatedAccount}

/-- After the first input no other has keys of its own. -/
theorem flatMap_ownKeys_eq (hchain : ∀ a ∈ chosen, a.context.chain = chain)
    (hnone : chosen = [] ↔ amount = 0) :
    ∃ again ⊆ inputKeys chain amount,
      chosen.flatMap (·.ownKeys) = inputKeys chain amount ++ again := by
  have hown : ∀ a ∈ chosen, a.ownKeys = [chain.first.tree, chain.first.queue] := by
    intro a ha
    rw [LocatedAccount.ownKeys, hchain a ha]
  unfold inputKeys
  split_ifs with hamount
  · rw [hnone.mpr hamount]
    exact ⟨[], List.Subset.refl [], rfl⟩
  · obtain ⟨a, rest, rfl⟩ := List.exists_cons_of_ne_nil (mt hnone.mp hamount)
    rw [List.forall_mem_cons] at hown
    refine ⟨rest.flatMap (·.ownKeys), ?_, ?_⟩
    · intro key hkey
      obtain ⟨b, hb, hmem⟩ := List.mem_flatMap.mp hkey
      rwa [hown.2 b hb] at hmem
    · rw [List.flatMap_cons, hown.1]

theorem extend_packedKeys (hchain : ∀ a ∈ chosen, a.context.chain = chain)
    (hnone : chosen = [] ↔ amount = 0) (keys : List Pubkey) :
    extend keys (packedKeys chosen chain.active.output) =
      extend keys (transferKeys chain amount) := by
  obtain ⟨again, hagain, hkeys⟩ := flatMap_ownKeys_eq hchain hnone
  rw [packedKeys, transferKeys, hkeys, extend_append, extend_append_of_subset hagain,
    ← extend_append]

theorem fits_packedKeys_iff (hchain : ∀ a ∈ chosen, a.context.chain = chain)
    (hnone : chosen = [] ↔ amount = 0) {table : List Pubkey} :
    Fits table (packedKeys chosen chain.active.output) ↔
      Fits table (transferKeys chain amount) := by
  obtain ⟨again, hagain, hkeys⟩ := flatMap_ownKeys_eq hchain hnone
  rw [packedKeys, transferKeys, hkeys, fits_append_iff, fits_append_iff, fits_append_iff]
  exact and_congr_left fun _ => and_iff_left_of_imp fun hfits => hfits.mono hagain

/-- The keys of an input are among those that the whole transfer names. -/
theorem ownKeys_subset (hchain : ∀ a ∈ chosen, a.context.chain = chain)
    (hnone : chosen = [] ↔ amount = 0) {a : LocatedAccount} (ha : a ∈ chosen) :
    a.ownKeys ⊆ transferKeys chain amount := by
  obtain ⟨again, hagain, hkeys⟩ := flatMap_ownKeys_eq hchain hnone
  intro key hkey
  have hmem : key ∈ inputKeys chain amount ++ again := by
    rw [← hkeys]
    exact List.mem_flatMap_of_mem ha hkey
  rcases List.mem_append.mp hmem with hfirst | hlater
  · exact List.mem_append_left _ hfirst
  · exact List.mem_append_left _ (hagain hlater)

end Chosen

/-! ### The run in stages -/

/-- Root indices for some accounts, counted from zero. -/
def rootIndices (count : ℕ) : List UInt16 := (List.range count).map UInt16.ofNat

/-- What a transfer does with a choice: it packs the accounts. -/
def pay (chain : TreeChain) (keys : List Pubkey) (appended : List AppendedAccount)
    (checks : List LeafCheck) (choice : List LocatedAccount × UInt64) : Except Error Transfer := do
  let (packed, keys) ← pack (packAccounts choice.1 (rootIndices choice.1.length) chain) keys
  return ⟨appended, checks, choice.2, packed, keys⟩

/-- What a transfer does once all accounts are in the tree. -/
def settle (chain : TreeChain) (amount : UInt64) (keys : List Pubkey)
    (out : List AppendedAccount × MerkleTree) : Except Error Transfer := do
  let checks ← out.1.mapM (checkAccount out.2)
  select (out.1.map (·.located)) amount >>= pay chain keys out.1 checks

theorem transfer_eq (depth : ℕ) (chain : TreeChain) (leaves : List Hash)
    (accounts : List (Account × Bool)) (amount : UInt64) (keys : List Pubkey) :
    transfer depth chain leaves accounts amount keys =
      MerkleTree.empty depth >>= fun start => appendAll start leaves >>= fun t =>
        appendAccounts chain t accounts >>= settle chain amount keys :=
  rfl

/-- Whether the keys that a transfer names have bytes for positions. -/
def keyCheck (chain : TreeChain) (amount : UInt64) (keys : List Pubkey) : Check :=
  ⟨Fits (extend keys (transferKeys chain amount)) (transferKeys chain amount), .tooManyKeys⟩

/-- What a transfer asks of its inputs, in order. -/
def transferChecks (depth : ℕ) (chain : TreeChain) (leaves : List Hash)
    (accounts : List (Account × Bool)) (amount : UInt64) (keys : List Pubkey) : List Check :=
  [⟨1 ≤ depth ∧ depth ≤ 32, .treeDepth⟩] ++ (leaves.zipIdx.flatMap (leafChecks depth) ++
    ((accounts.zipIdx leaves.length).flatMap (accountChecks depth) ++
      (choiceChecks (accounts.map fun a => a.1.lamports.toNat) amount.toNat ++
        [keyCheck chain amount keys])))

/-- What a transfer gives.  The accounts stand one behind the other after the leaves, each with the
root over all leaves up to its own, and pass both checks.  The fewest that reach the amount are
packed with root indices counted from zero, and all positions lead back to the keys in the table. -/
structure Settled (depth : ℕ) (chain : TreeChain) (leaves : List Hash)
    (accounts : List (Account × Bool)) (amount : UInt64) (keys : List Pubkey) (r : Transfer) :
    Prop where
  placed : List.Forall₂ (PlacedAt chain) (accounts.zipIdx leaves.length) r.appended
  root_eq : ∀ before a after, r.appended = before ++ a :: after →
    rootFromLeaves (fun p => (leaves ++ (before ++ [a]).map (·.leaf.toHash)).getD p
      FixedBytes.zero) depth 0 = .ok a.root.toHash
  checks_eq : r.checks = List.replicate accounts.length ⟨true, true⟩
  keys_eq : r.keys = extend keys (transferKeys chain amount)
  exists_chosen : ∃ chosen, IsFewest (r.appended.map (·.located)) amount (chosen, r.total) ∧
    List.Forall₂ (LocatedAccount.PackedIn r.keys)
      (chosen.zip (rootIndices chosen.length)) r.packed.inputs
  output : Names r.keys r.packed.outputIndex chain.active.output

/-! ### The stages -/

section Stages

variable {depth : ℕ} {chain : TreeChain} {start t u : MerkleTree} {stored : List Scalar}
  {leaves : List Hash} {accounts : List (Account × Bool)} {appended : List AppendedAccount}

theorem judged_empty (depth : ℕ) :
    Judged (MerkleTree.empty depth) [⟨1 ≤ depth ∧ depth ≤ 32, .treeDepth⟩]
      (MerkleTree.empty depth = .ok ·) := by
  refine Judged.single (fun _ => Iff.rfl) ?_ ?_
  · intro e he
    unfold MerkleTree.empty at he
    split_ifs at he
    cases he
    rfl
  · constructor
    · rintro ⟨hmin, hmax⟩
      exact empty_eq_ok hmin hmax
    · rintro ⟨start, hstart⟩
      unfold MerkleTree.empty at hstart
      split_ifs at hstart with hdepth
      exact hdepth

/-- On an empty tree the leaves take the first positions. -/
theorem judged_appendAll_empty (hstart : MerkleTree.empty depth = .ok start) (leaves : List Hash) :
    Judged (appendAll start leaves) (leaves.zipIdx.flatMap (leafChecks depth)) fun t =>
      start.accepted leaves = leaves ∧ t = start.appendEach leaves := by
  have hempty := Represents.empty hstart
  have happend := judged_appendAll hempty leaves
  rwa [hempty.size_eq, depth_of_empty_eq_ok hstart] at happend

/-- Once all leaves are accepted, the tree holds what they encode. -/
theorem exists_represents_of_accepted (hstart : MerkleTree.empty depth = .ok start)
    (haccepted : start.accepted leaves = leaves) :
    ∃ stored : List Scalar, leaves = stored.map Scalar.toHash ∧
      (start.appendEach leaves).Represents stored ∧
        (start.appendEach leaves).size = leaves.length := by
  obtain ⟨stored, hstored, ht⟩ := exists_represents_accepted hstart leaves
  rw [haccepted] at hstored
  refine ⟨stored, hstored, ht, ?_⟩
  rw [ht.size_eq, hstored, List.length_map]

/-- The amounts to choose from are those of the accounts that were to be appended. -/
theorem Appends.map_lamports (h : Appends chain t accounts appended u) (ht : t.Represents stored) :
    (appended.map (·.located)).map (·.lamports.toNat) =
      accounts.map fun a => a.1.lamports.toNat := by
  have hsame : ∀ (p : (Account × Bool) × ℕ) (a : AppendedAccount), PlacedAt chain p a →
      a.located.lamports.toNat = p.1.1.lamports.toNat := by
    intro p a hp
    rw [LocatedAccount.lamports, hp.account_eq]
  have hamounts := map_eq_of_forall₂ (h.placed ht) hsame
  have haccounts : (accounts.zipIdx t.size).map Prod.fst = accounts := List.zipIdx_map_fst _ _
  rw [List.map_map]
  conv_rhs => rw [← haccounts, List.map_map]
  exact hamounts

/-- Whatever is chosen belongs to the one chain of the run. -/
theorem Appends.chain_eq (h : Appends chain t accounts appended u) (ht : t.Represents stored)
    {amount : UInt64} {choice : List LocatedAccount × UInt64}
    (hchoice : IsFewest (appended.map (·.located)) amount choice) :
    ∀ a ∈ choice.1, a.context.chain = chain := by
  intro a ha
  obtain ⟨b, hb, rfl⟩ := List.mem_map.mp (hchoice.subset ha)
  exact (h.standsIn ht b hb).chain_eq

/-- The result of a transfer in terms of the accounts that were chosen. -/
def paid (chain : TreeChain) (amount : UInt64) (keys : List Pubkey)
    (appended : List AppendedAccount) (checks : List LeafCheck)
    (choice : List LocatedAccount × UInt64) : Transfer :=
  let table := extend keys (transferKeys chain amount)
  ⟨appended, checks, choice.2, ⟨(choice.1.zip (rootIndices choice.1.length)).map
    (LocatedAccount.packedWith (position table)), position table chain.active.output⟩, table⟩

/-- Packing the chosen accounts makes one check, which is known from the chain and the amount. -/
theorem judged_pay {amount : UInt64} {choice : List LocatedAccount × UInt64}
    (hchain : ∀ a ∈ choice.1, a.context.chain = chain) (hnone : choice.1 = [] ↔ amount = 0)
    (keys : List Pubkey) (checks : List LeafCheck) :
    Judged (pay chain keys appended checks choice) [keyCheck chain amount keys] fun r =>
      (keyCheck chain amount keys).Holds ∧ r = paid chain amount keys appended checks choice := by
  have hlength : choice.1.length = (rootIndices choice.1.length).length := by
    rw [rootIndices, List.length_map, List.length_range]
  have hpack := (interns_packAccounts hlength chain).judged_pack keys
  rw [extend_packedKeys hchain hnone, fits_packedKeys_iff hchain hnone] at hpack
  have hreturn := hpack.bind fun out _ =>
    judged_pure (⟨appended, checks, choice.2, out.1, out.2⟩ : Transfer)
  refine hreturn.congr fun r => ?_
  constructor
  · rintro ⟨out, ⟨hfits, rfl⟩, rfl⟩
    exact ⟨hfits, rfl⟩
  · rintro ⟨hfits, rfl⟩
    exact ⟨_, ⟨hfits, rfl⟩, rfl⟩

/-- The accounts pass their checks, so a choice and the packing decide the rest. -/
theorem judged_settle (h : Appends chain t accounts appended u) (ht : t.Represents stored)
    (amount : UInt64) (keys : List Pubkey) :
    Judged (settle chain amount keys (appended, u))
      (choiceChecks (accounts.map fun a => a.1.lamports.toNat) amount.toNat ++
        [keyCheck chain amount keys]) fun r =>
      ∃ choice, IsFewest (appended.map (·.located)) amount choice ∧
        (keyCheck chain amount keys).Holds ∧
          r = paid chain amount keys appended (.replicate appended.length ⟨true, true⟩) choice := by
  have hselect := judged_select (appended.map (·.located)) amount
  rw [h.map_lamports ht] at hselect
  unfold settle
  rw [h.mapM_checkAccount ht]
  exact hselect.bind fun choice hchoice =>
    judged_pay (h.chain_eq ht hchoice) hchoice.eq_nil_iff keys _

/-- Adding accounts to a tree and settling them makes the checks of both. -/
theorem judged_appendAccounts_settle (ht : t.Represents stored) (chain : TreeChain)
    (accounts : List (Account × Bool)) (amount : UInt64) (keys : List Pubkey) :
    Judged (appendAccounts chain t accounts >>= settle chain amount keys)
      ((accounts.zipIdx t.size).flatMap (accountChecks t.depth) ++
        (choiceChecks (accounts.map fun a => a.1.lamports.toNat) amount.toNat ++
          [keyCheck chain amount keys])) fun r =>
      ∃ out : List AppendedAccount × MerkleTree, Appends chain t accounts out.1 out.2 ∧
        ∃ choice, IsFewest (out.1.map (·.located)) amount choice ∧
          (keyCheck chain amount keys).Holds ∧
            r = paid chain amount keys out.1 (.replicate out.1.length ⟨true, true⟩) choice :=
  (judged_appendAccounts ht chain accounts).bind fun _ hout => judged_settle hout ht amount keys

/-- A run from a tree that holds the leaves gives what was described. -/
theorem settled_paid (h : Appends chain t accounts appended u) (ht : t.Represents stored)
    {amount : UInt64} {keys : List Pubkey} {choice : List LocatedAccount × UInt64}
    (hchoice : IsFewest (appended.map (·.located)) amount choice)
    (hfits : (keyCheck chain amount keys).Holds) :
    Settled t.depth chain (stored.map Scalar.toHash) accounts amount keys
      (paid chain amount keys appended (.replicate appended.length ⟨true, true⟩) choice) := by
  have hplaced := h.placed ht
  have hsize : t.size = (stored.map Scalar.toHash).length := by rw [ht.size_eq, List.length_map]
  constructor
  case placed =>
    rwa [← hsize]
  case root_eq =>
    intro before a after hsplit
    have hroot := h.root_eq ht hsplit
    rwa [List.map_append, List.map_map] at hroot
  case checks_eq =>
    have hlength := hplaced.length_eq
    rw [List.length_zipIdx] at hlength
    rw [hlength]
    rfl
  case keys_eq =>
    rfl
  case exists_chosen =>
    refine ⟨choice.1, hchoice, ?_⟩
    show List.Forall₂ _ _ (List.map _ _)
    rw [List.forall₂_map_right_iff, List.forall₂_same]
    intro input hinput
    have hmem : input.1 ∈ choice.1 := (List.of_mem_zip hinput).1
    have hkeys := ownKeys_subset (h.chain_eq ht hchoice) hchoice.eq_nil_iff hmem
    exact LocatedAccount.packedIn_packedWith hfits hkeys
  case output =>
    exact hfits.names (List.mem_append_right _ (List.mem_singleton_self _))

end Stages

/-- A transfer makes the checks of its stages. -/
theorem judged_transfer (depth : ℕ) (chain : TreeChain) (leaves : List Hash)
    (accounts : List (Account × Bool)) (amount : UInt64) (keys : List Pubkey) :
    Judged (transfer depth chain leaves accounts amount keys)
      (transferChecks depth chain leaves accounts amount keys) fun r =>
      ∃ start, MerkleTree.empty depth = .ok start ∧
        ∃ t, (start.accepted leaves = leaves ∧ t = start.appendEach leaves) ∧
          ∃ out : List AppendedAccount × MerkleTree, Appends chain t accounts out.1 out.2 ∧
            ∃ choice, IsFewest (out.1.map (·.located)) amount choice ∧
              (keyCheck chain amount keys).Holds ∧
                r = paid chain amount keys out.1 (.replicate out.1.length ⟨true, true⟩) choice := by
  rw [transfer_eq]
  refine (judged_empty depth).bind fun start hstart => ?_
  refine (judged_appendAll_empty hstart leaves).bind ?_
  rintro t ⟨haccepted, rfl⟩
  obtain ⟨stored, -, ht, hsize⟩ := exists_represents_of_accepted hstart haccepted
  have hrest := judged_appendAccounts_settle ht chain accounts amount keys
  rwa [hsize, depth_of_history hstart] at hrest

/-- **A transfer is exact.**  It fails exactly if some check does not hold, with the cause of the
first that does not.  If all hold, it gives what `Settled` describes. -/
theorem transfer_exact (depth : ℕ) (chain : TreeChain) (leaves : List Hash)
    (accounts : List (Account × Bool)) (amount : UInt64) (keys : List Pubkey) :
    let checks := transferChecks depth chain leaves accounts amount keys
    let outcome := transfer depth chain leaves accounts amount keys
    (∀ e, outcome = .error e ↔ FirstFailure checks e) ∧
    ((∀ c ∈ checks, c.Holds) → ∃ r, outcome = .ok r ∧
      Settled depth chain leaves accounts amount keys r) := by
  intro checks outcome
  have hrun := judged_transfer depth chain leaves accounts amount keys
  refine ⟨hrun.eq_error_iff, fun hall => ?_⟩
  obtain ⟨r, hr⟩ := hrun.exists_ok_iff.mpr hall
  obtain ⟨start, hstart, t, ⟨haccepted, rfl⟩, out, hout, choice, hchoice, hfits, rfl⟩ :=
    (hrun.eq_ok_iff r).mp hr
  obtain ⟨stored, hstored, ht, -⟩ := exists_represents_of_accepted hstart haccepted
  have hsettled := settled_paid hout ht hchoice hfits
  rw [depth_of_history hstart, ← hstored] at hsettled
  exact ⟨_, hr, hsettled⟩

end CompressedLedger.Workflow
