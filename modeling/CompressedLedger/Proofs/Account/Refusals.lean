import CompressedLedger.Proofs.Account.LeafInputs
import CompressedLedger.Proofs.Poseidon.Refusals

/-!
# Accounts without a leaf hash

The three to seven inputs of a leaf hash come from owners, trees, amounts, indices, discriminators,
addresses and payloads.  All but two are written by the hash itself, in ways that stay below the
modulus.  Only an address and the hash of a payload are taken as they are, so an account is refused
exactly if one of these is not below the modulus (`Oversized`); where the hashes of the owner and
the tree are given from outside, they can be refused as well (`leafHashWith_eq_error_iff`).

Verifying a located account fails as its leaf hash does (`verifyHash_eq_error_iff`), and otherwise
says whether the hash is that of its place.  `leafHash_fails_iff_oversized` says all this at once.
-/

namespace CompressedLedger

namespace Account

/-- The account has an address, or data with a hash of its payload, that is not below the
modulus. -/
def Oversized (a : Account) : Prop :=
  (∃ x ∈ a.address, Scalar.modulus ≤ x.toNat) ∨
    ∃ d ∈ a.data, Scalar.modulus ≤ d.payloadHash.toNat

variable {a : Account}

theorem exists_mem_valueInputs_iff :
    (∃ h ∈ a.valueInputs, Scalar.modulus ≤ h.toNat) ↔
      ∃ x ∈ a.address, Scalar.modulus ≤ x.toNat := by
  have hlamports := LeafInput.toNat_marked_lt LeafInput.lamportsMark (.ofNat a.lamports.toNat)
  unfold valueInputs
  split_ifs
  · simp
  · simp [LeafInput.lamports, hlamports]

theorem exists_mem_dataInputs_iff :
    (∃ h ∈ a.dataInputs, Scalar.modulus ≤ h.toNat) ↔
      ∃ d ∈ a.data, Scalar.modulus ≤ d.payloadHash.toNat := by
  unfold dataInputs
  cases a.data with
  | none => simp
  | some d => simp [LeafInput.discriminator, LeafInput.toNat_marked_lt]

/-- Of all the inputs, only these can be too large. -/
theorem exists_mem_leafInputs_iff {ownerHash treeHash : Hash} {i : UInt32} {batched : Bool} :
    (∃ h ∈ a.leafInputs ownerHash treeHash i batched, Scalar.modulus ≤ h.toNat) ↔
      a.Oversized ∨ Scalar.modulus ≤ ownerHash.toNat ∨ Scalar.modulus ≤ treeHash.toNat := by
  have hindex : ¬Scalar.modulus ≤ (LeafInput.leafIndex batched i).toNat :=
    Nat.not_le_of_lt (LeafInput.toNat_leafIndex_lt batched i)
  have hoptional : (∃ h ∈ a.valueInputs ++ a.dataInputs, Scalar.modulus ≤ h.toNat) ↔
      a.Oversized := by
    simp only [List.mem_append, or_and_right, exists_or]
    rw [exists_mem_valueInputs_iff, exists_mem_dataInputs_iff, Oversized]
  rw [leafInputs_eq, List.exists_mem_cons_iff, List.exists_mem_cons_iff, List.exists_mem_cons_iff,
    hoptional]
  tauto

/-! ### The leaf hash -/

theorem leafHashWith_eq_error_iff {ownerHash treeHash : Hash} {i : UInt32} {batched : Bool}
    {e : Error} :
    a.leafHashWith ownerHash treeHash i batched = .error e ↔ e = .poseidonInput ∧
      (a.Oversized ∨ Scalar.modulus ≤ ownerHash.toNat ∨ Scalar.modulus ≤ treeHash.toNat) := by
  have hpos : 0 < (a.leafInputs ownerHash treeHash i batched).length := by
    rw [leafInputs_eq]
    exact Nat.succ_pos _
  have hmax := a.length_leafInputs_le ownerHash treeHash i batched
  rw [leafHashWith, Poseidon.hash_map_bytes_eq_error_iff hpos hmax, exists_mem_leafInputs_iff]

/-- The hashes of the owner and the tree are field-sized, so they are never refused. -/
theorem leafHash_eq_error_iff {tree : Pubkey} {i : UInt32} {batched : Bool} {e : Error} :
    a.leafHash tree i batched = .error e ↔ e = .poseidonInput ∧ a.Oversized := by
  have howner : ¬Scalar.modulus ≤ (Truncated.sealed a.owner.bytes).toNat :=
    Nat.not_le_of_lt (Truncated.toNat_hash_lt _)
  have htree : ¬Scalar.modulus ≤ (Truncated.sealed tree.bytes).toNat :=
    Nat.not_le_of_lt (Truncated.toNat_hash_lt _)
  rw [leafHash, leafHashWith_eq_error_iff]
  simp only [howner, htree, or_false]

/-- An account whose address and payload hash are below the modulus has a leaf hash, in every tree
and at every index. -/
theorem exists_leafHash_eq_ok (haddress : ∀ x ∈ a.address, x.toNat < Scalar.modulus)
    (hdata : ∀ d ∈ a.data, d.payloadHash.toNat < Scalar.modulus) (tree : Pubkey) (i : UInt32)
    (batched : Bool) : ∃ leaf, a.leafHash tree i batched = .ok leaf := by
  rw [Except.exists_eq_ok_iff]
  intro e he
  rcases (leafHash_eq_error_iff.mp he).2 with ⟨x, hx, hlarge⟩ | ⟨d, hd, hlarge⟩
  · exact Nat.not_le_of_lt (haddress x hx) hlarge
  · exact Nat.not_le_of_lt (hdata d hd) hlarge

/-- The outcome is a hash below the modulus, or under a condition the one failure. -/
structure RefusedIff (outcome : Except Error Scalar) (condition : Prop) : Prop where
  eq_error_iff : ∀ e, outcome = .error e ↔ e = .poseidonInput ∧ condition
  exists_eq_ok : ¬condition → ∃ leaf, outcome = .ok leaf ∧ leaf.toHash.toNat < Scalar.modulus

theorem refusedIff_of_eq_error_iff {outcome : Except Error Scalar} {condition : Prop}
    (h : ∀ e, outcome = .error e ↔ e = .poseidonInput ∧ condition) :
    RefusedIff outcome condition := by
  refine ⟨h, fun hnot => ?_⟩
  obtain ⟨leaf, hleaf⟩ := Except.exists_eq_ok_iff.mpr fun e he => hnot ((h e).mp he).2
  refine ⟨leaf, hleaf, ?_⟩
  rw [Scalar.toNat_toHash]
  exact leaf.isLt

/-! ### Verifying -/

/-- Verifying a located account fails as its leaf hash does. -/
theorem verifyHash_eq_error_iff {located : LocatedAccount} {e : Error} :
    located.verifyHash = .error e ↔
      located.account.leafHash located.context.chain.first.tree located.context.leafIndex
        located.context.chain.first.kind.isBatched = .error e := by
  rw [LocatedAccount.verifyHash, Except.bind_eq_error_iff]
  constructor
  · rintro (h | ⟨leaf, -, hreturn⟩)
    · exact h
    · cases hreturn
  · exact Or.inl

/-- **A leaf hash fails exactly for values that are no scalars.**  Whatever its owner, lamports,
discriminator and payload, the tree, the index and the kind of tree: an account has a leaf hash,
which is below the modulus, unless its address or the hash of its payload is not below the modulus,
and then the one failure is that of Poseidon.  Where the hashes of the owner and the tree are given,
they count as well.  Verifying a located account fails with the failure of the leaf hash, and
otherwise says whether the leaf hash is the hash of the account's place. -/
theorem leafHash_fails_iff_oversized (a : Account) (tree : Pubkey) (ownerHash treeHash : Hash)
    (i : UInt32) (batched : Bool) (context : LeafContext) (readOnly : Bool) :
    RefusedIff (a.leafHash tree i batched) a.Oversized ∧
    RefusedIff (a.leafHashWith ownerHash treeHash i batched)
      (a.Oversized ∨ Scalar.modulus ≤ ownerHash.toNat ∨ Scalar.modulus ≤ treeHash.toNat) ∧
    let located : LocatedAccount := ⟨a, context, readOnly⟩
    let recomputed := a.leafHash context.chain.first.tree context.leafIndex
      context.chain.first.kind.isBatched
    (∀ e, located.verifyHash = .error e ↔ recomputed = .error e) ∧
    ∀ leaf, recomputed = .ok leaf →
      located.verifyHash = .ok (decide (leaf.toHash = context.hash.toHash)) := by
  refine ⟨refusedIff_of_eq_error_iff fun e => leafHash_eq_error_iff,
    refusedIff_of_eq_error_iff fun e => leafHashWith_eq_error_iff, ?_⟩
  intro located recomputed
  refine ⟨fun e => verifyHash_eq_error_iff, fun leaf hleaf => ?_⟩
  have hverify : located.verifyHash = recomputed >>= fun leaf => .ok (leaf == context.hash) := rfl
  have hsame : (leaf == context.hash) = decide (leaf.toHash = context.hash.toHash) := by
    simp only [Scalar.toHash_inj, beq_eq_decide]
  rw [hverify, hleaf, ← hsame]
  rfl

end Account

end CompressedLedger
