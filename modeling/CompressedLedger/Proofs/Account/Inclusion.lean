import CompressedLedger.Proofs.Account.Refusals
import CompressedLedger.Proofs.Address.Separation
import CompressedLedger.Proofs.Merkle.Completeness

/-!
# An appended account stays provable

An account is hashed at the next leaf index of a tree and the hash is appended.  A leaf never moves
or changes, so from then on, whatever else is appended, its place is the index it was hashed at, the
account hashes to the leaf found there, and the leaf has a path to the root
(`account_stays_provable`).

Hashing an account can fail, but not if its address was derived and its data carry the hash of their
payload (`IsDerived.exists_leafHash_eq_ok`): both are field-sized hashes.
-/

namespace CompressedLedger

open Merkle

/-! ### Accounts that have a leaf hash -/

namespace Account

/-- The address of the account, if it has one, was derived, and its data, if it has any, carry the
hash of their payload. -/
structure IsDerived (a : Account) : Prop where
  address_derived : ∀ x ∈ a.address, ∃ (version : AddressVersion) (seeds : List (List UInt8))
    (tree program : Pubkey), version.derive seeds tree program = .ok x
  data_ofPayload : ∀ d ∈ a.data, ∃ discriminator payload,
    d = AccountData.ofPayload discriminator payload

theorem IsDerived.exists_leafHash_eq_ok {a : Account} (h : a.IsDerived) (tree : Pubkey)
    (i : UInt32) (batched : Bool) : ∃ leaf, a.leafHash tree i batched = .ok leaf := by
  refine Account.exists_leafHash_eq_ok (fun x hx => ?_) (fun d hd => ?_) tree i batched
  · obtain ⟨version, seeds, tree, program, hderive⟩ := h.address_derived x hx
    rw [AddressVersion.derive_eq_ok] at hderive
    rw [← Except.ok.inj hderive]
    exact Truncated.toNat_hash_lt _
  · obtain ⟨discriminator, payload, rfl⟩ := h.data_ofPayload d hd
    exact Truncated.toNat_hash_lt _

end Account

/-- An account verifies exactly if it has the hash of its place. -/
theorem LocatedAccount.verifyHash_eq_ok_true_iff {a : LocatedAccount} :
    a.verifyHash = .ok true ↔
      a.account.leafHash a.context.chain.first.tree a.context.leafIndex
        a.context.chain.first.kind.isBatched = .ok a.context.hash := by
  rw [verifyHash, Except.bind_eq_ok_iff]
  constructor
  · rintro ⟨leaf, hleaf, hequal⟩
    rw [hleaf, eq_of_beq (Except.ok.inj hequal)]
  · intro hleaf
    exact ⟨_, hleaf, congrArg Except.ok (beq_self_eq_true _)⟩

namespace MerkleTree

/-- **An appended account stays provable.**  Let an account have a leaf hash at the next index of a
reachable tree with room; a derived one always has.  Appending the leaf answers that index, and from
then on, after any later calls: the tree gives the account's place, with the leaf as its hash and
that index, in bytes as well; the account verifies against its place; and the leaf has a path that
verifies against the root. -/
theorem account_stays_provable {depth : ℕ} {m : MerkleTree} (hm : Reachable depth m)
    (hroom : m.isFull = false) (chain : TreeChain) (a : Account) :
    let n := UInt32.ofNat m.size
    let batched := chain.first.kind.isBatched
    n.toNat = m.size ∧
    (a.IsDerived → ∃ leaf, a.leafHash chain.first.tree n batched = .ok leaf) ∧
    ∀ leaf, a.leafHash chain.first.tree n batched = .ok leaf →
      (m.append leaf.toHash).1 = .ok n ∧
      ∀ (later : List Hash) (readOnly : Bool),
        let t := (m.append leaf.toHash).2.appendEach later
        ∃ context siblings, t.context n chain = .ok context ∧
          t.raw.context n chain = .ok context ∧
          context.hash.toHash = leaf.toHash ∧ context.leafIndex = n ∧ context.chain = chain ∧
          LocatedAccount.verifyHash ⟨a, context, readOnly⟩ = .ok true ∧
          t.path n = .ok siblings ∧
          verify leaf.toHash n (siblings.map Scalar.toHash) t.root.toHash = .ok true := by
  intro n batched
  obtain ⟨leaves, hleaves⟩ := hm.represents
  have hn : n.toNat = m.size := UInt32.toNat_ofNat_of_lt' (hleaves.size_lt hroom)
  refine ⟨hn, fun ha => ha.exists_leafHash_eq_ok _ _ _, fun leaf hleaf => ?_⟩
  have hcall := append_toHash hroom leaf
  refine ⟨by rw [hcall], fun later readOnly => ?_⟩
  intro t
  -- the tree after the append and the later calls is reachable, and has the leaf at its index
  have ht : Reachable depth t := hm.appendEach (leaf.toHash :: later)
  have hstored : t.leaf? n = some leaf := by
    have hnext := hleaves.push (hleaves.isFull_eq_false_iff.mp hroom) leaf
    show ((m.append leaf.toHash).2.appendEach later).leaf? n = some leaf
    rw [hcall]
    exact hnext.leaf?_appendEach (hleaves.leaf?_push hroom leaf) later
  have hcontext : t.context n chain = .ok ⟨leaf, chain, n, false⟩ := by
    rw [context, hstored]
  obtain ⟨siblings, hpath, -, hverify⟩ := ht.verify_path hstored
  refine ⟨_, siblings, hcontext, ?_, rfl, rfl, rfl, ?_, hpath, hverify⟩
  · rw [context_raw, hcontext]
    rfl
  · exact LocatedAccount.verifyHash_eq_ok_true_iff.mpr hleaf

/-- An account with lamports, a derived address and data, put behind one leaf of a batched tree of
depth 3; a leaf and a refused call follow. -/
theorem account_stays_provable_of_batched :
    ∃ start address, MerkleTree.empty 3 = .ok start ∧
      AddressVersion.v2.derive [[1], [2, 3]] .zero .zero = .ok address ∧
      let m := start.appendEach [FixedBytes.ofNat 9]
      let chain := TreeChain.single ⟨.zero, .zero, .stateV2, none⟩
      let a : Account := ⟨.zero, 5, some address, some (.ofPayload .zero [4, 5, 6])⟩
      Reachable 3 m ∧ m.isFull = false ∧ a.IsDerived ∧
        ∃ leaf, a.leafHash .zero 1 true = .ok leaf ∧ (m.append leaf.toHash).1 = .ok 1 ∧
          let t := (m.append leaf.toHash).2.appendEach
            [FixedBytes.ofNat 10, FixedBytes.ofNat Scalar.modulus]
          ∃ context siblings, t.context 1 chain = .ok context ∧
            context.hash.toHash = leaf.toHash ∧ context.leafIndex = 1 ∧
            LocatedAccount.verifyHash ⟨a, context, true⟩ = .ok true ∧
            t.path 1 = .ok siblings ∧
            verify leaf.toHash 1 (siblings.map Scalar.toHash) t.root.toHash = .ok true := by
  obtain ⟨start, hstart⟩ := empty_eq_ok (show 1 ≤ 3 by decide) (show 3 ≤ 32 by decide)
  obtain ⟨address, haddress⟩ : ∃ address,
      AddressVersion.v2.derive [[1], [2, 3]] .zero .zero = .ok address :=
    ⟨_, AddressVersion.derive_eq_ok ..⟩
  refine ⟨start, address, hstart, haddress, ?_⟩
  intro m chain a
  have hm : Reachable 3 m := ⟨start, _, hstart, rfl⟩
  have hsize : m.size = 1 := by
    cases hstart
    decide
  have hroom : m.isFull = false := by
    cases hstart
    decide
  have ha : a.IsDerived := by
    refine ⟨fun x hx => ?_, fun d hd => ⟨.zero, [4, 5, 6], (Option.some.inj hd).symm⟩⟩
    obtain rfl := Option.some.inj hx
    exact ⟨_, _, _, _, haddress⟩
  obtain ⟨-, hexists, hpipeline⟩ := account_stays_provable hm hroom chain a
  rw [hsize] at hexists hpipeline
  obtain ⟨leaf, hleaf⟩ := hexists ha
  obtain ⟨hanswer, hlater⟩ := hpipeline leaf hleaf
  obtain ⟨context, siblings, hcontext, -, hhash, hindex, -, hverify, hpath, hroot⟩ :=
    hlater [FixedBytes.ofNat 10, FixedBytes.ofNat Scalar.modulus] true
  exact ⟨hm, hroom, ha, leaf, hleaf, hanswer, context, siblings, hcontext, hhash, hindex, hverify,
    hpath, hroot⟩

end MerkleTree

end CompressedLedger
