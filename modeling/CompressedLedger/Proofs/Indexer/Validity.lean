import CompressedLedger.Proofs.Indexer.Fields
import CompressedLedger.Proofs.Proof.Validity

/-!
# Proof records are converted faithfully

A proof record is judged by the lengths of its points, then by the checks of every leaf, then by
those of every address, each in the order of its list, and last by whether a proof that is needed is
there.  So one fault decides the failure, however many the record has, and a record without a fault
gives the context it describes: entry by entry in the record's order, each with the decoded values
and the first known tree with its key (`ProofRecord.toContext_faithful`).
-/

namespace CompressedLedger

/-! ### Points -/

/-- The checks of the points. -/
def PointsRecord.checks (r : PointsRecord) : List Check :=
  [Check.length 32 r.a, Check.length 64 r.b, Check.length 32 r.c]

/-- The points of the proof are the byte strings of the record. -/
structure PointsRecord.Gives (r : PointsRecord) (p : ValidityProof) : Prop where
  a : r.a = p.a.bytes
  b : r.b = p.b.bytes
  c : r.c = p.c.bytes

theorem PointsRecord.judged_toProof (r : PointsRecord) : Judged r.toProof r.checks r.Gives := by
  refine (ValidityProof.judged_ofParts r.a r.b r.c).congr fun p => ?_
  constructor
  · rintro ⟨ha, hb, hc⟩
    exact ⟨ha, hb, hc⟩
  · rintro ⟨ha, hb, hc⟩
    exact ⟨ha, hb, hc⟩

/-! ### Leaves and addresses -/

/-- The checks of a leaf, in their order. -/
def LeafRecord.checks (chains : List TreeChain) (r : LeafRecord) : List Check :=
  [Check.pubkey r.tree] ++ Check.scalar r.hash ++ Check.scalar r.root ++
    [Check.known chains r.tree]

/-- The leaf has the decoded values of the record and its other values as they are. -/
structure LeafRecord.Gives (chains : List TreeChain) (r : LeafRecord) (leaf : ProvenLeaf) :
    Prop where
  hash : Scalar.DenotesBase58 r.hash leaf.hash.val
  root : Scalar.DenotesBase58 r.root leaf.root.val
  chain : TreeChain.IsFirstOf chains r.tree leaf.chain
  rootIndex : leaf.rootIndex = r.rootIndex
  leafIndex : leaf.leafIndex = r.leafIndex
  proveByIndex : leaf.proveByIndex = r.proveByIndex

theorem LeafRecord.judged_toLeaf (chains : List TreeChain) (r : LeafRecord) :
    Judged (r.toLeaf chains) (r.checks chains) (r.Gives chains) := by
  have hsteps :=
    (judged_pubkey r.tree).bind fun tree htree =>
    (judged_scalar r.hash).bind fun hash _ =>
    (judged_scalar r.root).bind fun root _ =>
    (judged_lookup chains htree).bind fun chain _ =>
    judged_pure (ProvenLeaf.mk hash root r.rootIndex r.leafIndex chain r.proveByIndex)
  refine hsteps.congr fun leaf => ?_
  constructor
  · rintro ⟨tree, htree, hash, hhash, root, hroot, chain, hchain, rfl⟩
    exact ⟨hhash, hroot, ⟨tree, htree, hchain⟩, rfl, rfl, rfl⟩
  · rintro ⟨hhash, hroot, ⟨tree, htree, hchain⟩, hrootIndex, hleafIndex, hproveByIndex⟩
    refine ⟨tree, htree, _, hhash, _, hroot, _, hchain, ?_⟩
    rw [← hrootIndex, ← hleafIndex, ← hproveByIndex]

/-- The checks of an address, in their order. -/
def AddressRecord.checks (chains : List TreeChain) (r : AddressRecord) : List Check :=
  [Check.pubkey r.tree] ++ Check.scalar r.address ++ Check.scalar r.root ++
    [Check.known chains r.tree]

/-- The address has the decoded values of the record and its other values as they are. -/
structure AddressRecord.Gives (chains : List TreeChain) (r : AddressRecord)
    (entry : ProvenAddress) : Prop where
  address : Hash.DenotedBy r.address entry.address
  root : Scalar.DenotesBase58 r.root entry.root.val
  chain : TreeChain.IsFirstOf chains r.tree entry.chain
  rootIndex : entry.rootIndex = r.rootIndex

theorem AddressRecord.judged_toAddress (chains : List TreeChain) (r : AddressRecord) :
    Judged (r.toAddress chains) (r.checks chains) (r.Gives chains) := by
  have hsteps :=
    (judged_pubkey r.tree).bind fun tree htree =>
    (judged_hash r.address).bind fun address _ =>
    (judged_scalar r.root).bind fun root _ =>
    (judged_lookup chains htree).bind fun chain _ =>
    judged_pure (ProvenAddress.mk address root r.rootIndex chain)
  refine hsteps.congr fun entry => ?_
  constructor
  · rintro ⟨tree, htree, address, haddress, root, hroot, chain, hchain, rfl⟩
    exact ⟨haddress, hroot, ⟨tree, htree, hchain⟩, rfl⟩
  · rintro ⟨haddress, hroot, ⟨tree, htree, hchain⟩, hrootIndex⟩
    refine ⟨tree, htree, _, haddress, _, hroot, _, hchain, ?_⟩
    rw [← hrootIndex]

/-! ### The whole record -/

/-- There is a proof, or nothing that needs one. -/
def ProofRecord.IsProvable (r : ProofRecord) : Prop :=
  r.points.isSome ∨ r.addresses = [] ∧ ∀ leaf ∈ r.leaves, leaf.proveByIndex = true

/-- The checks of a proof record, in their order. -/
def ProofRecord.checks (chains : List TreeChain) (r : ProofRecord) : List Check :=
  r.points.toList.flatMap PointsRecord.checks ++
    r.leaves.flatMap (LeafRecord.checks chains) ++
    r.addresses.flatMap (AddressRecord.checks chains) ++ [⟨r.IsProvable, .missingProof⟩]

/-- The context is what the record describes, entry by entry. -/
structure ProofRecord.Gives (chains : List TreeChain) (r : ProofRecord) (c : ProofContext) :
    Prop where
  proof : Option.Rel PointsRecord.Gives r.points c.proof
  leaves : List.Forall₂ (LeafRecord.Gives chains) r.leaves c.leaves
  addresses : List.Forall₂ (AddressRecord.Gives chains) r.addresses c.addresses
  isProvable : r.IsProvable

section

variable {chains : List TreeChain} {r : ProofRecord} {proof : Option ValidityProof}
  {leaves : List ProvenLeaf} {addresses : List ProvenAddress}

/-- Whether a proof is missing can be seen from the record as well. -/
theorem ProofRecord.isProvable_iff (hproof : Option.Rel PointsRecord.Gives r.points proof)
    (hleaves : List.Forall₂ (LeafRecord.Gives chains) r.leaves leaves)
    (haddresses : List.Forall₂ (AddressRecord.Gives chains) r.addresses addresses) :
    r.IsProvable ↔
      proof.isSome ∨ addresses = [] ∧ ∀ leaf ∈ leaves, leaf.proveByIndex = true := by
  have hsome : r.points.isSome = proof.isSome := by
    generalize r.points = points at hproof ⊢
    cases hproof <;> rfl
  have hempty : r.addresses = [] ↔ addresses = [] := by
    rw [← List.length_eq_zero_iff, haddresses.length_eq, List.length_eq_zero_iff]
  have hcolumn : leaves.map (·.proveByIndex) = r.leaves.map (·.proveByIndex) :=
    map_eq_of_forall₂ hleaves fun _ _ hleaf => hleaf.proveByIndex
  have hall : (∀ leaf ∈ r.leaves, leaf.proveByIndex = true) ↔
      ∀ leaf ∈ leaves, leaf.proveByIndex = true := by
    rw [← List.forall_mem_map (P := (· = true)), ← hcolumn, List.forall_mem_map]
  rw [IsProvable, hsome, hempty, hall]

theorem ProofRecord.judged_validate (hproof : Option.Rel PointsRecord.Gives r.points proof)
    (hleaves : List.Forall₂ (LeafRecord.Gives chains) r.leaves leaves)
    (haddresses : List.Forall₂ (AddressRecord.Gives chains) r.addresses addresses) :
    Judged (ProofContext.validate ⟨proof, leaves, addresses⟩) [⟨r.IsProvable, .missingProof⟩]
      fun _ => r.IsProvable := by
  refine Judged.single (fun u => ?_) (fun _ => ProofContext.eq_missingProof_of_validate) ?_
  · rw [ProofContext.validate_eq_ok_iff, isProvable_iff hproof hleaves haddresses]
  · exact ⟨fun h => ⟨(), h⟩, fun ⟨_, h⟩ => h⟩

end

theorem ProofRecord.judged_toContext (r : ProofRecord) (chains : List TreeChain) :
    Judged (r.toContext chains) (r.checks chains) (r.Gives chains) := by
  have hsteps :=
    (judged_optional PointsRecord.judged_toProof r.points).bind fun proof hproof =>
    (judged_mapM (LeafRecord.judged_toLeaf chains) r.leaves).bind fun leaves hleaves =>
    (judged_mapM (AddressRecord.judged_toAddress chains) r.addresses).bind
      fun addresses haddresses =>
    (judged_validate hproof hleaves haddresses).bind fun _ _ =>
    judged_pure (ProofContext.mk proof leaves addresses)
  rw [List.append_nil, ← List.append_assoc, ← List.append_assoc] at hsteps
  refine hsteps.congr fun c => ?_
  constructor
  · rintro ⟨proof, hproof, leaves, hleaves, addresses, haddresses, -, hprovable, rfl⟩
    exact ⟨hproof, hleaves, haddresses, hprovable⟩
  · rintro ⟨hproof, hleaves, haddresses, hprovable⟩
    exact ⟨c.proof, hproof, c.leaves, hleaves, c.addresses, haddresses, (), hprovable, rfl⟩

/-- The columns of the context are those of the record, in its order. -/
structure ProofRecord.Columns (chains : List TreeChain) (r : ProofRecord) (c : ProofContext) :
    Prop where
  length_leaves : c.leaves.length = r.leaves.length
  length_addresses : c.addresses.length = r.addresses.length
  rootIndices : c.rootIndices = r.leaves.map (·.rootIndex)
  leafIndices : c.leafIndices = r.leaves.map (·.leafIndex)
  proveByIndices : c.proveByIndices = r.leaves.map (·.proveByIndex)
  addressRootIndices : c.addressRootIndices = r.addresses.map (·.rootIndex)
  roots : List.Forall₂ (fun leaf root => Scalar.DenotesBase58 leaf.root root.val) r.leaves c.roots
  hashes : List.Forall₂ (fun leaf hash => Scalar.DenotesBase58 leaf.hash hash.val) r.leaves c.hashes
  chains : List.Forall₂ (fun leaf chain => TreeChain.IsFirstOf chains leaf.tree chain) r.leaves
    c.chains

theorem ProofRecord.Gives.columns {chains : List TreeChain} {r : ProofRecord} {c : ProofContext}
    (h : r.Gives chains c) : r.Columns chains c where
  length_leaves := h.leaves.length_eq.symm
  length_addresses := h.addresses.length_eq.symm
  rootIndices := map_eq_of_forall₂ h.leaves fun _ _ hleaf => hleaf.rootIndex
  leafIndices := map_eq_of_forall₂ h.leaves fun _ _ hleaf => hleaf.leafIndex
  proveByIndices := map_eq_of_forall₂ h.leaves fun _ _ hleaf => hleaf.proveByIndex
  addressRootIndices := map_eq_of_forall₂ h.addresses fun _ _ hentry => hentry.rootIndex
  roots := List.forall₂_map_right_iff.mpr (h.leaves.imp fun _ _ hleaf => hleaf.root)
  hashes := List.forall₂_map_right_iff.mpr (h.leaves.imp fun _ _ hleaf => hleaf.hash)
  chains := List.forall₂_map_right_iff.mpr (h.leaves.imp fun _ _ hleaf => hleaf.chain)

/-- **A proof record is converted faithfully or refused for its first fault.**  The conversion is
judged by the checks in their order, so it succeeds exactly if all of them hold and fails with the
cause of the first that does not.  What it gives is the record's context: each leaf and address with
its decoded values and its tree, and every column in the record's order. -/
theorem ProofRecord.toContext_faithful (r : ProofRecord) (chains : List TreeChain) :
    Judged (r.toContext chains) (r.checks chains) (r.Gives chains) ∧
      ((∃ c, r.toContext chains = .ok c) ↔ ∀ check ∈ r.checks chains, check.Holds) ∧
      ∀ c, r.toContext chains = .ok c → r.Columns chains c := by
  have hjudged := r.judged_toContext chains
  refine ⟨hjudged, hjudged.exists_ok_iff, fun c hc => ?_⟩
  exact ((hjudged.eq_ok_iff c).mp hc).columns

/-- A record with a point that is too short and a leaf whose texts mean nothing: the point decides.
A leaf that is proven by its index needs no proof, and an address does. -/
theorem ProofRecord.toContext_faithful_of_faults :
    let chain := TreeChain.single ⟨.zero, .zero, .stateV2, none⟩
    let key := Base58.encode chain.first.tree.bytes
    let bad : LeafRecord := ⟨"0", "0", 0, 0, "0", false⟩
    let point := List.replicate 32 0
    toContext ⟨some ⟨point, point, point⟩, [bad], []⟩ [chain] = .error .lengthMismatch ∧
      toContext ⟨none, [⟨"1", " ", 0, 7, key, true⟩], []⟩ [chain] =
        .ok ⟨none, [⟨0, 0, 0, 7, chain, true⟩], []⟩ ∧
      toContext ⟨none, [], [⟨"1", "1", 0, key⟩]⟩ [chain] = .error .missingProof := by
  intro chain key bad point
  have hzero : Scalar.DenotesBase58 "1" 0 := by
    have htrim : Scalar.trimmed "1" = ['1'] := by decide
    refine ⟨?_, by decide⟩
    rw [htrim, List.forall_mem_singleton]
    decide
  have hblank : Scalar.DenotesBase58 " " 0 := by
    have htrim : Scalar.trimmed " " = [] := by decide
    refine ⟨?_, by decide⟩
    rw [htrim]
    exact fun c hc => nomatch hc
  have hlt : Base58.positional (Scalar.trimmed "1") < Scalar.modulus := by decide
  have htree : TreeChain.IsFirst [chain] chain.first.tree chain :=
    ⟨[], [], rfl, Or.inl rfl, fun _ hc => nomatch hc⟩
  refine ⟨?_, ?_, ?_⟩
  · apply ((toContext_faithful _ _).1.eq_error_iff _).mpr
    have ha : point.length = 32 := List.length_replicate
    have hb : ¬point.length = 64 := by decide
    exact .later ha (.here hb)
  · apply ((toContext_faithful _ _).1.eq_ok_iff _).mpr
    have hleaf : LeafRecord.Gives [chain] ⟨"1", " ", 0, 7, key, true⟩ ⟨0, 0, 0, 7, chain, true⟩ :=
      ⟨hzero, hblank, ⟨_, rfl, htree⟩, rfl, rfl, rfl⟩
    refine ⟨Option.Rel.none, .cons hleaf .nil, .nil, Or.inr ⟨rfl, ?_⟩⟩
    rw [List.forall_mem_singleton]
  · apply ((toContext_faithful _ _).1.eq_error_iff _).mpr
    have hknown : ∃ c ∈ [chain], c.HasKey chain.first.tree :=
      ⟨chain, List.mem_singleton_self chain, Or.inl rfl⟩
    have hmissing : ¬IsProvable ⟨none, [], [⟨"1", "1", 0, key⟩]⟩ := by
      rintro (hsome | ⟨hempty, -⟩)
      · cases hsome
      · cases hempty
    -- every check of the address holds, and only the last one is left
    exact .later ⟨_, rfl⟩ (.later hzero.mem_alphabet (.later hlt (.later hzero.mem_alphabet
      (.later hlt (.later ⟨_, rfl, hknown⟩ (.here hmissing))))))

end CompressedLedger
