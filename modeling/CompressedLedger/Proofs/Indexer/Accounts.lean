import CompressedLedger.Indexer.Request
import CompressedLedger.Proofs.Indexer.Fields

/-!
# Accounts and their records

An account record is judged by its checks in this order: the tree's text, the tree, the payload
hash, the owner, the address and the hash (`AccountRecord.judged_toLocated`).

In the other direction every account in a known tree has a record, its hashes, addresses and keys
as texts and its discriminator as a number, and that record is converted into the account again
(`texts_read_back`).  The same holds of the texts in a call: each is read as the value it was made
from, except that an address need not be below the modulus and is refused if it is not.
-/

namespace CompressedLedger

/-! ### From a record to an account -/

/-- The check of a data record. -/
def DataRecord.checks (r : DataRecord) : List Check := Check.scalar r.payloadHash

/-- The data are those of the record. -/
structure DataRecord.Gives (r : DataRecord) (d : AccountData) : Prop where
  discriminator : Bytes.ofLittleEndian d.discriminator.bytes = r.discriminator.toNat
  payload : d.payload = r.payload
  payloadHash : Hash.DenotedBy r.payloadHash d.payloadHash

theorem eq_discriminatorOf_iff {n : UInt64} {discriminator : FixedBytes 8} :
    discriminator = discriminatorOf n ↔
      Bytes.ofLittleEndian discriminator.bytes = n.toNat := by
  have hlt : n.toNat < 256 ^ 8 := n.toNat_lt
  constructor
  · rintro rfl
    rw [discriminatorOf, Bytes.ofLittleEndian_toLittleEndian, Nat.mod_eq_of_lt hlt]
  · intro hvalue
    apply FixedBytes.ext
    show discriminator.bytes = Bytes.toLittleEndian 8 n.toNat
    rw [← hvalue, discriminator.toLittleEndian_ofLittleEndian]

theorem DataRecord.judged_toData (r : DataRecord) : Judged r.toData r.checks r.Gives := by
  have hsteps := (judged_scalar r.payloadHash).bind fun payloadHash _ =>
    judged_pure (AccountData.mk (discriminatorOf r.discriminator) r.payload payloadHash.toHash)
  rw [List.append_nil] at hsteps
  refine hsteps.congr fun d => ?_
  constructor
  · rintro ⟨payloadHash, hhash, rfl⟩
    exact ⟨eq_discriminatorOf_iff.mp rfl, rfl, Hash.denotedBy_iff.mpr ⟨payloadHash, hhash, rfl⟩⟩
  · rintro ⟨hdiscriminator, hpayload, hhash⟩
    obtain ⟨payloadHash, hdenotes, heq⟩ := Hash.denotedBy_iff.mp hhash
    obtain ⟨discriminator, payload, _⟩ := d
    refine ⟨payloadHash, hdenotes, ?_⟩
    rw [AccountData.mk.injEq]
    exact ⟨eq_discriminatorOf_iff.mpr hdiscriminator, hpayload, heq⟩

/-- The checks of an account record, in their order. -/
def AccountRecord.checks (chains : List TreeChain) (r : AccountRecord) : List Check :=
  [Check.pubkey r.tree, Check.known chains r.tree] ++ r.data.toList.flatMap DataRecord.checks ++
    [Check.pubkey r.owner] ++ r.address.toList.flatMap Check.scalar ++ Check.scalar r.hash

/-- The account is that of the record, in the first known tree with the record's key. -/
structure AccountRecord.Gives (chains : List TreeChain) (r : AccountRecord) (w : LocatedAccount) :
    Prop where
  chain : TreeChain.IsFirstOf chains r.tree w.context.chain
  data : Option.Rel DataRecord.Gives r.data w.account.data
  owner : r.owner = Base58.encode w.account.owner.bytes
  address : Option.Rel Hash.DenotedBy r.address w.account.address
  hash : Scalar.DenotesBase58 r.hash w.context.hash.val
  lamports : w.account.lamports = r.lamports
  leafIndex : w.context.leafIndex = r.leafIndex
  proveByIndex : w.context.proveByIndex = r.proveByIndex
  readOnly : w.readOnly = false

theorem AccountRecord.judged_toLocated (r : AccountRecord) (chains : List TreeChain) :
    Judged (r.toLocated chains) (r.checks chains) (r.Gives chains) := by
  have hsteps :=
    (judged_pubkey r.tree).bind fun tree htree =>
    (judged_lookup chains htree).bind fun chain _ =>
    (judged_optional DataRecord.judged_toData r.data).bind fun data _ =>
    (judged_pubkey r.owner).bind fun owner _ =>
    (judged_optional judged_hash r.address).bind fun address _ =>
    (judged_scalar r.hash).bind fun hash _ =>
    judged_pure (LocatedAccount.mk ⟨owner, r.lamports, address, data⟩
      ⟨hash, chain, r.leafIndex, r.proveByIndex⟩ false)
  have hchecks : r.checks chains = [Check.pubkey r.tree] ++ ([Check.known chains r.tree] ++
      (r.data.toList.flatMap DataRecord.checks ++ ([Check.pubkey r.owner] ++
        (r.address.toList.flatMap Check.scalar ++ (Check.scalar r.hash ++ []))))) := by
    simp only [checks, List.append_assoc, List.append_nil, List.cons_append, List.nil_append]
  rw [hchecks]
  refine hsteps.congr fun w => ?_
  constructor
  · rintro ⟨tree, htree, chain, hchain, data, hdata, owner, howner, address, haddress, hash, hhash,
      rfl⟩
    exact ⟨⟨tree, htree, hchain⟩, hdata, howner, haddress, hhash, rfl, rfl, rfl, rfl⟩
  · rintro ⟨⟨tree, htree, hchain⟩, hdata, howner, haddress, hhash, hlamports, hleafIndex,
      hproveByIndex, hreadOnly⟩
    refine ⟨tree, htree, _, hchain, _, hdata, _, howner, _, haddress, _, hhash, ?_⟩
    rw [← hlamports, ← hleafIndex, ← hproveByIndex, ← hreadOnly]

/-! ### From an account to a record -/

/-- The record of data. -/
def DataRecord.ofData (d : AccountData) : DataRecord where
  discriminator := UInt64.ofNat (Bytes.ofLittleEndian d.discriminator.bytes)
  payload := d.payload
  payloadHash := Base58.encode d.payloadHash.bytes

/-- The record of an account in the first tree of its chain. -/
def AccountRecord.ofLocated (w : LocatedAccount) : AccountRecord where
  hash := w.context.hash.toBase58
  address := w.account.address.map fun address => Base58.encode address.bytes
  data := w.account.data.map DataRecord.ofData
  owner := Base58.encode w.account.owner.bytes
  lamports := w.account.lamports
  tree := Base58.encode w.context.chain.first.tree.bytes
  leafIndex := w.context.leafIndex
  proveByIndex := w.context.proveByIndex

theorem Hash.denotedBy_encode {h : Hash} (hlt : h.toNat < Scalar.modulus) :
    Hash.DenotedBy (Base58.encode h.bytes) h :=
  ⟨Scalar.denotesBase58_encode h.bytes, hlt⟩

theorem Scalar.denotesBase58_toBase58 (a : Scalar) : Scalar.DenotesBase58 a.toBase58 a.val := by
  have hdenotes := Scalar.denotesBase58_encode a.toHash.bytes
  have hvalue : Bytes.ofBigEndian a.toHash.bytes = a.val := Scalar.toNat_toHash a
  rwa [hvalue] at hdenotes

theorem DataRecord.gives_ofData {d : AccountData} (hlt : d.payloadHash.toNat < Scalar.modulus) :
    (DataRecord.ofData d).Gives d where
  discriminator := (UInt64.toNat_ofNat_of_lt' d.discriminator.ofLittleEndian_lt).symm
  payload := rfl
  payloadHash := Hash.denotedBy_encode hlt

theorem optionRel_map {α β : Type} {R : α → β → Prop} {f : β → α} {o : Option β}
    (h : ∀ b ∈ o, R (f b) b) : Option.Rel R (o.map f) o := by
  cases o with
  | none => exact Option.Rel.none
  | some b => exact Option.Rel.some (h b rfl)

theorem AccountRecord.gives_ofLocated {w : LocatedAccount} {chains : List TreeChain}
    (hreadOnly : w.readOnly = false)
    (haddress : ∀ address ∈ w.account.address, address.toNat < Scalar.modulus)
    (hdata : ∀ d ∈ w.account.data, d.payloadHash.toNat < Scalar.modulus)
    (hchain : TreeChain.IsFirst chains w.context.chain.first.tree w.context.chain) :
    (AccountRecord.ofLocated w).Gives chains w where
  chain := ⟨w.context.chain.first.tree, rfl, hchain⟩
  data := optionRel_map fun d hd => DataRecord.gives_ofData (hdata d hd)
  owner := rfl
  address := optionRel_map fun address ha => Hash.denotedBy_encode (haddress address ha)
  hash := Scalar.denotesBase58_toBase58 w.context.hash
  lamports := rfl
  leafIndex := rfl
  proveByIndex := rfl
  readOnly := hreadOnly

/-! ### Texts in a call -/

/-- The text of a key is short enough for the reader of keys, stands for 32 bytes, and is read as
the key. -/
structure Pubkey.TextReadsBack (key : Pubkey) : Prop where
  length_le : (Base58.encode key.bytes).toList.length ≤ 44
  utf8ByteSize_le : (Base58.encode key.bytes).utf8ByteSize ≤ Pubkey.maxTextLength
  decode : ∃ bs, Base58.decode? (Base58.encode key.bytes).toList = some bs ∧ bs.length = 32
  ofText : Pubkey.ofText (Base58.encode key.bytes) = .ok key

theorem Pubkey.textReadsBack (key : Pubkey) : key.TextReadsBack where
  length_le := Pubkey.length_text_le key
  utf8ByteSize_le := by
    rw [Base58.utf8ByteSize_encode]
    exact Pubkey.length_text_le key
  decode := ⟨key.bytes, Base58.decode?_encode key.bytes, key.length_bytes⟩
  ofText := Pubkey.ofText_eq_ok_iff.mpr rfl

/-- The text is read as the address, if that is below the modulus, and is refused otherwise. -/
structure Hash.TextReadsBack (text : String) (address : Hash) : Prop where
  eq_ok_of_lt : address.toNat < Scalar.modulus → Hash.ofText text = .ok address
  eq_outOfRange_of_le : Scalar.modulus ≤ address.toNat →
    Hash.ofText text = .error .scalarOutOfRange

theorem Hash.textReadsBack_encode (address : Hash) :
    Hash.TextReadsBack (Base58.encode address.bytes) address where
  eq_ok_of_lt := fun hlt =>
    ((judged_hash _).eq_ok_iff address).mpr (Hash.denotedBy_encode hlt)
  eq_outOfRange_of_le := by
    intro hle
    have hdenotes := Scalar.denotesBase58_encode address.bytes
    apply ((judged_hash _).eq_error_iff _).mpr
    refine FirstFailure.later hdenotes.mem_alphabet (FirstFailure.here ?_)
    show ¬Base58.positional (Scalar.trimmed (Base58.encode address.bytes)) < Scalar.modulus
    rw [hdenotes.positional_eq]
    exact Nat.not_lt.mpr hle

theorem Scalar.ofText_toBase58 (a : Scalar) : Scalar.ofText a.toBase58 = .ok a :=
  ((judged_scalar _).eq_ok_iff a).mpr (Scalar.denotesBase58_toBase58 a)

/-- Every text in a call is read as the value the call was made for. -/
structure CallsReadBack (id : String) : Prop where
  byHash : ∀ hash : Scalar, ∃ text, (Call.accountByHash id hash).params = ⟨some text, none⟩ ∧
    Scalar.ofText text = .ok hash
  byAddress : ∀ address : Hash, ∃ text,
    (Call.accountByAddress id address).params = ⟨none, some text⟩ ∧
      Hash.TextReadsBack text address
  proof_hashes : ∀ (hashes : List Scalar) (addresses : List (Hash × Pubkey)),
    (Call.validityProof id hashes addresses).params.hashes.mapM Scalar.ofText = .ok hashes
  proof_addresses : ∀ (hashes : List Scalar) (addresses : List (Hash × Pubkey)),
    List.Forall₂ (fun entry pair => Hash.TextReadsBack entry.address pair.1 ∧
      Pubkey.ofText entry.tree = .ok pair.2)
      (Call.validityProof id hashes addresses).params.addresses addresses

theorem mapM_ofText_map_toBase58 (hashes : List Scalar) :
    (hashes.map Scalar.toBase58).mapM Scalar.ofText = .ok hashes := by
  have hgives : List.Forall₂ (fun s (a : Scalar) => Scalar.DenotesBase58 s a.val)
      (hashes.map Scalar.toBase58) hashes := by
    rw [List.forall₂_map_left_iff, List.forall₂_same]
    exact fun a _ => Scalar.denotesBase58_toBase58 a
  exact ((judged_mapM judged_scalar _).eq_ok_iff hashes).mpr hgives

theorem callsReadBack (id : String) : CallsReadBack id where
  byHash := fun hash => ⟨_, rfl, Scalar.ofText_toBase58 hash⟩
  byAddress := fun address => ⟨_, rfl, Hash.textReadsBack_encode address⟩
  proof_hashes := fun hashes _ => mapM_ofText_map_toBase58 hashes
  proof_addresses := by
    intro hashes addresses
    show List.Forall₂ _ (addresses.map fun pair =>
      AddressInTree.mk (Base58.encode pair.1.bytes) (Base58.encode pair.2.bytes)) addresses
    rw [List.forall₂_map_left_iff, List.forall₂_same]
    rintro ⟨address, tree⟩ -
    exact ⟨Hash.textReadsBack_encode address, (Pubkey.textReadsBack tree).ofText⟩

/-- **Accounts and calls survive their texts.**  The record of an account whose address and payload
hash are below the modulus is converted into the account again, wherever its chain is the first with
the tree's key.  The text of every key is read as the key, and every text of a call as its value,
but an address that is not below the modulus is out of range. -/
theorem texts_read_back :
    (∀ (w : LocatedAccount) (chains : List TreeChain), w.readOnly = false →
      (∀ address ∈ w.account.address, address.toNat < Scalar.modulus) →
      (∀ d ∈ w.account.data, d.payloadHash.toNat < Scalar.modulus) →
      TreeChain.IsFirst chains w.context.chain.first.tree w.context.chain →
      (AccountRecord.ofLocated w).toLocated chains = .ok w) ∧
    (∀ key : Pubkey, key.TextReadsBack) ∧ ∀ id : String, CallsReadBack id := by
  refine ⟨fun w chains hreadOnly haddress hdata hchain => ?_, Pubkey.textReadsBack, callsReadBack⟩
  have hgives := AccountRecord.gives_ofLocated hreadOnly haddress hdata hchain
  exact ((AccountRecord.judged_toLocated _ chains).eq_ok_iff w).mpr hgives

/-- An account with an address and data in the second of two chains, and a call for an address that
is the modulus itself. -/
theorem texts_read_back_of_second_chain :
    let other := TreeChain.single ⟨.ofNat 12, .ofNat 13, .stateV2, none⟩
    let chain := TreeChain.single ⟨.ofNat 10, .ofNat 11, .stateV1, none⟩
    let w : LocatedAccount :=
      ⟨⟨.zero, 1000, some (.ofNat 7), some ⟨.ofNat 1, [1, 2, 3], .ofNat 9⟩⟩, ⟨0, chain, 5, true⟩,
        false⟩
    (AccountRecord.ofLocated w).toLocated [other, chain] = .ok w ∧
      Hash.ofText (Base58.encode Scalar.modulusBytes) = .error .scalarOutOfRange := by
  intro other chain w
  obtain ⟨haccounts, -, hcalls⟩ := texts_read_back
  constructor
  · refine haccounts w [other, chain] rfl ?_ ?_ ⟨[other], [], rfl, Or.inl rfl, ?_⟩
    · intro address haddress
      cases haddress
      decide
    · intro d hd
      cases hd
      decide
    · rw [List.forall_mem_singleton]
      decide
  · obtain ⟨text, hparams, htext⟩ := (hcalls "1").byAddress ⟨Scalar.modulusBytes, rfl⟩
    cases hparams
    apply htext.eq_outOfRange_of_le
    show Scalar.modulus ≤ Bytes.ofBigEndian Scalar.modulusBytes
    rw [Scalar.ofBigEndian_modulusBytes]

end CompressedLedger
