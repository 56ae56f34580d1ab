import CompressedLedger.Proofs.Account.Refusals
import CompressedLedger.Proofs.Indexer.Accounts

/-!
# Which account records are accepted

A record from outside can have any number of faults at once.  It is accepted exactly if it has none
(`AccountRecord.isValid_iff`); otherwise the check that comes first decides the failure.  The checks
begin with the tree and end with the hash, which is not the order of the record's fields.

What an accepted record gives lies in the field, the values it holds as plain bytes included
(`AccountRecord.Gives.isInField`).  So its leaf hash is never refused, and asking whether the
indexer told the right hash always has an answer (`LocatedAccount.IsInField.exists_verifyHash`).
-/

namespace CompressedLedger

/-! ### Valid fields -/

/-- The text denotes a number below the modulus. -/
def Scalar.IsText (s : String) : Prop := ∃ n < Scalar.modulus, Scalar.DenotesBase58 s n

theorem Scalar.isText_iff {s : String} :
    Scalar.IsText s ↔ ∀ check ∈ Check.scalar s, check.Holds := by
  simp only [Check.scalar, List.forall_mem_cons, List.not_mem_nil, false_imp_iff, implies_true,
    and_true]
  constructor
  · rintro ⟨n, hlt, halphabet, rfl⟩
    exact ⟨halphabet, hlt⟩
  · rintro ⟨halphabet, hlt⟩
    exact ⟨_, hlt, halphabet, rfl⟩

namespace AccountRecord

/-- Every text of the record stands for a value of its kind, and a known tree or its queue has the
key of the record's tree. -/
structure IsValid (chains : List TreeChain) (r : AccountRecord) : Prop where
  tree : ∃ key : Pubkey, r.tree = Base58.encode key.bytes ∧ ∃ chain ∈ chains, chain.HasKey key
  owner : ∃ key : Pubkey, r.owner = Base58.encode key.bytes
  hash : Scalar.IsText r.hash
  payloadHash : ∀ d ∈ r.data, Scalar.IsText d.payloadHash
  address : ∀ text ∈ r.address, Scalar.IsText text

variable {chains : List TreeChain} {r : AccountRecord}

theorem isValid_iff : r.IsValid chains ↔ ∀ check ∈ r.checks chains, check.Holds := by
  simp only [checks, DataRecord.checks, List.forall_mem_append, List.forall_mem_cons,
    List.forall_mem_flatMap, Option.mem_toList, ← Scalar.isText_iff, List.not_mem_nil,
    false_imp_iff, implies_true, and_true]
  constructor
  · rintro ⟨htree, howner, hhash, hdata, haddress⟩
    -- the text of a known tree is that of a key
    have hkey : ∃ key : Pubkey, r.tree = Base58.encode key.bytes := htree.imp fun _ h => h.1
    exact ⟨⟨⟨⟨⟨hkey, htree⟩, hdata⟩, howner⟩, haddress⟩, hhash⟩
  · rintro ⟨⟨⟨⟨⟨-, htree⟩, hdata⟩, howner⟩, haddress⟩, hhash⟩
    exact ⟨htree, howner, hhash, hdata, haddress⟩

end AccountRecord

/-! ### Accepted accounts -/

/-- The hash of the account's place, its address and the hash of its payload are below the
modulus. -/
structure LocatedAccount.IsInField (w : LocatedAccount) : Prop where
  hash : w.context.hash.toHash.toNat < Scalar.modulus
  address : ∀ x ∈ w.account.address, x.toNat < Scalar.modulus
  payloadHash : ∀ d ∈ w.account.data, d.payloadHash.toNat < Scalar.modulus

theorem LocatedAccount.IsInField.exists_verifyHash {w : LocatedAccount} (h : w.IsInField) :
    ∃ answer, w.verifyHash = .ok answer := by
  have hleaf := Account.exists_leafHash_eq_ok h.address h.payloadHash
    w.context.chain.first.tree w.context.leafIndex w.context.chain.first.kind.isBatched
  rw [Except.exists_eq_ok_iff] at hleaf ⊢
  intro e he
  exact hleaf e (Account.verifyHash_eq_error_iff.mp he)

/-- What holds of every value given for another one holds of the value that is there. -/
theorem forall_mem_of_optionRel {α β : Type} {R : α → β → Prop} {P : β → Prop} {o : Option α}
    {o' : Option β} (h : Option.Rel R o o') (hR : ∀ a b, R a b → P b) : ∀ b ∈ o', P b := by
  rcases h with h | -
  · rintro b ⟨⟩
    exact hR _ _ h
  · simp

namespace AccountRecord

variable {chains : List TreeChain} {r : AccountRecord}

theorem Gives.isInField {w : LocatedAccount} (h : r.Gives chains w) : w.IsInField where
  hash := by
    rw [Scalar.toNat_toHash]
    exact w.context.hash.isLt
  address := forall_mem_of_optionRel h.address fun _ _ haddress => haddress.lt_modulus
  payloadHash := forall_mem_of_optionRel h.data fun _ _ hdata => hdata.payloadHash.lt_modulus

/-- **An account record is accepted exactly if every field is valid, and refused for its first
fault.**  An accepted record gives the account it describes, with the first known tree that has its
key; the account lies in the field, so it can be verified.  Any other record fails with the cause of
the first check that does not hold: of the tree's text, of the tree, of the hash of the payload, of
the owner, of the address and of the hash, where the format of a scalar comes before its range. -/
theorem toLocated_first_fault (r : AccountRecord) (chains : List TreeChain) :
    ((∃ w, r.toLocated chains = .ok w) ↔ r.IsValid chains) ∧
      (∀ w, r.toLocated chains = .ok w ↔ r.Gives chains w) ∧
      (∀ w, r.toLocated chains = .ok w → w.IsInField ∧ ∃ answer, w.verifyHash = .ok answer) ∧
      ∀ e, r.toLocated chains = .error e ↔ FirstFailure (r.checks chains) e := by
  have hjudged := r.judged_toLocated chains
  refine ⟨hjudged.exists_ok_iff.trans isValid_iff.symm, hjudged.eq_ok_iff, fun w hw => ?_,
    hjudged.eq_error_iff⟩
  have hfield := ((hjudged.eq_ok_iff w).mp hw).isInField
  exact ⟨hfield, hfield.exists_verifyHash⟩

/-- A record that names the queue of the second known tree is accepted.  With other fields it has
several faults at once: an unknown tree comes before a bad owner, a payload hash that is no numeral
before a bad owner, a bad owner before a bad address, and an address out of range before a hash that
is no numeral. -/
theorem toLocated_first_fault_of_many :
    let text (n : ℕ) := Base58.encode (FixedBytes.ofNat n : Pubkey).bytes
    let other := TreeChain.single ⟨.ofNat 12, .ofNat 13, .stateV2, none⟩
    let chain := TreeChain.single ⟨.ofNat 10, .ofNat 11, .stateV1, none⟩
    let r : AccountRecord := ⟨text 1, some (text 2), some ⟨3, [4], text 5⟩, text 6, 7, text 11, 8,
      true⟩
    let large := Base58.encode Scalar.modulusBytes
    (∃ w, r.toLocated [other, chain] = .ok w ∧ w.context.chain = chain ∧
      ∃ answer, w.verifyHash = .ok answer) ∧
    ({ r with tree := text 14, owner := "0" } : AccountRecord).toLocated [other, chain] =
      .error .unknownTree ∧
    ({ r with data := some ⟨3, [4], "0"⟩, owner := "0" } : AccountRecord).toLocated [other, chain] =
      .error .malformedScalar ∧
    ({ r with owner := "0", address := some "0" } : AccountRecord).toLocated [other, chain] =
      .error .malformedPubkey ∧
    ({ r with address := some large, hash := "0" } : AccountRecord).toLocated [other, chain] =
      .error .scalarOutOfRange := by
  intro text other chain r large
  have hfirst : TreeChain.IsFirst [other, chain] (.ofNat 11) chain := by
    refine ⟨[other], [], rfl, Or.inr rfl, ?_⟩
    rw [List.forall_mem_singleton]
    decide
  have hknown : ∃ key : Pubkey, text 11 = Base58.encode key.bytes ∧
      ∃ c ∈ [other, chain], c.HasKey key :=
    ⟨.ofNat 11, rfl, TreeChain.exists_isFirst_iff.mp ⟨chain, hfirst⟩⟩
  have hpayload : Hash.DenotedBy (text 5) (.ofNat 5) := Hash.denotedBy_encode (by decide)
  have hpayloadRange : Base58.positional (Scalar.trimmed (text 5)) < Scalar.modulus := by
    rw [hpayload.denotes.positional_eq]
    exact hpayload.lt_modulus
  have hformat : ¬∀ c ∈ Scalar.trimmed "0", c ∈ Base58.alphabet := by
    have htrim : Scalar.trimmed "0" = ['0'] := by decide
    rw [htrim, List.forall_mem_singleton]
    decide
  have howner : ¬∃ key : Pubkey, "0" = Base58.encode key.bytes := by
    rintro ⟨key, htext⟩
    have hmem : '0' ∈ (Base58.encode key.bytes).toList := by
      rw [← htext]
      decide
    exact absurd (Base58.mem_alphabet_of_mem_encode hmem) (by decide)
  have hlarge := Scalar.denotesBase58_encode Scalar.modulusBytes
  have hlargeRange : ¬Base58.positional (Scalar.trimmed large) < Scalar.modulus := by
    rw [hlarge.positional_eq, Scalar.ofBigEndian_modulusBytes]
    exact Nat.lt_irrefl _
  refine ⟨?_, ?_, ?_, ?_, ?_⟩
  · obtain ⟨-, hgives, hfield, -⟩ := toLocated_first_fault r [other, chain]
    have hw := (hgives ⟨⟨.ofNat 6, 7, some (.ofNat 2), some ⟨discriminatorOf 3, [4], .ofNat 5⟩⟩,
      ⟨⟨1, by decide⟩, chain, 8, true⟩, false⟩).mpr
      { chain := ⟨.ofNat 11, rfl, hfirst⟩
        data := .some ⟨eq_discriminatorOf_iff.mp rfl, rfl, hpayload⟩
        owner := rfl
        address := .some (Hash.denotedBy_encode (by decide))
        hash := Scalar.denotesBase58_toBase58 ⟨1, by decide⟩
        lamports := rfl
        leafIndex := rfl
        proveByIndex := rfl
        readOnly := rfl }
    exact ⟨_, hw, rfl, (hfield _ hw).2⟩
  · have hunknown : ¬∃ c ∈ [other, chain], c.HasKey (.ofNat 14) := by decide
    refine ((toLocated_first_fault _ _).2.2.2 _).mpr (.later ⟨_, rfl⟩ (.here ?_))
    rintro ⟨key, htext, hkey⟩
    rw [← Pubkey.eq_of_text htext] at hkey
    exact hunknown hkey
  · exact ((toLocated_first_fault _ _).2.2.2 _).mpr
      (.later ⟨_, rfl⟩ (.later hknown (.here hformat)))
  · exact ((toLocated_first_fault _ _).2.2.2 _).mpr (.later ⟨_, rfl⟩ (.later hknown
      (.later hpayload.denotes.mem_alphabet (.later hpayloadRange (.here howner)))))
  · exact ((toLocated_first_fault _ _).2.2.2 _).mpr (.later ⟨_, rfl⟩ (.later hknown
      (.later hpayload.denotes.mem_alphabet (.later hpayloadRange (.later ⟨_, rfl⟩
        (.later hlarge.mem_alphabet (.here hlargeRange)))))))

end AccountRecord

end CompressedLedger
