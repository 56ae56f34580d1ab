import CompressedLedger.Proofs.Account.Refusals

/-!
# What a leaf commits to

Two accounts with one leaf hash have the same index, the same content, and owners and trees that are
equal or a collision under the seal, unless their lists of Poseidon inputs are themselves a
collision (`leafHash_binding`).  Content is what the hash reads: the lamports, the address, the
discriminator and the hash of the payload (`SameContent`).

There is one exception, and it needs no collision.  An address carries no mark, so an account with
an amount and no address has the inputs of the account with no amount and the marked form of that
amount as its address (`IsAlias`).  Both then have one leaf hash, whatever Poseidon is
(`leafHash_binding_of_alias`).
-/

namespace CompressedLedger

/-- Keys that are equal, or different byte strings of one hash under the seal. -/
def SealedAlike (x y : Pubkey) : Prop :=
  x = y ∨ Truncated.Collides (x.bytes ++ [Truncated.sealByte]) (y.bytes ++ [Truncated.sealByte])

theorem sealedAlike_of_sealed_eq {x y : Pubkey}
    (h : Truncated.sealed x.bytes = Truncated.sealed y.bytes) : SealedAlike x y := by
  rcases Truncated.eq_or_collides h with hbytes | hcollides
  · exact Or.inl (FixedBytes.ext (List.append_cancel_right hbytes))
  · exact Or.inr hcollides

namespace Account

/-- The leaf hash reads the same amount, address and data. -/
structure SameContent (a b : Account) : Prop where
  lamports_eq : a.lamports = b.lamports
  address_eq : a.address = b.address
  dataKey_eq : a.dataKey = b.dataKey

/-- The accounts have the same data, and the amount of one is the address of the other. -/
structure IsAlias (a b : Account) : Prop where
  aliased : a.AliasedBy b ∨ b.AliasedBy a
  dataKey_eq : a.dataKey = b.dataKey

/-- The inputs for the content are equal for equal contents and for aliases, and for no others. -/
theorem contentInputs_eq_iff {a b : Account} :
    (a.valueInputs = b.valueInputs ∧ a.dataInputs = b.dataInputs) ↔
      a.SameContent b ∨ a.IsAlias b := by
  rw [valueInputs_eq_iff, dataInputs_eq_iff]
  constructor
  · rintro ⟨⟨hlamports, haddress⟩ | halias, hdata⟩
    · exact Or.inl ⟨hlamports, haddress, hdata⟩
    · exact Or.inr ⟨halias, hdata⟩
  · rintro (h | h)
    · exact ⟨Or.inl ⟨h.lamports_eq, h.address_eq⟩, h.dataKey_eq⟩
    · exact ⟨Or.inr h.aliased, h.dataKey_eq⟩

/-- **A leaf binds its account and its place.**  If two accounts have one leaf hash, then they have
the same index and owners and trees that are alike under the seal, and they have the same content or
are aliases; or their input lists are different and have one hash.  Conversely, with one index,
owner and tree, accounts of the same content and aliases always have the same outcome. -/
theorem leafHash_binding (a b : Account) (tree tree' : Pubkey) (i j : UInt32) (batched : Bool) :
    (∀ leaf, a.leafHash tree i batched = .ok leaf → b.leafHash tree' j batched = .ok leaf →
      (i = j ∧ SealedAlike a.owner b.owner ∧ SealedAlike tree tree' ∧ a.SameContent b) ∨
      (i = j ∧ SealedAlike a.owner b.owner ∧ SealedAlike tree tree' ∧ a.IsAlias b) ∨
      Poseidon.Collides
        (a.leafInputs (Truncated.sealed a.owner.bytes) (Truncated.sealed tree.bytes) i batched)
        (b.leafInputs (Truncated.sealed b.owner.bytes) (Truncated.sealed tree'.bytes) j batched)) ∧
    (i = j ∧ a.owner = b.owner ∧ tree = tree' ∧ (a.SameContent b ∨ a.IsAlias b) →
      a.leafHash tree i batched = b.leafHash tree' j batched) := by
  constructor
  · intro leaf ha hb
    by_cases hinputs :
        a.leafInputs (Truncated.sealed a.owner.bytes) (Truncated.sealed tree.bytes) i batched =
        b.leafInputs (Truncated.sealed b.owner.bytes) (Truncated.sealed tree'.bytes) j batched
    · -- the inputs are equal, so everything in them can be read back
      obtain ⟨hownerHash, hindex, htreeHash, hcontent⟩ := leafInputs_eq_iff.mp hinputs
      have howner : SealedAlike a.owner b.owner := sealedAlike_of_sealed_eq hownerHash
      have htree : SealedAlike tree tree' := sealedAlike_of_sealed_eq htreeHash
      rcases contentInputs_eq_iff.mp hcontent with hsame | halias
      · exact Or.inl ⟨hindex, howner, htree, hsame⟩
      · exact Or.inr (Or.inl ⟨hindex, howner, htree, halias⟩)
    · exact Or.inr (Or.inr ⟨hinputs, leaf, ha, hb⟩)
  · rintro ⟨rfl, howner, rfl, hcontent⟩
    obtain ⟨hvalue, hdata⟩ := contentInputs_eq_iff.mpr hcontent
    unfold leafHash leafHashWith
    rw [leafInputs_eq, leafInputs_eq, howner, hvalue, hdata]

/-- Five lamports without an address, and no lamports with the marked five as the address, have one
leaf hash. -/
theorem leafHash_binding_of_alias :
    ∃ leaf,
      leafHash ⟨.zero, 5, none, none⟩ .zero 7 true = .ok leaf ∧
      leafHash ⟨.zero, 0, some ⟨List.replicate 23 0 ++ 1 :: [0, 0, 0, 0, 0, 0, 0, 5], rfl⟩, none⟩
        .zero 7 true = .ok leaf := by
  obtain ⟨leaf, hleaf⟩ := @exists_leafHash_eq_ok ⟨.zero, 5, none, none⟩
    (fun _ hx => nomatch hx) (fun _ hd => nomatch hd) .zero 7 true
  refine ⟨leaf, hleaf, ?_⟩
  rw [← hleaf]
  have halias : IsAlias
      ⟨.zero, 0, some ⟨List.replicate 23 0 ++ 1 :: [0, 0, 0, 0, 0, 0, 0, 5], rfl⟩, none⟩
      ⟨.zero, 5, none, none⟩ :=
    ⟨Or.inr ⟨by decide, rfl, rfl, by decide⟩, rfl⟩
  exact (leafHash_binding _ _ .zero .zero 7 7 true).2 ⟨rfl, rfl, rfl, Or.inr halias⟩

end Account

end CompressedLedger
