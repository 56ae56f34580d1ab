import CompressedLedger.Address.Derivation
import CompressedLedger.Proofs.Hash.Truncated

/-!
# What an address commits to

Each version hashes twice: the seeds to a seed, and that seed with the tree to the address.  The
byte strings that go into the two hashes are `seedPreimage` and `addressPreimage`.  Deriving an
address never fails, and the address is the hash of its preimage (`derive_eq_ok`).

Trees, programs and seeds have 32 bytes each, and the versions put a different number of them into
the address preimage, so that preimage tells the version and all its parts (`addressPreimage_inj`).
The seed preimage has one part of variable length, the joined seeds, and tells that part
(`seedPreimage_inj`).  Equal addresses therefore come from equal requests, up to how the seeds are
split, or from a collision in one of the two hashes (`derive_separates`).
-/

namespace CompressedLedger.AddressVersion

/-! ### The two preimages -/

/-- The byte string whose hash is the seed. -/
def seedPreimage (version : AddressVersion) (program : Pubkey) (seeds : List (List UInt8)) :
    List UInt8 :=
  match version with
  | v1 => program.bytes ++ seeds.flatten
  | v2 => seeds.flatten ++ [Truncated.sealByte]

/-- The byte string whose hash is the address. -/
def addressPreimage (version : AddressVersion) (seeds : List (List UInt8)) (tree program : Pubkey) :
    List UInt8 :=
  match version with
  | v1 => tree.bytes ++ (v1.seed program seeds).bytes ++ [Truncated.sealByte]
  | v2 => (v2.seed program seeds).bytes ++ tree.bytes ++ program.bytes ++ [Truncated.sealByte]

theorem seed_eq_hash (version : AddressVersion) (program : Pubkey) (seeds : List (List UInt8)) :
    version.seed program seeds = Truncated.hash (version.seedPreimage program seeds) := by
  cases version with
  | v1 => rfl
  | v2 => rfl

/-- Every request has an address. -/
theorem derive_eq_ok (version : AddressVersion) (seeds : List (List UInt8))
    (tree program : Pubkey) :
    version.derive seeds tree program =
      .ok (Truncated.hash (version.addressPreimage seeds tree program)) := by
  cases version with
  | v1 =>
    rw [derive, Address.ofSeedV1, if_pos (FixedBytes.length_bytes _), Truncated.search_eq_sealed]
    rfl
  | v2 =>
    rw [derive, Address.ofSeedV2, if_pos (FixedBytes.length_bytes _), addressPreimage,
      Truncated.sealedAll, Truncated.sealed]
    simp only [List.flatten_cons, List.flatten_nil, List.append_nil, List.append_assoc, seed]

/-! ### Reading the preimages back -/

/-- The preimages of the two versions differ in length by a key. -/
theorem addressPreimage_v1_ne_v2 (seeds seeds' : List (List UInt8))
    (tree tree' program program' : Pubkey) :
    v1.addressPreimage seeds tree program ≠ v2.addressPreimage seeds' tree' program' := by
  intro h
  have hlength := congrArg List.length h
  simp only [addressPreimage, List.length_append, FixedBytes.length_bytes, List.length_singleton]
    at hlength
  omega

/-- The address preimage tells the version, the tree, the seed and, in version 2, the program. -/
theorem addressPreimage_inj {version version' : AddressVersion} {seeds seeds' : List (List UInt8)}
    {tree tree' program program' : Pubkey}
    (h : version.addressPreimage seeds tree program =
      version'.addressPreimage seeds' tree' program') :
    version = version' ∧ tree = tree' ∧
      version.seed program seeds = version'.seed program' seeds' ∧
      (version = v2 → program = program') := by
  cases version with
  | v1 =>
    cases version' with
    | v1 =>
      obtain ⟨hkeys, -⟩ := List.append_inj' h rfl
      obtain ⟨htree, hseed⟩ := List.append_inj hkeys (by rw [tree.length_bytes, tree'.length_bytes])
      exact ⟨rfl, FixedBytes.ext htree, FixedBytes.ext hseed, fun hv => nomatch hv⟩
    | v2 => exact absurd h (addressPreimage_v1_ne_v2 _ _ _ _ _ _)
  | v2 =>
    cases version' with
    | v1 => exact absurd h.symm (addressPreimage_v1_ne_v2 _ _ _ _ _ _)
    | v2 =>
      obtain ⟨hkeys, -⟩ := List.append_inj' h rfl
      obtain ⟨hkeys, hprogram⟩ :=
        List.append_inj' hkeys (by rw [program.length_bytes, program'.length_bytes])
      obtain ⟨hseed, htree⟩ :=
        List.append_inj' hkeys (by rw [tree.length_bytes, tree'.length_bytes])
      exact ⟨rfl, FixedBytes.ext htree, FixedBytes.ext hseed, fun _ => FixedBytes.ext hprogram⟩

/-- The seed preimage tells the joined seeds and, in version 1, the program. -/
theorem seedPreimage_inj {version : AddressVersion} {program program' : Pubkey}
    {seeds seeds' : List (List UInt8)}
    (h : version.seedPreimage program seeds = version.seedPreimage program' seeds') :
    seeds.flatten = seeds'.flatten ∧ (version = v1 → program = program') := by
  cases version with
  | v1 =>
    obtain ⟨hprogram, hseeds⟩ :=
      List.append_inj h (by rw [program.length_bytes, program'.length_bytes])
    exact ⟨hseeds, fun _ => FixedBytes.ext hprogram⟩
  | v2 => exact ⟨(List.append_inj' h rfl).1, fun hv => nomatch hv⟩

/-- Only the joined seeds enter the preimages. -/
theorem addressPreimage_congr (version : AddressVersion) {seeds seeds' : List (List UInt8)}
    (h : seeds.flatten = seeds'.flatten) (tree program : Pubkey) :
    version.addressPreimage seeds tree program = version.addressPreimage seeds' tree program := by
  have hseed : version.seed program seeds = version.seed program seeds' := by
    rw [seed_eq_hash, seed_eq_hash]
    cases version <;> simp only [seedPreimage, h]
  cases version <;> simp only [addressPreimage, hseed]

/-- **Address derivation separates its inputs.**  Two requests always have addresses, the hashes of
their preimages.  Requests that agree in version, tree, program and joined seeds have one address;
and if two requests have one address, then they agree in all of these, or their address preimages
or their seed preimages are different byte strings of one hash.  The address preimages of different
versions are never equal. -/
theorem derive_separates (version version' : AddressVersion) (seeds seeds' : List (List UInt8))
    (tree tree' program program' : Pubkey) :
    (version.derive seeds tree program =
        .ok (Truncated.hash (version.addressPreimage seeds tree program)) ∧
      version'.derive seeds' tree' program' =
        .ok (Truncated.hash (version'.addressPreimage seeds' tree' program'))) ∧
    (version = version' ∧ tree = tree' ∧ program = program' ∧ seeds.flatten = seeds'.flatten →
      version.derive seeds tree program = version'.derive seeds' tree' program') ∧
    (version.derive seeds tree program = version'.derive seeds' tree' program' →
      (version = version' ∧ tree = tree' ∧ program = program' ∧ seeds.flatten = seeds'.flatten) ∨
      Truncated.Collides (version.addressPreimage seeds tree program)
        (version'.addressPreimage seeds' tree' program') ∨
      Truncated.Collides (version.seedPreimage program seeds)
        (version'.seedPreimage program' seeds')) ∧
    (version ≠ version' → version.addressPreimage seeds tree program ≠
      version'.addressPreimage seeds' tree' program') := by
  refine ⟨⟨derive_eq_ok .., derive_eq_ok ..⟩, ?_, ?_, ?_⟩
  · rintro ⟨rfl, rfl, rfl, hseeds⟩
    rw [derive_eq_ok, derive_eq_ok, addressPreimage_congr version hseeds]
  · intro haddress
    -- the address hash is taken off first, and the seed hash under it
    rw [derive_eq_ok, derive_eq_ok] at haddress
    rcases Truncated.eq_or_collides (Except.ok.inj haddress) with hpreimage | hcollides
    · obtain ⟨rfl, htree, hseed, hprogram₂⟩ := addressPreimage_inj hpreimage
      rw [seed_eq_hash, seed_eq_hash] at hseed
      rcases Truncated.eq_or_collides hseed with hpreimage | hcollides
      · obtain ⟨hseeds, hprogram₁⟩ := seedPreimage_inj hpreimage
        -- version 1 has the program in the seed preimage, version 2 in the address preimage
        have hprogram : program = program' := by
          cases version with
          | v1 => exact hprogram₁ rfl
          | v2 => exact hprogram₂ rfl
        exact Or.inl ⟨rfl, htree, hprogram, hseeds⟩
      · exact Or.inr (Or.inr hcollides)
    · exact Or.inr (Or.inl hcollides)
  · intro hversion hpreimage
    exact hversion (addressPreimage_inj hpreimage).1

end CompressedLedger.AddressVersion
