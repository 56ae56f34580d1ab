import CompressedLedger.Account.LeafHash
import CompressedLedger.Proofs.Hash.Truncated
import CompressedLedger.Proofs.Poseidon.Inputs

/-!
# The inputs of the leaf hash

Behind the owner, the leaf index and the tree stand the inputs that depend on the account: the
marked lamports and the address (`valueInputs`), and the marked discriminator with the hash of the
payload (`dataInputs`).

Every input made from other values starts with zero bytes and is below the modulus
(`LeafInput.toNat_marked_lt`, `LeafInput.toNat_leafIndex_lt`).

The optional inputs can be read back from the joined list (`optionalInputs_inj`): a marked
discriminator is never marked lamports, so a list with data is not one without.  Inside
`valueInputs` one ambiguity remains.  An address is free, and the address that is the marked form of
an amount is the same input as that amount (`valueInputs_eq_iff`).
-/

namespace CompressedLedger

namespace LeafInput

theorem marked_inj {mark mark' : UInt8} {word word' : FixedBytes 8} :
    marked mark word = marked mark' word' ↔ mark = mark' ∧ word = word' := by
  simp only [FixedBytes.ext_iff, marked, List.append_cancel_left_eq, List.cons.injEq]

theorem lamports_inj {m n : UInt64} : lamports m = lamports n ↔ m = n := by
  refine ⟨fun h => ?_, fun h => by rw [h]⟩
  have hword := congrArg FixedBytes.toNat (marked_inj.mp h).2
  rw [FixedBytes.toNat_ofNat m.toNat_lt, FixedBytes.toNat_ofNat n.toNat_lt] at hword
  exact UInt64.toNat_inj.mp hword

theorem discriminator_inj {d d' : FixedBytes 8} : discriminator d = discriminator d' ↔ d = d' := by
  rw [discriminator, discriminator, marked_inj]
  exact and_iff_right rfl

/-- The marks keep discriminators and lamports apart. -/
theorem discriminator_ne_lamports (d : FixedBytes 8) (n : UInt64) :
    discriminator d ≠ lamports n :=
  fun h => absurd (marked_inj.mp h).1 (by decide)

theorem leafIndex_inj {batched : Bool} {i j : UInt32} :
    leafIndex batched i = leafIndex batched j ↔ i = j := by
  refine ⟨fun h => ?_, fun h => by rw [h]⟩
  have hword := congrArg FixedBytes.bytes h
  simp only [leafIndex, List.append_cancel_left_eq] at hword
  apply UInt32.toNat_inj.mp
  cases batched with
  | false => exact (Bytes.toLittleEndian_inj i.toNat_lt j.toNat_lt).mp hword
  | true => exact (Bytes.toBigEndian_inj i.toNat_lt j.toNat_lt).mp hword

theorem toNat_marked_lt (mark : UInt8) (word : FixedBytes 8) :
    (marked mark word).toNat < Scalar.modulus :=
  Scalar.toNat_lt_modulus_of_head_zero rfl

theorem toNat_leafIndex_lt (batched : Bool) (i : UInt32) :
    (leafIndex batched i).toNat < Scalar.modulus :=
  Scalar.toNat_lt_modulus_of_head_zero rfl

end LeafInput

namespace Account

/-! ### The groups of inputs -/

/-- The inputs for the lamports, if there are any, and the address, if there is one. -/
def valueInputs (a : Account) : List Hash :=
  (if a.lamports = 0 then [] else [LeafInput.lamports a.lamports]) ++ a.address.toList

/-- The inputs for the data, if there are any. -/
def dataInputs (a : Account) : List Hash :=
  match a.data with
  | none => []
  | some d => [LeafInput.discriminator d.discriminator, d.payloadHash]

/-- What the leaf hash takes from the data. -/
def dataKey (a : Account) : Option (FixedBytes 8 × Hash) :=
  a.data.map fun d => (d.discriminator, d.payloadHash)

theorem leafInputs_eq (a : Account) (ownerHash treeHash : Hash) (i : UInt32) (batched : Bool) :
    a.leafInputs ownerHash treeHash i batched =
      ownerHash :: LeafInput.leafIndex batched i :: treeHash ::
        (a.valueInputs ++ a.dataInputs) := by
  show [ownerHash, LeafInput.leafIndex batched i, treeHash] ++ _ ++ a.address.toList ++
    a.dataInputs = _
  simp only [valueInputs, List.append_assoc, List.cons_append, List.nil_append]

theorem length_valueInputs_le (a : Account) : a.valueInputs.length ≤ 2 := by
  have haddress : a.address.toList.length ≤ 1 := Option.length_toList_le
  unfold valueInputs
  rw [List.length_append]
  split_ifs
  · rw [List.length_nil]
    omega
  · rw [List.length_singleton]
    omega

theorem length_dataInputs_le (a : Account) : a.dataInputs.length ≤ 2 := by
  unfold dataInputs
  cases a.data with
  | none => exact Nat.zero_le 2
  | some d => exact le_rfl

/-- There are three to seven inputs, which is no more than the hash admits. -/
theorem length_leafInputs_le (a : Account) (ownerHash treeHash : Hash) (i : UInt32)
    (batched : Bool) : (a.leafInputs ownerHash treeHash i batched).length ≤ Poseidon.maxInputs := by
  have hvalue := a.length_valueInputs_le
  have hdata := a.length_dataInputs_le
  have hmax : 7 ≤ Poseidon.maxInputs := by decide
  rw [leafInputs_eq, List.length_cons, List.length_cons, List.length_cons, List.length_append]
  omega

/-! ### Reading the groups back -/

/-- The amount of `a` and the address of `b` are one input: `a` has lamports and no address, `b` has
no lamports, and the address of `b` is the marked form of what `a` has. -/
structure AliasedBy (a b : Account) : Prop where
  lamports_ne_zero : a.lamports ≠ 0
  address_eq_none : a.address = none
  lamports_eq_zero : b.lamports = 0
  address_bytes : b.address.map (·.bytes) =
    some (List.replicate 23 0 ++ 1 :: Bytes.toBigEndian 8 a.lamports.toNat)

theorem AliasedBy.address_eq {a b : Account} (h : a.AliasedBy b) :
    b.address = some (LeafInput.lamports a.lamports) := by
  obtain ⟨x, hx, hbytes⟩ := Option.map_eq_some_iff.mp h.address_bytes
  rw [hx]
  exact congrArg some (FixedBytes.ext hbytes)

theorem AliasedBy.valueInputs_eq {a b : Account} (h : a.AliasedBy b) :
    a.valueInputs = b.valueInputs := by
  rw [valueInputs, valueInputs, if_neg h.lamports_ne_zero, if_pos h.lamports_eq_zero,
    h.address_eq_none, h.address_eq]
  rfl

theorem toList_injective : Function.Injective (Option.toList : Option Hash → List Hash) := by
  intro x y h
  cases x with
  | none => exact (Option.toList_eq_nil_iff.mp h.symm).symm
  | some x => exact (Option.toList_eq_singleton_iff.mp h.symm).symm

/-- An address that stands where another account has its lamports. -/
theorem aliasedBy_of_toList_eq {a b : Account} (ha : a.lamports ≠ 0) (hb : b.lamports = 0)
    (h : LeafInput.lamports a.lamports :: a.address.toList = b.address.toList) :
    a.AliasedBy b := by
  cases hbaddress : b.address with
  | none =>
    rw [hbaddress] at h
    cases h
  | some x =>
    rw [hbaddress, Option.toList_some, List.cons.injEq, Option.toList_eq_nil_iff] at h
    refine ⟨ha, h.2, hb, ?_⟩
    rw [hbaddress, ← h.1]
    rfl

theorem valueInputs_eq_iff {a b : Account} :
    a.valueInputs = b.valueInputs ↔
      (a.lamports = b.lamports ∧ a.address = b.address) ∨ a.AliasedBy b ∨ b.AliasedBy a := by
  constructor
  · intro h
    unfold valueInputs at h
    by_cases ha : a.lamports = 0
    · by_cases hb : b.lamports = 0
      · rw [if_pos ha, if_pos hb] at h
        exact Or.inl ⟨ha.trans hb.symm, toList_injective h⟩
      · rw [if_pos ha, if_neg hb] at h
        exact Or.inr (Or.inr (aliasedBy_of_toList_eq hb ha h.symm))
    · by_cases hb : b.lamports = 0
      · rw [if_neg ha, if_pos hb] at h
        exact Or.inr (Or.inl (aliasedBy_of_toList_eq ha hb h))
      · rw [if_neg ha, if_neg hb, List.singleton_append, List.singleton_append, List.cons.injEq,
          LeafInput.lamports_inj] at h
        exact Or.inl ⟨h.1, toList_injective h.2⟩
  · rintro (⟨hlamports, haddress⟩ | h | h)
    · rw [valueInputs, valueInputs, hlamports, haddress]
    · exact h.valueInputs_eq
    · exact h.valueInputs_eq.symm

theorem dataInputs_eq_iff {a b : Account} :
    a.dataInputs = b.dataInputs ↔ a.dataKey = b.dataKey := by
  unfold dataInputs dataKey
  cases a.data with
  | none => cases b.data <;> simp
  | some d => cases b.data <;> simp [LeafInput.discriminator_inj]

/-- No lamports and address look like data. -/
theorem valueInputs_ne_append_data (a b : Account) (d : FixedBytes 8) (payloadHash : Hash) :
    a.valueInputs ≠ b.valueInputs ++ [LeafInput.discriminator d, payloadHash] := by
  intro h
  -- there is room for the data only if `b` has neither an amount nor an address
  have hlength := congrArg List.length h
  have ha := a.length_valueInputs_le
  have hb : b.valueInputs = [] := by
    rw [← List.length_eq_zero_iff]
    rw [List.length_append, List.length_cons, List.length_singleton] at hlength
    omega
  rw [hb, List.nil_append, valueInputs] at h
  split_ifs at h
  · cases haddress : a.address <;> simp [haddress] at h
  · -- the amount of `a` would stand where the discriminator does
    rw [List.singleton_append, List.cons.injEq] at h
    exact LeafInput.discriminator_ne_lamports d _ h.1.symm

/-- The optional inputs tell their two groups apart. -/
theorem optionalInputs_inj {a b : Account}
    (h : a.valueInputs ++ a.dataInputs = b.valueInputs ++ b.dataInputs) :
    a.valueInputs = b.valueInputs ∧ a.dataInputs = b.dataInputs := by
  cases ha : a.data with
  | none =>
    cases hb : b.data with
    | none =>
      have hdata : a.dataInputs = b.dataInputs := by simp only [dataInputs, ha, hb]
      rw [hdata] at h
      exact ⟨List.append_cancel_right h, hdata⟩
    | some d =>
      simp only [dataInputs, ha, hb, List.append_nil] at h
      exact absurd h (valueInputs_ne_append_data a b _ _)
  | some d =>
    cases hb : b.data with
    | none =>
      simp only [dataInputs, ha, hb, List.append_nil] at h
      exact absurd h.symm (valueInputs_ne_append_data b a _ _)
    | some d' => exact List.append_inj' h (by simp only [dataInputs, ha, hb, List.length_cons])

/-- The whole list of inputs, read back. -/
theorem leafInputs_eq_iff {a b : Account} {o o' t t' : Hash} {i j : UInt32} {batched : Bool} :
    a.leafInputs o t i batched = b.leafInputs o' t' j batched ↔
      o = o' ∧ i = j ∧ t = t' ∧ a.valueInputs = b.valueInputs ∧ a.dataInputs = b.dataInputs := by
  rw [leafInputs_eq, leafInputs_eq, List.cons.injEq, List.cons.injEq, List.cons.injEq,
    LeafInput.leafIndex_inj]
  constructor
  · rintro ⟨ho, hi, ht, hrest⟩
    exact ⟨ho, hi, ht, optionalInputs_inj hrest⟩
  · rintro ⟨ho, hi, ht, hvalue, hdata⟩
    exact ⟨ho, hi, ht, by rw [hvalue, hdata]⟩

end Account

end CompressedLedger
