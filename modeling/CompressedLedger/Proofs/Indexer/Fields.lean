import CompressedLedger.Indexer.Convert
import CompressedLedger.Proofs.Checks
import CompressedLedger.Proofs.Scalar.Constructors

/-!
# Reading the fields of a record

A key's text is the base58 text of its 32 bytes and nothing else (`Pubkey.ofText_eq_ok_iff`): the
reader drops no blanks and admits 44 characters, which is as long as such a text can be.  A scalar's
text is any base58 numeral of its value, with blanks or ones in front (`Scalar.DenotesBase58`); it
makes two checks, the alphabet and then the range.  A tree is the first one among the known ones
with the key as its tree or its queue (`TreeChain.IsFirst`).

Each reader is judged by the checks it makes.
-/

namespace CompressedLedger

variable {α β : Type}

/-! ### Keys -/

namespace Pubkey

/-- The text of a key is never longer than the reader admits. -/
theorem length_text_le (key : Pubkey) :
    (Base58.encode key.bytes).toList.length ≤ Pubkey.maxTextLength := by
  apply Base58.length_encode_le
  rw [key.length_bytes]
  decide

theorem ofText_eq_ok_iff {s : String} {key : Pubkey} :
    ofText s = .ok key ↔ s = Base58.encode key.bytes := by
  unfold ofText
  constructor
  · intro h
    split at h
    · split at h
      · rename_i key' hkey
        cases h
        obtain ⟨bs, hdecode, hbytes⟩ := Option.bind_eq_some_iff.mp hkey
        have htext := Base58.decode?_eq_some_iff.mp hdecode
        rw [FixedBytes.ofList?_eq_some_iff.mp hbytes] at htext
        exact String.toList_inj.mp htext
      · cases h
    · cases h
  · rintro rfl
    have hlength : (Base58.encode key.bytes).utf8ByteSize ≤ maxTextLength := by
      rw [Base58.utf8ByteSize_encode]
      exact length_text_le key
    have hread : (Base58.decode? (Base58.encode key.bytes).toList).bind FixedBytes.ofList? =
        some key := by
      rw [Base58.decode?_encode, Option.bind_some, FixedBytes.ofList?_bytes]
    rw [if_pos hlength, hread]

theorem eq_of_text {key key' : Pubkey} (h : Base58.encode key.bytes = Base58.encode key'.bytes) :
    key = key' := by
  have hread : ofText (Base58.encode key.bytes) = .ok key := ofText_eq_ok_iff.mpr rfl
  rw [ofText_eq_ok_iff.mpr h] at hread
  exact (Except.ok.inj hread).symm

theorem eq_malformed_of_ofText {s : String} {e : Error} (h : ofText s = .error e) :
    e = .malformedPubkey := by
  unfold ofText at h
  split at h
  · split at h
    · cases h
    · cases h
      rfl
  · cases h
    rfl

end Pubkey

/-- The text of a key, with no blanks around it. -/
def Check.pubkey (s : String) : Check :=
  ⟨∃ key : Pubkey, s = Base58.encode key.bytes, .malformedPubkey⟩

theorem judged_pubkey (s : String) :
    Judged (Pubkey.ofText s) [Check.pubkey s] fun key => s = Base58.encode key.bytes :=
  Judged.single (fun _ => Pubkey.ofText_eq_ok_iff) (fun _ => Pubkey.eq_malformed_of_ofText) Iff.rfl

/-! ### Scalars -/

/-- The text without the blanks around it is a base58 numeral of the number. -/
structure Scalar.DenotesBase58 (text : String) (n : ℕ) : Prop where
  mem_alphabet : ∀ c ∈ Scalar.trimmed text, c ∈ Base58.alphabet
  positional_eq : Base58.positional (Scalar.trimmed text) = n

/-- A base58 numeral, and then one of a number below the modulus. -/
def Check.scalar (s : String) : List Check :=
  [⟨∀ c ∈ Scalar.trimmed s, c ∈ Base58.alphabet, .malformedScalar⟩,
    ⟨Base58.positional (Scalar.trimmed s) < Scalar.modulus, .scalarOutOfRange⟩]

theorem judged_scalar (s : String) :
    Judged (Scalar.ofText s) (Check.scalar s) fun a => Scalar.DenotesBase58 s a.val := by
  unfold Scalar.ofText
  by_cases hdigits : ∀ c ∈ Scalar.trimmed s, c ∈ Base58.alphabet
  · have hmakes := Scalar.makes_parseIn_base58 hdigits
    by_cases hlt : Base58.positional (Scalar.trimmed s) < Scalar.modulus
    · rw [hmakes.eq_ok_of_lt hlt]
      refine Judged.of_ok ?_ fun a => ?_
      · simp only [Check.scalar, List.forall_mem_cons, List.not_mem_nil, false_imp_iff,
          implies_true, and_true]
        exact ⟨hdigits, hlt⟩
      · constructor
        · intro h
          exact Scalar.ext h.positional_eq.symm
        · rintro rfl
          exact ⟨hdigits, rfl⟩
    · rw [hmakes.eq_outOfRange_of_le (Nat.le_of_not_lt hlt)]
      refine Judged.of_error (.later hdigits (.here hlt)) fun a ha => ?_
      exact hlt (ha.positional_eq ▸ a.isLt)
  · have hout : ∃ c ∈ Scalar.trimmed s, c ∉ Base58.alphabet := by
      push Not at hdigits
      exact hdigits
    rw [Scalar.parseIn_base58_eq_malformed_iff.mpr hout]
    exact Judged.of_error (.here hdigits) fun a ha => hdigits ha.mem_alphabet

/-- The text denotes the number of the bytes, and the number is below the modulus. -/
structure Hash.DenotedBy (s : String) (h : Hash) : Prop where
  denotes : Scalar.DenotesBase58 s h.toNat
  lt_modulus : h.toNat < Scalar.modulus

theorem Hash.denotedBy_iff {s : String} {h : Hash} :
    Hash.DenotedBy s h ↔ ∃ a : Scalar, Scalar.DenotesBase58 s a.val ∧ h = a.toHash := by
  constructor
  · rintro ⟨hdenotes, hlt⟩
    exact ⟨⟨h.toNat, hlt⟩, hdenotes, Scalar.eq_toHash_iff.mpr rfl⟩
  · rintro ⟨a, ha, rfl⟩
    refine ⟨?_, ?_⟩
    · rwa [Scalar.toNat_toHash]
    · rw [Scalar.toNat_toHash]
      exact a.isLt

theorem judged_hash (s : String) :
    Judged (Hash.ofText s) (Check.scalar s) (Hash.DenotedBy s) :=
  ((judged_scalar s).map Scalar.toHash).congr fun _ => Hash.denotedBy_iff.symm

/-- The text of a byte string denotes its number. -/
theorem Scalar.denotesBase58_encode (bs : List UInt8) :
    Scalar.DenotesBase58 (Base58.encode bs) (Bytes.ofBigEndian bs) := by
  have htrim := Scalar.trimmed_encode bs
  refine ⟨fun c hc => ?_, ?_⟩
  · rw [htrim] at hc
    exact Base58.mem_alphabet_of_mem_encode hc
  · rw [htrim, Scalar.positional_toList_encode, Bytes.ofBigEndian_eq_positional]

/-! ### Trees -/

namespace TreeChain

/-- The key is that of the chain's first tree or of its queue. -/
def HasKey (chain : TreeChain) (key : Pubkey) : Prop :=
  chain.first.tree = key ∨ chain.first.queue = key

instance (chain : TreeChain) (key : Pubkey) : Decidable (chain.HasKey key) :=
  inferInstanceAs (Decidable (_ ∨ _))

/-- The chain has the key, and none before it in the list has. -/
def IsFirst (chains : List TreeChain) (key : Pubkey) (chain : TreeChain) : Prop :=
  ∃ before after, chains = before ++ chain :: after ∧ chain.HasKey key ∧
    ∀ c ∈ before, ¬c.HasKey key

/-- The chain is the first one with the key of the text. -/
def IsFirstOf (chains : List TreeChain) (s : String) (chain : TreeChain) : Prop :=
  ∃ key : Pubkey, s = Base58.encode key.bytes ∧ IsFirst chains key chain

theorem hasKey_iff {chain : TreeChain} {key : Pubkey} :
    chain.hasKey key = true ↔ chain.HasKey key := by
  rw [hasKey, Bool.or_eq_true, beq_iff_eq, beq_iff_eq, HasKey]

theorem find?_eq_some_iff {chains : List TreeChain} {key : Pubkey} {chain : TreeChain} :
    chains.find? (·.hasKey key) = some chain ↔ IsFirst chains key chain := by
  rw [List.find?_eq_some_iff_append, hasKey_iff]
  constructor
  · rintro ⟨hkey, before, after, hsplit, hbefore⟩
    refine ⟨before, after, hsplit, hkey, fun c hc hhas => ?_⟩
    have hnot := hbefore c hc
    rw [hasKey_iff.mpr hhas] at hnot
    cases hnot
  · rintro ⟨before, after, hsplit, hkey, hbefore⟩
    refine ⟨hkey, before, after, hsplit, fun c hc => ?_⟩
    rw [Bool.not_eq_true']
    exact Bool.eq_false_iff.mpr fun hhas => hbefore c hc (hasKey_iff.mp hhas)

theorem exists_isFirst_iff {chains : List TreeChain} {key : Pubkey} :
    (∃ chain, IsFirst chains key chain) ↔ ∃ chain ∈ chains, chain.HasKey key := by
  constructor
  · rintro ⟨chain, before, after, rfl, hkey, -⟩
    exact ⟨chain, List.mem_append_right _ (List.mem_cons_self ..), hkey⟩
  · rintro ⟨chain, hmem, hkey⟩
    have hsome : (chains.find? (·.hasKey key)).isSome := by
      rw [List.find?_isSome]
      exact ⟨chain, hmem, hasKey_iff.mpr hkey⟩
    obtain ⟨first, hfirst⟩ := Option.isSome_iff_exists.mp hsome
    exact ⟨first, find?_eq_some_iff.mp hfirst⟩

theorem lookup_eq_ok_iff {chains : List TreeChain} {key : Pubkey} {chain : TreeChain} :
    lookup chains key = .ok chain ↔ IsFirst chains key chain := by
  rw [← find?_eq_some_iff, lookup]
  cases chains.find? (·.hasKey key) <;> simp

theorem eq_unknownTree_of_lookup {chains : List TreeChain} {key : Pubkey} {e : Error}
    (h : lookup chains key = .error e) : e = .unknownTree := by
  unfold lookup at h
  split at h
  · cases h
  · cases h
    rfl

end TreeChain

/-- The text of a key that one of the chains has. -/
def Check.known (chains : List TreeChain) (s : String) : Check :=
  ⟨∃ key : Pubkey, s = Base58.encode key.bytes ∧ ∃ chain ∈ chains, chain.HasKey key, .unknownTree⟩

theorem judged_lookup (chains : List TreeChain) {s : String} {key : Pubkey}
    (hs : s = Base58.encode key.bytes) :
    Judged (TreeChain.lookup chains key) [Check.known chains s] (TreeChain.IsFirst chains key) := by
  refine Judged.single (fun _ => TreeChain.lookup_eq_ok_iff)
    (fun _ => TreeChain.eq_unknownTree_of_lookup) ?_
  rw [TreeChain.exists_isFirst_iff]
  constructor
  · rintro ⟨key', hs', hknown⟩
    have hkey : key' = key := Pubkey.eq_of_text (hs'.symm.trans hs)
    rwa [hkey] at hknown
  · intro hknown
    exact ⟨key, hs, hknown⟩

/-! ### Optional values -/

/-- A step on a value that may be absent: without the value there is nothing to check. -/
theorem judged_optional {f : α → Except Error β} {checks : α → List Check}
    {Gives : α → β → Prop} (hf : ∀ a, Judged (f a) (checks a) (Gives a)) (o : Option α) :
    Judged (readOptional f o) (o.toList.flatMap checks) (Option.Rel Gives o) := by
  cases o with
  | none =>
    refine (judged_pure none).congr fun b => ?_
    constructor
    · rintro rfl
      exact Option.Rel.none
    · intro h
      cases h
      rfl
  | some a =>
    have hchecks : (some a).toList.flatMap checks = checks a := List.flatMap_singleton ..
    rw [hchecks]
    refine ((hf a).map some).congr fun b => ?_
    constructor
    · rintro ⟨b', hb', rfl⟩
      exact Option.Rel.some hb'
    · intro h
      cases h with
      | some hb => exact ⟨_, hb, rfl⟩

end CompressedLedger
