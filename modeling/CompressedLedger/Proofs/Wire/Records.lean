import CompressedLedger.Proofs.Proof.Validity
import CompressedLedger.Proofs.Wire.Reader
import CompressedLedger.Wire.Records

/-!
# Every record has one encoding

A format is canonical if a value that fits is read back from its encoding and from nothing else
(`Wire.Canonical`).  Then no encoding begins another one: cut off anywhere it ends too early, and
with anything behind it bytes are left.  Each record is its fields one after another, so its format
is canonical because the formats of its fields are; the only values without an encoding of their
own are those with a payload whose length is no 32-bit word.

The encoding of a validity proof has a fixed length and is the proof's own byte string
(`Wire.records_canonical`).
-/

namespace CompressedLedger

namespace Wire

variable {α : Type} [Wire α] {Fits : α → Prop}

/-! ### Whole inputs -/

theorem decode_eq_ok_iff (h : Lawful α Fits) {bs : List UInt8} {a : α} :
    decode bs = .ok a ↔ Fits a ∧ encode a = bs := by
  constructor
  · intro hdecode
    unfold decode at hdecode
    split at hdecode
    · rename_i a' hrun
      cases hdecode
      obtain ⟨ha, hbs⟩ := (h.run_eq_ok_iff bs a []).mp hrun
      rw [List.append_nil] at hbs
      exact ⟨ha, hbs.symm⟩
    · cases hdecode
    · cases hdecode
  · rintro ⟨ha, rfl⟩
    have hrun := h.run_write_append ha []
    rw [List.append_nil] at hrun
    rw [decode, hrun]

theorem decode_encode_append (h : Lawful α Fits) {a : α} (ha : Fits a) {more : List UInt8}
    (hmore : more ≠ []) : (decode (encode a ++ more) : Except WireError α) = .error .bytesLeft := by
  obtain ⟨b, rest, rfl⟩ := List.exists_cons_of_ne_nil hmore
  rw [decode, h.run_write_append ha]

theorem decode_eq_endOfInput (h : Lawful α Fits) {a : α} (ha : Fits a) {bs : List UInt8}
    (hbegins : bs <+: encode a) (hne : bs ≠ encode a) :
    (decode bs : Except WireError α) = .error .endOfInput := by
  obtain ⟨more, hmore⟩ := hbegins
  have hrun := h.run_write_append ha []
  rw [List.append_nil, ← hmore] at hrun
  cases hcut : (read : WireReader α).run bs with
  | ok answer =>
    -- the value would be read from the whole encoding as well, and leave what was cut off
    obtain ⟨a', rest⟩ := answer
    have hwhole := h.run_append_of_ok hcut more
    rw [hrun] at hwhole
    have hrest : rest ++ more = [] := (Prod.mk.inj (Except.ok.inj hwhole)).2.symm
    rw [(List.append_eq_nil_iff.mp hrest).2, List.append_nil] at hmore
    exact absurd hmore hne
  | error e =>
    rw [decode, hcut]
    by_contra he
    have he' : e ≠ .endOfInput := fun h' => he (by rw [h'])
    rw [h.run_append_of_error bs e hcut he' more] at hrun
    cases hrun

/-- Values that fit and their encodings correspond, and encodings can be told apart from what
follows them. -/
structure Canonical (α : Type) [Wire α] (Fits : α → Prop) : Prop where
  decode_encode : ∀ a : α, Fits a → decode (encode a) = .ok a
  encode_of_decode : ∀ (bs : List UInt8) (a : α), decode bs = .ok a → Fits a ∧ encode a = bs
  decodeFront_eq_ok_iff : ∀ (bs : List UInt8) (a : α) (rest : List UInt8),
    decodeFront bs = .ok (a, rest) ↔ Fits a ∧ bs = encode a ++ rest
  decode_of_truncation : ∀ a : α, Fits a → ∀ bs, bs <+: encode a → bs ≠ encode a →
    (decode bs : Except WireError α) = .error .endOfInput
  decode_of_extension : ∀ a : α, Fits a → ∀ more, more ≠ [] →
    (decode (encode a ++ more) : Except WireError α) = .error .bytesLeft

theorem Lawful.canonical (h : Lawful α Fits) : Canonical α Fits where
  decode_encode := fun _ ha => (decode_eq_ok_iff h).mpr ⟨ha, rfl⟩
  encode_of_decode := fun _ _ => (decode_eq_ok_iff h).mp
  decodeFront_eq_ok_iff := h.run_eq_ok_iff
  decode_of_truncation := fun _ ha _ => decode_eq_endOfInput h ha
  decode_of_extension := fun _ ha _ => decode_encode_append h ha

end Wire

open Wire

/-! ### Records -/

/-- Data whose payload has a length that is a 32-bit word. -/
def AccountData.IsShort (d : AccountData) : Prop := d.payload.length < 2 ^ 32

/-- An account whose data, if any, is short. -/
def Account.IsShort (a : Account) : Prop := ∀ d ∈ a.data, d.IsShort

theorem lawful_accountData : Lawful AccountData AccountData.IsShort := by
  have hhash (discriminator : FixedBytes 8) (payload : List UInt8) :=
    Reads.field AccountData.payloadHash (lawful_fixedBytes 32)
      (fun payloadHash => reads_pure ⟨discriminator, payload, payloadHash⟩)
      fun _ d hd => by rw [hd]
  have hpayload (discriminator : FixedBytes 8) :=
    Reads.field AccountData.payload lawful_bytes (hhash discriminator) fun _ d hd => by rw [hd.2]
  have hdiscriminator :=
    Reads.field AccountData.discriminator (lawful_fixedBytes 8) hpayload
      fun _ d hd => by rw [hd.2.2]
  refine hdiscriminator.congr (fun d => ?_) fun d _ => ?_
  · simp only [AccountData.IsShort, true_and, and_true]
  · simp only [encode, List.append_nil, List.append_assoc]

theorem lawful_account : Lawful Account Account.IsShort := by
  have hdata (owner : Pubkey) (lamports : UInt64) (address : Option Hash) :=
    Reads.field Account.data (lawful_option lawful_accountData)
      (fun data => reads_pure ⟨owner, lamports, address, data⟩) fun _ a ha => by rw [ha]
  have haddress (owner : Pubkey) (lamports : UInt64) :=
    Reads.field Account.address (lawful_option (lawful_fixedBytes 32)) (hdata owner lamports)
      fun _ a ha => by rw [ha.2]
  have hlamports (owner : Pubkey) :=
    Reads.field Account.lamports lawful_uint64 (haddress owner) fun _ a ha => by rw [ha.2.2]
  have howner :=
    Reads.field Account.owner (lawful_fixedBytes 32) hlamports fun _ a ha => by rw [ha.2.2.2]
  refine howner.congr (fun a => ?_) fun a _ => ?_
  · simp only [Account.IsShort, implies_true, true_and, and_true]
  · simp only [encode, List.append_nil, List.append_assoc]

theorem lawful_validityProof : Lawful ValidityProof fun _ => True := by
  have hc (a : FixedBytes 32) (b : FixedBytes 64) :=
    Reads.field ValidityProof.c (lawful_fixedBytes 32) (fun c => reads_pure ⟨a, b, c⟩)
      fun _ p hp => by rw [hp]
  have hb (a : FixedBytes 32) :=
    Reads.field ValidityProof.b (lawful_fixedBytes 64) (hc a) fun _ p hp => by rw [hp.2]
  have ha :=
    Reads.field ValidityProof.a (lawful_fixedBytes 32) hb fun _ p hp => by rw [hp.2.2]
  refine ha.congr (fun p => ?_) fun p _ => ?_
  · simp only [true_and]
  · simp only [encode, List.append_nil, List.append_assoc]

theorem lawful_packedContext : Lawful PackedContext fun _ => True := by
  have hproveByIndex (treeIndex queueIndex : UInt8) (leafIndex : UInt32) :=
    Reads.field PackedContext.proveByIndex lawful_bool
      (fun proveByIndex => reads_pure ⟨treeIndex, queueIndex, leafIndex, proveByIndex⟩)
      fun _ c hc => by rw [hc]
  have hleafIndex (treeIndex queueIndex : UInt8) :=
    Reads.field PackedContext.leafIndex lawful_uint32 (hproveByIndex treeIndex queueIndex)
      fun _ c hc => by rw [hc.2]
  have hqueueIndex (treeIndex : UInt8) :=
    Reads.field PackedContext.queueIndex lawful_uint8 (hleafIndex treeIndex)
      fun _ c hc => by rw [hc.2.2]
  have htreeIndex :=
    Reads.field PackedContext.treeIndex lawful_uint8 hqueueIndex fun _ c hc => by rw [hc.2.2.2]
  refine htreeIndex.congr (fun c => ?_) fun c _ => ?_
  · simp only [true_and]
  · simp only [encode, List.append_nil, List.append_assoc]

theorem lawful_packedInput : Lawful PackedInput (·.account.IsShort) := by
  have hreadOnly (account : Account) (context : PackedContext) (rootIndex : UInt16) :=
    Reads.field PackedInput.readOnly lawful_bool
      (fun readOnly => reads_pure ⟨account, context, rootIndex, readOnly⟩)
      fun _ i hi => by rw [hi]
  have hrootIndex (account : Account) (context : PackedContext) :=
    Reads.field PackedInput.rootIndex lawful_uint16 (hreadOnly account context)
      fun _ i hi => by rw [hi.2]
  have hcontext (account : Account) :=
    Reads.field PackedInput.context lawful_packedContext (hrootIndex account)
      fun _ i hi => by rw [hi.2.2]
  have haccount :=
    Reads.field PackedInput.account lawful_account hcontext fun _ i hi => by rw [hi.2.2.2]
  refine haccount.congr (fun i => ?_) fun i _ => ?_
  · simp only [and_true]
  · simp only [encode, List.append_nil, List.append_assoc]

theorem lawful_packedNewAddress : Lawful PackedNewAddress fun _ => True := by
  have hrootIndex (seed : Hash) (queueIndex treeIndex : UInt8) :=
    Reads.field PackedNewAddress.rootIndex lawful_uint16
      (fun rootIndex => reads_pure ⟨seed, queueIndex, treeIndex, rootIndex⟩)
      fun _ a ha => by rw [ha]
  have htreeIndex (seed : Hash) (queueIndex : UInt8) :=
    Reads.field PackedNewAddress.treeIndex lawful_uint8 (hrootIndex seed queueIndex)
      fun _ a ha => by rw [ha.2]
  have hqueueIndex (seed : Hash) :=
    Reads.field PackedNewAddress.queueIndex lawful_uint8 (htreeIndex seed)
      fun _ a ha => by rw [ha.2.2]
  have hseed :=
    Reads.field PackedNewAddress.seed (lawful_fixedBytes 32) hqueueIndex
      fun _ a ha => by rw [ha.2.2.2]
  refine hseed.congr (fun a => ?_) fun a _ => ?_
  · simp only [true_and]
  · simp only [encode, List.append_nil, List.append_assoc]

/-! ### Proofs as byte strings -/

namespace ValidityProof

/-- What the constructor from bytes makes of a byte string. -/
structure FromBytes (bs : List UInt8) : Prop where
  exists_ok_iff : (∃ p, ofBytes bs = .ok p) ↔ bs.length = 128
  of_length_ne : bs.length ≠ 128 → ofBytes bs = .error .lengthMismatch
  of_length : bs.length = 128 →
    ofBytes bs = ofParts (bs.take 32) ((bs.drop 32).take 64) ((bs.drop 96).take 32)
  toBytes_of_ok : ∀ p, ofBytes bs = .ok p → p.toBytes = bs
  ok_iff_decode : ∀ p, ofBytes bs = .ok p ↔ decode bs = .ok p

theorem encode_eq_toBytes (p : ValidityProof) : encode p = p.toBytes := by
  unfold toBytes
  rfl

theorem fromBytes (bs : List UInt8) : FromBytes bs where
  exists_ok_iff := exists_ofBytes_eq_ok_iff
  of_length_ne := fun hlength => if_neg hlength
  of_length := by
    intro hlength
    have hlast : (bs.drop 96).take 32 = bs.drop 96 := by
      rw [List.take_of_length_le]
      rw [List.length_drop, hlength]
    rw [ofBytes, if_pos (show bs.length = length from hlength), hlast]
  toBytes_of_ok := fun p => ofBytes_eq_ok_iff.mp
  ok_iff_decode := by
    intro p
    rw [ofBytes_eq_ok_iff, decode_eq_ok_iff lawful_validityProof, encode_eq_toBytes, true_and]

end ValidityProof

/-! ### All formats -/

namespace Wire

/-- **The formats are canonical.**  Every record whose payloads are short is read back from its
encoding, every byte string that is read is the encoding of what was read, and an encoding that is
cut off or goes on is refused.  A validity proof is encoded as its own bytes, and its constructor
from bytes takes exactly the byte strings of that length apart. -/
theorem records_canonical :
    Canonical AccountData AccountData.IsShort ∧
      Canonical Account Account.IsShort ∧
      Canonical PackedContext (fun _ => True) ∧
      Canonical PackedInput (·.account.IsShort) ∧
      Canonical PackedNewAddress (fun _ => True) ∧
      Canonical ValidityProof (fun _ => True) ∧
      (∀ p : ValidityProof, encode p = p.toBytes) ∧
      ∀ bs : List UInt8, ValidityProof.FromBytes bs :=
  ⟨lawful_accountData.canonical, lawful_account.canonical, lawful_packedContext.canonical,
    lawful_packedInput.canonical, lawful_packedNewAddress.canonical,
    lawful_validityProof.canonical, ValidityProof.encode_eq_toBytes, ValidityProof.fromBytes⟩

/-- An account with both optional values, one of them with a counted string inside: read back, cut
off within that string, and with a byte behind it. -/
theorem records_canonical_of_nested :
    let account : Account := ⟨.zero, 5, some .zero, some ⟨.zero, [1, 2, 3], .zero⟩⟩
    decode (encode account) = .ok account ∧
      (decode ((encode account).take 88) : Except WireError Account) = .error .endOfInput ∧
      (decode (encode account ++ [0]) : Except WireError Account) = .error .bytesLeft := by
  intro account
  have hshort : account.IsShort := by
    intro d hd
    cases hd
    show ([1, 2, 3] : List UInt8).length < 2 ^ 32
    decide
  obtain ⟨-, haccount, -⟩ := records_canonical
  refine ⟨haccount.decode_encode account hshort, ?_, ?_⟩
  · exact haccount.decode_of_truncation account hshort _ (List.take_prefix _ _) (by decide)
  · exact haccount.decode_of_extension account hshort [0] (by decide)

end Wire

end CompressedLedger
