import CompressedLedger.Packing.Inputs
import CompressedLedger.Packing.NewAddress
import CompressedLedger.Proofs.Outcome
import CompressedLedger.Proofs.Packing.Interning

/-!
# Packing sessions

The packings of one instruction share a table: each call starts from the table that the last
successful one left.  `PackingCall.run` is one call and `tableAfter` a sequence of them.

A call lets the table grow, and every position it gives, by itself or inside a packed record, names
the key it was given for (`PackingCall.Packed`), in the table it leaves and in every later one.  By
induction over the calls this holds throughout a session (`session_positions_valid`).
-/

namespace CompressedLedger

open KeyTable Packer

/-! ### Packed records -/

/-- The record carries the request, with positions that name its tree and queue. -/
structure NewAddress.PackedIn (keys : List Pubkey) (r : NewAddress) (p : PackedNewAddress) :
    Prop where
  seed_eq : p.seed = r.seed
  rootIndex_eq : p.rootIndex = r.rootIndex
  tree : Names keys p.treeIndex r.tree
  queue : Names keys p.queueIndex r.queue

/-- The record carries the input and its root index, with positions that name its own tree and
queue. -/
structure LocatedAccount.PackedIn (keys : List Pubkey) (input : LocatedAccount × UInt16)
    (p : PackedInput) : Prop where
  account_eq : p.account = input.1.account
  leafIndex_eq : p.context.leafIndex = input.1.context.leafIndex
  proveByIndex_eq : p.context.proveByIndex = input.1.context.proveByIndex
  rootIndex_eq : p.rootIndex = input.2
  readOnly_eq : p.readOnly = input.1.readOnly
  tree : Names keys p.context.treeIndex input.1.context.chain.first.tree
  queue : Names keys p.context.queueIndex input.1.context.chain.first.queue

/-- Positions for trees and for queues, put into the records of their requests. -/
theorem forall₂_packedIn {keys : List Pubkey} {requests : List NewAddress}
    {trees queues : List UInt8}
    (htrees : List.Forall₂ (fun r i => Names keys i r.tree) requests trees)
    (hqueues : List.Forall₂ (fun r i => Names keys i r.queue) requests queues) :
    List.Forall₂ (NewAddress.PackedIn keys) requests
      ((requests.zip (trees.zip queues)).map fun (r, tree, queue) =>
        ⟨r.seed, queue, tree, r.rootIndex⟩) := by
  induction htrees generalizing queues with
  | nil => exact List.Forall₂.nil
  | cons htree _ ih =>
    cases hqueues with
    | cons hqueue hrest => exact List.Forall₂.cons ⟨rfl, rfl, htree, hqueue⟩ (ih hrest)

theorem ensures_packNewAddresses (requests : List NewAddress) :
    Ensures (packNewAddresses requests) fun packed later =>
      List.Forall₂ (NewAddress.PackedIn later) requests packed := by
  have htrees := ensures_mapM (fun r : NewAddress => ensures_intern r.tree) requests
  have hqueues := ensures_mapM (fun r : NewAddress => ensures_intern r.queue) requests
  have hpacked := htrees.bind fun trees => hqueues.bind fun queues =>
    ensures_pure ((requests.zip (trees.zip queues)).map fun (r, tree, queue) =>
      (⟨r.seed, queue, tree, r.rootIndex⟩ : PackedNewAddress))
  refine hpacked.mono ?_
  rintro packed later ⟨trees, htrees, queues, hqueues, rfl⟩
  exact forall₂_packedIn htrees hqueues

theorem ensures_packInput (input : LocatedAccount) (rootIndex : UInt16) :
    Ensures (packInput input rootIndex) fun p later =>
      LocatedAccount.PackedIn later (input, rootIndex) p := by
  have hpacked := (ensures_intern input.context.chain.first.tree).bind fun tree =>
    (ensures_intern input.context.chain.first.queue).bind fun queue =>
      ensures_pure (⟨input.account, ⟨tree, queue, input.context.leafIndex,
        input.context.proveByIndex⟩, rootIndex, input.readOnly⟩ : PackedInput)
  refine hpacked.mono ?_
  rintro p later ⟨tree, htree, queue, hqueue, rfl⟩
  exact ⟨rfl, rfl, rfl, rfl, rfl, htree, hqueue⟩

/-- The inputs go with the root indices at their places, and the output position names the output
account of the last tree of the chain. -/
theorem ensures_packAccounts (inputs : List LocatedAccount) (rootIndices : List UInt16)
    (output : TreeChain) :
    Ensures (packAccounts inputs rootIndices output) fun packed later =>
      inputs.length = rootIndices.length ∧
      List.Forall₂ (LocatedAccount.PackedIn later) (inputs.zip rootIndices) packed.inputs ∧
      Names later packed.outputIndex output.active.output := by
  have hrecord : ∀ x : LocatedAccount × UInt16,
      Ensures (packInput x.1 x.2) fun p later => LocatedAccount.PackedIn later x p :=
    fun x => ensures_packInput x.1 x.2
  unfold packAccounts
  split
  · -- lists of different lengths are refused before any key is interned
    exact ensures_throw_bind _ _ _
  · rename_i hlength
    dsimp only
    have hpacked := (ensures_mapM hrecord (inputs.zip rootIndices)).bind fun packed =>
      (ensures_intern output.active.output).bind fun outputIndex =>
        ensures_pure (⟨packed, outputIndex⟩ : PackedAccounts)
    refine hpacked.mono ?_
    rintro packed later ⟨records, hrecords, outputIndex, houtput, rfl⟩
    exact ⟨not_not.mp hlength, hrecords, houtput⟩

/-! ### Calls -/

/-- A call of a packing session. -/
inductive PackingCall where
  | insert (key : Pubkey)
  | newAddresses (requests : List NewAddress)
  | accounts (inputs : List LocatedAccount) (rootIndices : List UInt16) (output : TreeChain)

/-- What a successful call gives. -/
inductive PackingAnswer where
  | index (i : UInt8)
  | newAddresses (packed : List PackedNewAddress)
  | accounts (packed : PackedAccounts)
deriving DecidableEq

namespace PackingCall

/-- A packing that fails leaves the table it was started from. -/
def runPacking {α : Type} (answer : α → PackingAnswer) (p : Packer α) (keys : List Pubkey) :
    Except Error PackingAnswer × List Pubkey :=
  match pack p keys with
  | .ok (a, later) => (.ok (answer a), later)
  | .error e => (.error e, keys)

/-- The answer of a call on a table, and the table for the next call. -/
def run : PackingCall → List Pubkey → Except Error PackingAnswer × List Pubkey
  | .insert key, keys =>
    (.index <$> (KeyTable.insert keys key).1, (KeyTable.insert keys key).2)
  | .newAddresses requests, keys => runPacking .newAddresses (packNewAddresses requests) keys
  | .accounts inputs rootIndices output, keys =>
    runPacking .accounts (packAccounts inputs rootIndices output) keys

/-- In the table every position of the answer names the key that the call gave it for. -/
def Packed (keys : List Pubkey) : PackingCall → PackingAnswer → Prop
  | .insert key, .index i => Names keys i key
  | .newAddresses requests, .newAddresses packed =>
    List.Forall₂ (NewAddress.PackedIn keys) requests packed
  | .accounts inputs rootIndices output, .accounts packed =>
    inputs.length = rootIndices.length ∧
    List.Forall₂ (LocatedAccount.PackedIn keys) (inputs.zip rootIndices) packed.inputs ∧
    Names keys packed.outputIndex output.active.output
  | _, _ => False

theorem runPacking_spec {α : Type} {p : Packer α} {Q : α → List Pubkey → Prop}
    (h : Ensures p Q) (answer : α → PackingAnswer) (keys : List Pubkey) :
    Grows keys (runPacking answer p keys).2 ∧
    ∀ result, (runPacking answer p keys).1 = .ok result →
      ∃ a, answer a = result ∧ ∀ later, Grows (runPacking answer p keys).2 later → Q a later := by
  obtain ⟨hgrows, hQ⟩ := h keys
  unfold runPacking pack
  cases hrun : p.run keys with
  | mk outcome middle =>
    rw [hrun] at hgrows hQ
    cases outcome with
    | error e => exact ⟨Grows.refl keys, fun result hresult => nomatch hresult⟩
    | ok a => exact ⟨hgrows, fun result hresult => ⟨a, Except.ok.inj hresult, hQ a rfl⟩⟩

/-- One call lets the table grow, and its answer is right in the table it leaves and in every later
one. -/
theorem run_spec (call : PackingCall) (keys : List Pubkey) :
    Grows keys (call.run keys).2 ∧
    ∀ answer, (call.run keys).1 = .ok answer →
      ∀ later, Grows (call.run keys).2 later → call.Packed later answer := by
  cases call with
  | insert key =>
    refine ⟨grows_insert keys key, fun answer hanswer later hlater => ?_⟩
    obtain ⟨i, hi, rfl⟩ := Except.map_eq_ok_iff.mp hanswer
    exact (names_insert hi).grows hlater
  | newAddresses requests =>
    obtain ⟨hgrows, hright⟩ :=
      runPacking_spec (ensures_packNewAddresses requests) PackingAnswer.newAddresses keys
    refine ⟨hgrows, fun answer hanswer later hlater => ?_⟩
    obtain ⟨packed, rfl, hpacked⟩ := hright answer hanswer
    exact hpacked later hlater
  | accounts inputs rootIndices output =>
    obtain ⟨hgrows, hright⟩ :=
      runPacking_spec (ensures_packAccounts inputs rootIndices output) PackingAnswer.accounts keys
    refine ⟨hgrows, fun answer hanswer later hlater => ?_⟩
    obtain ⟨packed, rfl, hpacked⟩ := hright answer hanswer
    exact hpacked later hlater

/-! ### Sessions -/

/-- The table after a sequence of calls. -/
def tableAfter (start : List Pubkey) (calls : List PackingCall) : List Pubkey :=
  calls.foldl (fun keys call => (call.run keys).2) start

theorem tableAfter_append (start : List Pubkey) (before after : List PackingCall) :
    tableAfter start (before ++ after) = tableAfter (tableAfter start before) after :=
  List.foldl_append

theorem grows_tableAfter (start : List Pubkey) (calls : List PackingCall) :
    Grows start (tableAfter start calls) := by
  induction calls generalizing start with
  | nil => exact Grows.refl start
  | cons call rest ih => exact (call.run_spec start).1.trans (ih (call.run start).2)

/-- **Positions stay valid over a session.**  Take the table at any moment of a session.  It holds
the table at the start and behind it new keys, each once, and so does every later table with respect
to this one; it has no duplicates if the start had none, and no more than 256 keys unless the start
had.  If the next call succeeds, then whatever follows it, every position of its answer names the
key it was given for.  A key that is refused leaves the table as it is. -/
theorem session_positions_valid (start : List Pubkey) (before : List PackingCall) :
    (start <+: tableAfter start before ∧ (start.Nodup → (tableAfter start before).Nodup) ∧
      (tableAfter start before).length ≤ max start.length 256) ∧
    (∀ after, ∃ added, tableAfter start (before ++ after) = tableAfter start before ++ added ∧
      added.Nodup ∧ ∀ key ∈ added, key ∉ tableAfter start before) ∧
    (∀ (call : PackingCall) (answer : PackingAnswer),
      (call.run (tableAfter start before)).1 = .ok answer → ∀ after,
        call.Packed (tableAfter start (before ++ call :: after)) answer) ∧
    (∀ key e, (KeyTable.insert (tableAfter start before) key).1 = .error e →
      (KeyTable.insert (tableAfter start before) key).2 = tableAfter start before) := by
  have hgrows : Grows start (tableAfter start before) := grows_tableAfter start before
  refine ⟨⟨hgrows.isPrefix, hgrows.nodup, hgrows.length_le⟩, ?_, ?_, ?_⟩
  · intro after
    rw [tableAfter_append]
    exact (grows_tableAfter _ after).exists_added
  · intro call answer hanswer after
    rw [tableAfter_append]
    exact (call.run_spec _).2 answer hanswer _ (grows_tableAfter _ after)
  · intro key e herror
    exact insert_of_error herror

/-- A table of 254 keys takes the tree and the queue of a new address at its last two positions.
The next new key is refused, and an old one is found. -/
theorem session_positions_valid_of_full :
    let key (i : ℕ) : Pubkey := ⟨UInt8.ofNat i :: List.replicate 31 0, rfl⟩
    let extra : Pubkey := ⟨List.replicate 32 1, rfl⟩
    let start := (List.range 254).map key
    let call := newAddresses [⟨.zero, 3, key 254, key 255⟩]
    let full := (call.run start).2
    let later := tableAfter start [call, insert extra, insert (key 7)]
    start.Nodup ∧ (call.run start).1 = .ok (.newAddresses [⟨.zero, 255, 254, 3⟩]) ∧
      (KeyTable.insert full extra).1 = .error .tooManyKeys ∧
      (KeyTable.insert full extra).2 = full ∧ later.Nodup ∧ later.length ≤ 256 ∧
      call.Packed later (.newAddresses [⟨.zero, 255, 254, 3⟩]) := by
  intro key extra start call full later
  have hstart : start.Nodup := by
    refine List.Nodup.map_on (fun i hi j hj hij => ?_) List.nodup_range
    rw [List.mem_range] at hi hj
    have hbytes := congrArg FixedBytes.bytes hij
    have hbyte := congrArg UInt8.toNat (List.cons.inj hbytes).1
    rwa [toNat_ofNat_of_le (by omega), toNat_ofNat_of_le (by omega)] at hbyte
  have hanswer : (call.run start).1 = .ok (.newAddresses [⟨.zero, 255, 254, 3⟩]) := by
    decide +kernel
  have hrefused : (KeyTable.insert full extra).1 = .error .tooManyKeys := by decide +kernel
  obtain ⟨-, -, hpacked, -⟩ := session_positions_valid start []
  obtain ⟨-, -, -, hkept⟩ := session_positions_valid start [call]
  obtain ⟨⟨-, hnodup, hlength⟩, -⟩ :=
    session_positions_valid start [call, insert extra, insert (key 7)]
  exact ⟨hstart, hanswer, hrefused, hkept _ _ hrefused, hnodup hstart, hlength,
    hpacked call _ hanswer [insert extra, insert (key 7)]⟩

end PackingCall

end CompressedLedger
