import CompressedLedger.Proofs.Address.Separation
import CompressedLedger.Proofs.Packing.NewAddresses
import CompressedLedger.Workflow.Addresses

/-!
# Runs that create addresses

Deriving an address never fails, so the packing decides whether a run succeeds
(`createAddresses_eq`).  All its records name one tree and one queue, so the table grows by no more
than these two keys, however many addresses are asked for (`extend_addressKeys`).

Hence a run fails for one cause, and exactly if the address tree or its queue comes too late in the
table; a run for no addresses never fails.  A run that succeeds gives for each list of seeds, in the
order of the lists, its address and a record with the seed of that address, which leads to the
deployment's tree and queue in the table (`createAddresses_exact`).
-/

namespace CompressedLedger.Workflow

open KeyTable Packer

variable (d : Deployment) (program : Pubkey) (requests : List (List (List UInt8)))

/-- The keys that a run names: the address tree and its queue, if anything is asked for. -/
def addressKeys : List Pubkey :=
  if requests = [] then [] else [d.addressTree.first.tree, d.addressTree.first.queue]

/-- The new address of a list of seeds at its place in the run. -/
def newAddressAt (request : List (List UInt8) × ℕ) : NewAddress :=
  .inTree (d.addressVersion.seed program request.1) d.addressTree (UInt16.ofNat request.2)

/-- The new addresses of a run. -/
def newAddresses : List NewAddress := requests.zipIdx.map (newAddressAt d program)

/-! ### The keys of a run -/

/-- All new addresses name the same two keys. -/
theorem map_newAddresses :
    (newAddresses d program requests).map (·.tree) ++
        (newAddresses d program requests).map (·.queue) =
      List.replicate requests.length d.addressTree.first.tree ++
        List.replicate requests.length d.addressTree.first.queue := by
  simp [newAddresses, newAddressAt, NewAddress.inTree, Function.comp_def]

theorem extend_addressKeys (keys : List Pubkey) :
    extend keys ((newAddresses d program requests).map (·.tree) ++
        (newAddresses d program requests).map (·.queue)) =
      extend keys (addressKeys d requests) := by
  rw [map_newAddresses]
  unfold addressKeys
  split_ifs with hnone
  · rw [hnone]
    rfl
  · have hsome : requests.length ≠ 0 := mt List.length_eq_zero_iff.mp hnone
    rw [extend_append, extend_replicate hsome, extend_replicate hsome, ← extend_append]
    rfl

theorem fits_addressKeys_iff {table : List Pubkey} :
    Fits table ((newAddresses d program requests).map (·.tree) ++
        (newAddresses d program requests).map (·.queue)) ↔
      Fits table (addressKeys d requests) := by
  rw [map_newAddresses]
  unfold addressKeys Fits
  split_ifs with hnone
  · simp [hnone]
  · simp [hnone, or_imp, forall_and]

/-! ### The run -/

/-- Every list of seeds has an address, so a run fails as its packing does. -/
theorem createAddresses_eq (keys : List Pubkey) :
    createAddresses d program requests keys =
      (fun out => ⟨requests.map fun seeds => Truncated.hash (d.addressVersion.addressPreimage
        seeds d.addressTree.first.tree program), out.1, out.2⟩) <$>
        pack (packNewAddresses (newAddresses d program requests)) keys := by
  have hderive : (requests.mapM fun seeds =>
      d.addressVersion.derive seeds d.addressTree.first.tree program) =
        .ok (requests.map fun seeds => Truncated.hash
          (d.addressVersion.addressPreimage seeds d.addressTree.first.tree program)) := by
    rw [Except.mapM_eq_ok_iff, List.forall₂_map_right_iff, List.forall₂_same]
    intro seeds _
    exact AddressVersion.derive_eq_ok ..
  show (requests.mapM fun seeds =>
    d.addressVersion.derive seeds d.addressTree.first.tree program) >>= _ = _
  rw [hderive]
  rfl

/-- **Creating addresses is exact.**  A run fails with `tooManyKeys`, and exactly if something is
asked for and the address tree or its queue has its first position above 255 in the table, which is
the initial one with what is new of these two behind it.  Otherwise it gives that table; for each
list of seeds, in their order, its address; and as many records, each with the seed of the
deployment's version, its place in the list for a root index, and the first positions of the tree
and the queue. -/
theorem createAddresses_exact (keys : List Pubkey) :
    let table := extend keys (addressKeys d requests)
    let refused := ∃ key ∈ addressKeys d requests, 255 < table.idxOf key
    let outcome := createAddresses d program requests keys
    (∀ e, outcome = .error e ↔ e = .tooManyKeys ∧ refused) ∧
    (¬refused → ∃ r, outcome = .ok r ∧ r.keys = table ∧
      List.Forall₂ (fun seeds address =>
        d.addressVersion.derive seeds d.addressTree.first.tree program = .ok address)
          requests r.addresses ∧
      List.Forall₂ (fun request record => (newAddressAt d program request).PackedFirst table record)
        requests.zipIdx r.packed) := by
  intro table refused outcome
  have hinterns := interns_packNewAddresses (newAddresses d program requests)
  have houtcome : outcome = _ <$> _ := createAddresses_eq d program requests keys
  have htable : extend keys _ = table := extend_addressKeys d program requests keys
  rw [houtcome]
  refine ⟨fun e => ?_, fun hnot => ?_⟩
  · rw [Except.map_eq_error_iff, hinterns.pack_eq_error_iff, htable, fits_addressKeys_iff,
      not_fits_iff]
  · have hfits : Fits table ((newAddresses d program requests).map (·.tree) ++
        (newAddresses d program requests).map (·.queue)) :=
      (fits_addressKeys_iff ..).mpr (not_not.mp (mt not_fits_iff.mp hnot))
    rw [← htable] at hfits
    rw [hinterns.pack_of_fits hfits, htable]
    refine ⟨_, rfl, rfl, ?_, ?_⟩
    · rw [List.forall₂_map_right_iff, List.forall₂_same]
      intro seeds _
      exact AddressVersion.derive_eq_ok ..
    · rw [newAddresses, List.map_map, List.forall₂_map_right_iff, List.forall₂_same]
      intro request hrequest
      have hrecord : newAddressAt d program request ∈ newAddresses d program requests :=
        List.mem_map_of_mem hrequest
      rw [← htable]
      exact NewAddress.packedFirst_packedWith hfits
        (List.mem_append_left _ (List.mem_map_of_mem hrecord))
        (List.mem_append_right _ (List.mem_map_of_mem hrecord))

end CompressedLedger.Workflow
