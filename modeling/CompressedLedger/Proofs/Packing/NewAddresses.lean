import CompressedLedger.Proofs.Packing.Positions
import CompressedLedger.Proofs.Packing.Session

/-!
# The table and the records of new addresses

Packing new addresses interns all trees and then all queues (`interns_packNewAddresses`).  So the
table at the end is known from the requests alone, and so are the records: each carries its request
with the first positions of its tree and its queue in that table (`NewAddress.PackedFirst`).
-/

namespace CompressedLedger

open KeyTable Packer

/-- The record of a request, with positions given by a function. -/
def NewAddress.packedWith (index : Pubkey → UInt8) (r : NewAddress) : PackedNewAddress :=
  ⟨r.seed, index r.queue, index r.tree, r.rootIndex⟩

/-- The positions of trees and of queues are taken in two passes and come together in the
records. -/
theorem map_zip_zip_eq_packedWith (index : Pubkey → UInt8) (requests : List NewAddress) :
    ((requests.zip ((requests.map fun r => index r.tree).zip
      (requests.map fun r => index r.queue))).map fun (r, tree, queue) =>
        (⟨r.seed, queue, tree, r.rootIndex⟩ : PackedNewAddress)) =
      requests.map (·.packedWith index) := by
  induction requests with
  | nil => rfl
  | cons r rest ih =>
    simp only [List.map_cons, List.zip_cons_cons]
    rw [ih]
    rfl

theorem interns_packNewAddresses (requests : List NewAddress) :
    Interns (packNewAddresses requests) (requests.map (·.tree) ++ requests.map (·.queue))
      fun index => requests.map (·.packedWith index) := by
  have htrees := interns_mapM (fun r : NewAddress => interns_intern r.tree) requests
  have hqueues := interns_mapM (fun r : NewAddress => interns_intern r.queue) requests
  have hpacked := htrees.bind fun trees => hqueues.bind fun queues =>
    interns_pure ((requests.zip (trees.zip queues)).map fun (r, tree, queue) =>
      (⟨r.seed, queue, tree, r.rootIndex⟩ : PackedNewAddress))
  simp only [map_zip_zip_eq_packedWith, List.append_nil, ← List.map_eq_flatMap] at hpacked
  exact hpacked

/-! ### Records with first positions -/

/-- The record of a request whose positions are the first ones of its tree and its queue. -/
structure NewAddress.PackedFirst (keys : List Pubkey) (r : NewAddress) (p : PackedNewAddress) : Prop
    extends NewAddress.PackedIn keys r p where
  treeIndex_eq : p.treeIndex.toNat = keys.idxOf r.tree
  queueIndex_eq : p.queueIndex.toNat = keys.idxOf r.queue

theorem NewAddress.packedFirst_packedWith {keys wanted : List Pubkey} {r : NewAddress}
    (hfits : Fits (extend keys wanted) wanted) (htree : r.tree ∈ wanted)
    (hqueue : r.queue ∈ wanted) :
    r.PackedFirst (extend keys wanted) (r.packedWith (position (extend keys wanted))) where
  seed_eq := rfl
  rootIndex_eq := rfl
  tree := hfits.names htree
  queue := hfits.names hqueue
  treeIndex_eq := toNat_position (hfits r.tree htree)
  queueIndex_eq := toNat_position (hfits r.queue hqueue)

theorem NewAddress.not_fits_iff {keys : List Pubkey} {requests : List NewAddress} :
    ¬ Fits keys (requests.map (·.tree) ++ requests.map (·.queue)) ↔
      ∃ r ∈ requests, 255 < keys.idxOf r.tree ∨ 255 < keys.idxOf r.queue := by
  rw [KeyTable.not_fits_iff]
  constructor
  · rintro ⟨key, hkey, hlt⟩
    rcases List.mem_append.mp hkey with htree | hqueue
    · obtain ⟨r, hr, rfl⟩ := List.mem_map.mp htree
      exact ⟨r, hr, Or.inl hlt⟩
    · obtain ⟨r, hr, rfl⟩ := List.mem_map.mp hqueue
      exact ⟨r, hr, Or.inr hlt⟩
  · rintro ⟨r, hr, htree | hqueue⟩
    · exact ⟨r.tree, List.mem_append_left _ (List.mem_map_of_mem hr), htree⟩
    · exact ⟨r.queue, List.mem_append_right _ (List.mem_map_of_mem hr), hqueue⟩

/-- **New addresses are packed exactly.**  The table for a list of requests is the initial one and
behind it, in the order of first occurrence, the trees that are new to it and then the queues that
are.  The packing is refused with `tooManyKeys` exactly if some tree or queue has its first position
in that table above 255.  Otherwise it gives that table and one record for each request, in their
order, with the request's seed and root index and the first positions of its tree and its queue. -/
theorem packNewAddresses_exact (requests : List NewAddress) (initial : List Pubkey) :
    let table := extend initial (requests.map (·.tree) ++ requests.map (·.queue))
    let refused := ∃ r ∈ requests, 255 < table.idxOf r.tree ∨ 255 < table.idxOf r.queue
    (pack (packNewAddresses requests) initial = .error .tooManyKeys ↔ refused) ∧
    (¬ refused → ∃ packed, pack (packNewAddresses requests) initial = .ok (packed, table) ∧
      List.Forall₂ (NewAddress.PackedFirst table) requests packed) := by
  intro table refused
  have hinterns := interns_packNewAddresses requests
  refine ⟨?_, fun hnot => ?_⟩
  · rw [hinterns.pack_eq_error_iff, NewAddress.not_fits_iff]
    exact and_iff_right rfl
  · have hfits : Fits table (requests.map (·.tree) ++ requests.map (·.queue)) :=
      not_not.mp (mt NewAddress.not_fits_iff.mp hnot)
    refine ⟨_, hinterns.pack_of_fits hfits, ?_⟩
    rw [List.forall₂_map_right_iff, List.forall₂_same]
    intro r hr
    exact NewAddress.packedFirst_packedWith hfits
      (List.mem_append_left _ (List.mem_map_of_mem hr))
      (List.mem_append_right _ (List.mem_map_of_mem hr))

/-- A batched tree is its own queue, and a queue that the table has already keeps its place. -/
example :
    let key (i : UInt8) : Pubkey := ⟨List.replicate 32 i, rfl⟩
    pack (packNewAddresses [⟨key 5, 7, key 10, key 11⟩, ⟨key 6, 8, key 20, key 20⟩])
        [key 99, key 11] =
      .ok ([⟨key 5, 1, 2, 7⟩, ⟨key 6, 3, 3, 8⟩], [key 99, key 11, key 10, key 20]) := by
  decide +kernel

end CompressedLedger
