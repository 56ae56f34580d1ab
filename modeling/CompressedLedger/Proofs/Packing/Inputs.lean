import CompressedLedger.Proofs.Packing.Positions
import CompressedLedger.Proofs.Packing.Session

/-!
# Unpacking input accounts

Packing inputs interns the tree and the queue of each input and after them the account that takes
the output (`interns_packAccounts`).  The trees and queues are those the inputs were given with;
only the output goes to the end of its chain (`TreeChain.active_eq_getLast`).  With the table that
the packing leaves, every position in the result leads back to the key it stands for.
-/

namespace CompressedLedger

open KeyTable Packer

/-- The keys of an input: its own tree and its own queue. -/
def LocatedAccount.ownKeys (input : LocatedAccount) : List Pubkey :=
  [input.context.chain.first.tree, input.context.chain.first.queue]

/-- The keys that are interned for some inputs and an output, in this order. -/
def packedKeys (inputs : List LocatedAccount) (output : Pubkey) : List Pubkey :=
  inputs.flatMap (·.ownKeys) ++ [output]

/-- The record of an input and its root index, with positions given by a function. -/
def LocatedAccount.packedWith (index : Pubkey → UInt8) (input : LocatedAccount × UInt16) :
    PackedInput :=
  let context := input.1.context
  ⟨input.1.account, ⟨index context.chain.first.tree, index context.chain.first.queue,
    context.leafIndex, context.proveByIndex⟩, input.2, input.1.readOnly⟩

theorem interns_packInput (input : LocatedAccount) (rootIndex : UInt16) :
    Interns (packInput input rootIndex) input.ownKeys
      fun index => LocatedAccount.packedWith index (input, rootIndex) :=
  (interns_intern input.context.chain.first.tree).bind fun tree =>
    (interns_intern input.context.chain.first.queue).bind fun queue =>
      interns_pure (⟨input.account, ⟨tree, queue, input.context.leafIndex,
        input.context.proveByIndex⟩, rootIndex, input.readOnly⟩ : PackedInput)

theorem packAccounts_of_length_eq {inputs : List LocatedAccount} {rootIndices : List UInt16}
    (h : inputs.length = rootIndices.length) (output : TreeChain) :
    packAccounts inputs rootIndices output =
      (inputs.zip rootIndices).mapM (fun x => packInput x.1 x.2) >>= fun packed =>
        intern output.active.output >>= fun outputIndex => pure ⟨packed, outputIndex⟩ := by
  unfold packAccounts
  rw [if_neg (not_not.mpr h)]

theorem interns_packAccounts {inputs : List LocatedAccount} {rootIndices : List UInt16}
    (h : inputs.length = rootIndices.length) (output : TreeChain) :
    Interns (packAccounts inputs rootIndices output) (packedKeys inputs output.active.output)
      fun index => ⟨(inputs.zip rootIndices).map (LocatedAccount.packedWith index),
        index output.active.output⟩ := by
  have hrecord : ∀ x : LocatedAccount × UInt16, Interns (packInput x.1 x.2) x.1.ownKeys
      fun index => LocatedAccount.packedWith index x := fun x => interns_packInput x.1 x.2
  have hpacked := (interns_mapM hrecord (inputs.zip rootIndices)).bind fun packed =>
    (interns_intern output.active.output).bind fun outputIndex =>
      interns_pure (⟨packed, outputIndex⟩ : PackedAccounts)
  -- every input has a root index, so all their keys are interned
  have hkeys : (inputs.zip rootIndices).flatMap (·.1.ownKeys) = inputs.flatMap (·.ownKeys) := by
    have hfst : (inputs.zip rootIndices).map Prod.fst = inputs := List.map_fst_zip h.le
    conv_rhs => rw [← hfst, List.flatMap_map]
  rw [hkeys] at hpacked
  rw [packAccounts_of_length_eq h]
  exact hpacked

theorem LocatedAccount.packedIn_packedWith {keys wanted : List Pubkey}
    {input : LocatedAccount × UInt16} (hfits : Fits (extend keys wanted) wanted)
    (hkeys : input.1.ownKeys ⊆ wanted) :
    PackedIn (extend keys wanted) input (packedWith (position (extend keys wanted)) input) where
  account_eq := rfl
  leafIndex_eq := rfl
  proveByIndex_eq := rfl
  rootIndex_eq := rfl
  readOnly_eq := rfl
  tree := hfits.names (hkeys (List.mem_cons_self ..))
  queue := hfits.names (hkeys (List.mem_cons_of_mem _ (List.mem_singleton_self _)))

/-- Root indices that do not match the inputs in number are refused before anything is interned. -/
theorem pack_packAccounts_of_length_ne {inputs : List LocatedAccount} {rootIndices : List UInt16}
    (h : inputs.length ≠ rootIndices.length) (output : TreeChain) (initial : List Pubkey) :
    pack (packAccounts inputs rootIndices output) initial = .error .lengthMismatch := by
  unfold packAccounts
  rw [if_pos h]
  rfl

/-- **Packed inputs can be unpacked exactly.**  The packing is refused with `lengthMismatch` exactly
if there are not as many root indices as inputs.  The output goes to the last tree of its chain, to
the queue of that tree if it is a batched state tree and to the tree itself otherwise.  The table is
the initial one and behind it, in the order of first occurrence, what is new to it among the tree
and the queue of each input and the output.

With as many root indices as inputs the packing is refused with `tooManyKeys` exactly if one of
these keys has its first position in that table above 255.  Otherwise it gives that table and one
record for each input, in their order, with the account, the leaf index and the flags of the input
and the root index at its place.  The positions in a record lead to the input's own tree and queue
in the table, and the output position leads to the output. -/
theorem packAccounts_exact (inputs : List LocatedAccount) (rootIndices : List UInt16)
    (chain : TreeChain) (initial : List Pubkey) :
    let last := chain.toList.getLast (List.cons_ne_nil chain.first chain.successors)
    let output := if last.kind = .stateV2 then last.queue else last.tree
    let wanted := packedKeys inputs output
    let table := extend initial wanted
    let refused := ∃ key ∈ wanted, 255 < table.idxOf key
    let outcome := pack (packAccounts inputs rootIndices chain) initial
    (outcome = .error .lengthMismatch ↔ inputs.length ≠ rootIndices.length) ∧
    (inputs.length = rootIndices.length →
      (outcome = .error .tooManyKeys ↔ refused) ∧
      (¬ refused → ∃ packed, outcome = .ok (packed, table) ∧
        List.Forall₂ (LocatedAccount.PackedIn table) (inputs.zip rootIndices) packed.inputs ∧
        packed.inputs.length = inputs.length ∧ Names table packed.outputIndex output)) := by
  intro last output wanted table refused outcome
  have houtput : chain.active.output = output := by
    rw [TreeChain.active_eq_getLast]
    rfl
  by_cases hlength : inputs.length = rootIndices.length
  · have hinterns := interns_packAccounts hlength chain
    rw [houtput] at hinterns
    refine ⟨?_, fun _ => ⟨?_, fun hnot => ?_⟩⟩
    · rw [hinterns.pack_eq_error_iff]
      simp only [hlength, reduceCtorEq, false_and, ne_eq, not_true_eq_false]
    · rw [hinterns.pack_eq_error_iff, not_fits_iff]
      exact and_iff_right rfl
    · have hfits : Fits table wanted := not_not.mp (mt not_fits_iff.mp hnot)
      refine ⟨_, hinterns.pack_of_fits hfits, ?_, ?_, ?_⟩
      · rw [List.forall₂_map_right_iff, List.forall₂_same]
        intro input hinput
        refine LocatedAccount.packedIn_packedWith hfits fun key hkey => ?_
        exact List.mem_append_left _ (List.mem_flatMap_of_mem (List.of_mem_zip hinput).1 hkey)
      · rw [List.length_map, List.length_zip, ← hlength, min_self]
      · exact hfits.names (List.mem_append_right _ (List.mem_singleton_self output))
  · exact ⟨iff_of_true (pack_packAccounts_of_length_ne hlength chain initial) hlength,
      fun heq => absurd heq hlength⟩

/-- The output of a version 1 tree that was rolled over to a batched one goes to the queue of the
latter, and the input keeps the tree and the queue that it was given with. -/
example :
    let key (i : UInt8) : Pubkey := ⟨List.replicate 32 i, rfl⟩
    let chain : TreeChain := ⟨⟨key 1, key 2, .stateV1, none⟩, [⟨key 3, key 4, .stateV2, none⟩]⟩
    let input : LocatedAccount := ⟨⟨key 9, 5, none, none⟩, ⟨0, chain, 7, true⟩, false⟩
    pack (packAccounts [input] [6] chain) [key 2] =
      .ok (⟨[⟨input.account, ⟨1, 0, 7, true⟩, 6, false⟩], 2⟩, [key 2, key 1, key 4]) := by
  decide +kernel

end CompressedLedger
