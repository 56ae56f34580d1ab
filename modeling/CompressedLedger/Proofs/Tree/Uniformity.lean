import CompressedLedger.Proofs.Tree.Selection
import CompressedLedger.Proofs.Tree.WordCounts

/-!
# A choice is uniform

The indices below a count share the accepted words evenly (`DrawsEvenly`), and the trees to choose
from have different keys, so each of them has one index and is the answer to as many first words as
any other.  The same holds of longer runs: those that settle a choice are shared out evenly among
the trees, and at most every second first word leaves it open (`PicksEvenly`).
-/

namespace CompressedLedger.TreeSelection

open WordSource

variable {chains : List TreeChain} {kind : TreeKind} {pick : TreeAccounts}

/-! ### One index for each tree -/

theorem nodup_map_tree_firstOfEachKey (trees : List TreeAccounts) :
    ((firstOfEachKey trees).map (·.tree)).Nodup := by
  induction trees using List.reverseRecOn with
  | nil => exact List.nodup_nil
  | append_singleton trees t ih =>
    rw [firstOfEachKey_append_singleton, insertNew]
    split_ifs with hseen
    · exact ih
    · rw [any_firstOfEachKey_iff, ← List.mem_eraseDups, ← map_tree_firstOfEachKey] at hseen
      rw [List.map_append, List.map_singleton]
      exact ih.append (List.nodup_singleton _) (List.disjoint_singleton.mpr hseen)

theorem nodup_candidates (chains : List TreeChain) (kind : TreeKind) :
    (candidates chains kind).Nodup := by
  rw [candidates_eq]
  exact (nodup_map_tree_firstOfEachKey _).of_map

/-- A choice answers the candidate whose index is drawn. -/
theorem select_eq_draw (hkind : kind.isState = true) (hne : candidates chains kind ≠ [])
    (source : WordSource) :
    ∃ pick, select chains kind source =
        (.ok pick, (source.draw (candidates chains kind).length).2) ∧
      (candidates chains kind)[(source.draw (candidates chains kind).length).1]? = some pick := by
  obtain ⟨k, -, hfirst⟩ := source.exists_isFirstAccepted (candidates chains kind).length
  rw [draw_eq hfirst]
  exact select_eq_ok hkind hne hfirst

/-- A candidate is the answer exactly if its index is drawn. -/
theorem select_eq_ok_iff (hkind : kind.isState = true) {j : ℕ}
    (hj : (candidates chains kind)[j]? = some pick) (source rest : WordSource) :
    select chains kind source = (.ok pick, rest) ↔
      source.draw (candidates chains kind).length = (j, rest) := by
  have hne : candidates chains kind ≠ [] := List.ne_nil_of_mem (List.mem_of_getElem? hj)
  obtain ⟨answer, hselect, hget⟩ := select_eq_draw hkind hne source
  have hlt : (source.draw (candidates chains kind).length).1 < (candidates chains kind).length :=
    (List.getElem?_eq_some_iff.mp hget).1
  have hanswer : answer = pick ↔ (source.draw (candidates chains kind).length).1 = j := by
    rw [← List.getElem?_inj hlt (nodup_candidates chains kind), hget, hj, Option.some_inj]
  rw [hselect, Prod.mk.injEq, Except.ok.injEq, hanswer, Prod.ext_iff]

/-! ### Words and runs of a candidate -/

/-- The draw ends with its first word exactly if that word is accepted. -/
theorem draw_cons_eq_iff {n j : ℕ} {word : UInt32} :
    (∀ rest drawn, draw ⟨word :: rest, drawn⟩ n = (j, ⟨rest, drawn + 1⟩)) ↔
      accepts n word = true ∧ index n word = j := by
  have hstep (rest : List UInt32) (drawn : ℕ) : draw ⟨word :: rest, drawn⟩ n =
      if accepts n word then (index n word, ⟨rest, drawn + 1⟩)
      else drawFrom n rest (drawn + 1) := rfl
  constructor
  · intro h
    have hempty := h [] 0
    rw [hstep] at hempty
    split_ifs at hempty with haccepts
    · exact ⟨haccepts, congrArg Prod.fst hempty⟩
    · -- a refused word is followed by a zero, and then two words are drawn
      have hdrawn : 2 = 1 := congrArg (·.2.drawn) hempty
      cases hdrawn
  · rintro ⟨haccepts, rfl⟩ rest drawn
    rw [hstep, if_pos haccepts]

theorem ncard_words_of_candidate (hkind : kind.isState = true)
    (hsize : (candidates chains kind).length < wordCount) (hpick : pick ∈ candidates chains kind) :
    {word | ∀ rest drawn,
      select chains kind ⟨word :: rest, drawn⟩ = (.ok pick, ⟨rest, drawn + 1⟩)}.ncard =
      2 ^ leadingZeros (candidates chains kind).length := by
  obtain ⟨j, hj, hget⟩ := List.getElem_of_mem hpick
  have hwords : {word | ∀ rest drawn,
      select chains kind ⟨word :: rest, drawn⟩ = (.ok pick, ⟨rest, drawn + 1⟩)} =
      wordsOf (candidates chains kind).length j := by
    ext word
    simp only [select_eq_ok_iff hkind (List.getElem?_eq_some_iff.mpr ⟨hj, hget⟩)]
    exact draw_cons_eq_iff
  rw [hwords, ncard_wordsOf hj hsize]

theorem mul_ncard_runs_of_candidate (hkind : kind.isState = true)
    (hsize : (candidates chains kind).length < wordCount) (hpick : pick ∈ candidates chains kind)
    (k : ℕ) :
    (candidates chains kind).length * {words | words.length = k ∧ ∃ rest : WordSource,
        select chains kind (.ofList words) = (.ok pick, rest) ∧ rest.drawn ≤ k}.ncard +
      (wordCount - (candidates chains kind).length *
        2 ^ leadingZeros (candidates chains kind).length) ^ k = wordCount ^ k := by
  obtain ⟨j, hj, hget⟩ := List.getElem_of_mem hpick
  have hruns : {words | words.length = k ∧ ∃ rest : WordSource,
      select chains kind (.ofList words) = (.ok pick, rest) ∧ rest.drawn ≤ k} =
      deciding (candidates chains kind).length j k := by
    ext words
    simp only [select_eq_ok_iff hkind (List.getElem?_eq_some_iff.mpr ⟨hj, hget⟩)]
    refine and_congr_right fun hlength => ?_
    rw [decided_eq_some_iff, hlength]
    constructor
    · rintro ⟨rest, hdraw, hdrawn⟩
      rw [hdraw]
      exact ⟨rfl, hdrawn⟩
    · rintro ⟨hindex, hdrawn⟩
      exact ⟨_, Prod.ext hindex rfl, hdrawn⟩
  rw [hruns, mul_ncard_deciding hj hsize]

/-! ### Uniformity -/

/-- The words are shared out evenly among the indices below a count. -/
structure DrawsEvenly (n : ℕ) : Prop where
  /-- On words of the machine the test is that of the low half, and the index is the high half. -/
  at_machine_width : ∀ word, (accepts n word = true ↔
      (product (UInt32.ofNat n) word).toUInt32 ≤ zone (UInt32.ofNat n)) ∧
    index n word = (product (UInt32.ofNat n) word >>> 32).toNat
  words_of_index : ∀ j < n, {word | accepts n word = true ∧ index n word = j}.ncard =
    2 ^ zeroBits (UInt32.ofNat n)
  index_lt : ∀ word, accepts n word = true → index n word < n
  half_accepted : 2 ^ 32 ≤ 2 * {word | accepts n word = true}.ncard

/-- The words, and the runs of words, are shared out evenly among some trees. -/
structure PicksEvenly (chains : List TreeChain) (kind : TreeKind) (trees : List TreeAccounts) :
    Prop where
  /-- The words that settle a choice at once. -/
  words_of_tree : ∀ pick ∈ trees, {word | ∀ rest drawn,
      select chains kind ⟨word :: rest, drawn⟩ = (.ok pick, ⟨rest, drawn + 1⟩)}.ncard =
    2 ^ zeroBits (UInt32.ofNat trees.length)
  /-- The runs of `k` words that settle a choice; in the others every word is refused. -/
  runs_of_tree : ∀ pick ∈ trees, ∀ k, trees.length *
      {words | words.length = k ∧ ∃ rest : WordSource,
        select chains kind (.ofList words) = (.ok pick, rest) ∧ rest.drawn ≤ k}.ncard +
      (2 ^ 32 - trees.length * 2 ^ zeroBits (UInt32.ofNat trees.length)) ^ k = (2 ^ 32) ^ k

theorem zeroBits_ofNat {n : ℕ} (hpos : 0 < n) (hn : n < wordCount) :
    UInt32.ofNat n ≠ 0 ∧ zeroBits (UInt32.ofNat n) = leadingZeros n := by
  have hread : (UInt32.ofNat n).toNat = n := UInt32.toNat_ofNat_of_lt' hn
  have hne : UInt32.ofNat n ≠ 0 := by
    intro hzero
    rw [hzero] at hread
    exact hpos.ne hread
  refine ⟨hne, ?_⟩
  rw [zeroBits_eq hne, hread]

theorem drawsEvenly {n : ℕ} (hpos : 0 < n) (hn : n < wordCount) : DrawsEvenly n := by
  obtain ⟨hne, hzeros⟩ := zeroBits_ofNat hpos hn
  have hread : (UInt32.ofNat n).toNat = n := UInt32.toNat_ofNat_of_lt' hn
  refine ⟨fun word => ?_, fun j hj => ?_, fun word _ => index_lt hpos word, ?_⟩
  · have htest := accepts_iff_low_le_zone hne word
    have hindex := toNat_high (UInt32.ofNat n) word
    rw [hread] at htest hindex
    exact ⟨htest, hindex.symm⟩
  · rw [hzeros]
    exact ncard_wordsOf hj hn
  · exact le_two_mul_ncard_accepted hpos hn

theorem picksEvenly (hkind : kind.isState = true)
    (hsize : (candidates chains kind).length < wordCount) :
    PicksEvenly chains kind (candidates chains kind) := by
  have hzeros : ∀ pick ∈ candidates chains kind,
      zeroBits (UInt32.ofNat (candidates chains kind).length) =
        leadingZeros (candidates chains kind).length :=
    fun pick hpick => (zeroBits_ofNat (List.length_pos_of_mem hpick) hsize).2
  refine ⟨fun pick hpick => ?_, fun pick hpick k => ?_⟩
  · rw [hzeros pick hpick]
    exact ncard_words_of_candidate hkind hsize hpick
  · rw [hzeros pick hpick]
    exact mul_ncard_runs_of_candidate hkind hsize hpick k

/-- **A choice is exactly uniform.**  Take a count `n` that fits in a word.  Each index below it is
given by exactly two to the power of the leading zero bits of `n` among the words of 32 bits; no
accepted word gives another index, and at least half of the words are accepted.  The test and the
index are the same on words of the machine, where nothing wraps around.

If there are `n` trees to choose from, every one of them is therefore the answer to the same number
of first words.  And of the runs of `k` words the same number settles the choice for each of them;
the runs that leave it open are those of refused words only. -/
theorem select_uniform {n : ℕ} (hpos : 0 < n) (hn : n < 2 ^ 32) :
    DrawsEvenly n ∧ ∀ chains kind, kind.isState = true →
      (firstOfEachKey (lastTrees chains kind)).length = n →
        PicksEvenly chains kind (firstOfEachKey (lastTrees chains kind)) := by
  refine ⟨drawsEvenly hpos hn, fun chains kind hkind hlength => ?_⟩
  rw [← candidates_eq] at hlength ⊢
  exact picksEvenly hkind (hlength.trans_lt hn)

/-- The last of five indices has `2 ^ 29` of the words.  Of three trees the one in the middle, to
which another was rolled over, has a quarter of all words. -/
theorem select_uniform_of_three :
    let tree (i : UInt8) : TreeAccounts := ⟨⟨List.replicate 32 i, rfl⟩, .zero, .stateV1, none⟩
    let chains : List TreeChain := [.single (tree 1), ⟨tree 2, [tree 3]⟩, .single (tree 4)]
    {word | accepts 5 word = true ∧ index 5 word = 4}.ncard = 2 ^ 29 ∧
      firstOfEachKey (lastTrees chains .stateV1) = [tree 1, tree 3, tree 4] ∧
      {word | ∀ rest drawn,
        select chains .stateV1 ⟨word :: rest, drawn⟩ = (.ok (tree 3), ⟨rest, drawn + 1⟩)}.ncard =
        2 ^ 30 := by
  intro tree chains
  have htrees : firstOfEachKey (lastTrees chains .stateV1) = [tree 1, tree 3, tree 4] := by
    decide +kernel
  have hfive := (@select_uniform 5 (by decide) (by decide)).1.words_of_index 4 (by decide)
  have hthree := (@select_uniform 3 (by decide) (by decide)).2 chains .stateV1 rfl
  rw [htrees] at hthree
  have hwords := (hthree rfl).words_of_tree (tree 3) (by simp)
  have hfiveBits : zeroBits (UInt32.ofNat 5) = 29 := by decide
  have hthreeBits : zeroBits (UInt32.ofNat [tree 1, tree 3, tree 4].length) = 30 := by decide
  rw [hfiveBits] at hfive
  rw [hthreeBits] at hwords
  exact ⟨hfive, htrees, hwords⟩

end CompressedLedger.TreeSelection
