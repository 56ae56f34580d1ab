import CompressedLedger.Proofs.Tree.Words
import Mathlib.Data.List.Basic
import Mathlib.Data.List.Induction

/-!
# What is chosen among the chains

The trees to choose from are the last trees of the chains that start and end with the wanted kind
(`lastTrees`), one for each key (`firstOfEachKey`).  Several chains can lead to one successor, which
may be listed by itself as well: its first occurrence counts.  The candidates are collected by going
through the chains once, and `candidates_eq` says that this is the same list.

`select_exact` puts this together with the words of a draw: what is refused and what is answered,
how many words that takes, and that every tree of the list can be the answer.
-/

namespace CompressedLedger

theorem TreeChain.getLast?_toList (c : TreeChain) : c.toList.getLast? = some c.active := by
  rw [c.active_eq_getLast]
  exact List.getLast?_eq_some_getLast _

namespace TreeSelection

/-- The last trees of the chains that start with the wanted kind, those of that kind. -/
def lastTrees (chains : List TreeChain) (kind : TreeKind) : List TreeAccounts :=
  ((chains.filter (·.first.kind = kind)).filterMap (·.toList.getLast?)).filter (·.kind = kind)

/-- For each key, in order of their first occurrence, the first tree that has it. -/
def firstOfEachKey (trees : List TreeAccounts) : List TreeAccounts :=
  (trees.map (·.tree)).eraseDups.filterMap fun key => trees.find? (·.tree == key)

variable {chains : List TreeChain} {kind : TreeKind} {trees : List TreeAccounts} {t : TreeAccounts}

theorem mem_lastTrees_iff : t ∈ lastTrees chains kind ↔
    t.kind = kind ∧ ∃ c ∈ chains, c.first.kind = kind ∧ c.toList.getLast? = some t := by
  simp only [lastTrees, List.mem_filter, List.mem_filterMap, decide_eq_true_eq, and_assoc]
  exact and_comm

/-! ### One tree for each key -/

/-- A key of the list has a first tree. -/
theorem exists_find?_eq_some {key : Pubkey} (h : key ∈ trees.map (·.tree)) :
    ∃ t, trees.find? (·.tree == key) = some t ∧ t.tree = key := by
  obtain ⟨t, ht, rfl⟩ := List.mem_map.mp h
  have hsome : (trees.find? (·.tree == t.tree)).isSome := by
    rw [List.find?_isSome]
    exact ⟨t, ht, beq_self_eq_true _⟩
  obtain ⟨u, hu⟩ := Option.isSome_iff_exists.mp hsome
  exact ⟨u, hu, by simpa using List.find?_some hu⟩

/-- The trees have the keys of the list, each of them once, in the order of the list. -/
theorem map_tree_firstOfEachKey (trees : List TreeAccounts) :
    (firstOfEachKey trees).map (·.tree) = (trees.map (·.tree)).eraseDups := by
  have hkeys : ∀ key ∈ (trees.map (·.tree)).eraseDups,
      (trees.find? (·.tree == key)).map (·.tree) = some key := by
    intro key hkey
    obtain ⟨t, hfind, rfl⟩ := exists_find?_eq_some (List.mem_eraseDups.mp hkey)
    rw [hfind, Option.map_some]
  rw [firstOfEachKey, List.map_filterMap, List.filterMap_congr hkeys, List.filterMap_some]

theorem mem_of_mem_firstOfEachKey (h : t ∈ firstOfEachKey trees) : t ∈ trees := by
  obtain ⟨key, -, hfind⟩ := List.mem_filterMap.mp h
  exact List.mem_of_find?_eq_some hfind

theorem any_firstOfEachKey_iff {key : Pubkey} :
    (firstOfEachKey trees).any (·.tree == key) = true ↔ key ∈ trees.map (·.tree) := by
  rw [← List.mem_eraseDups, ← map_tree_firstOfEachKey, List.any_eq_true, List.mem_map]
  simp only [beq_iff_eq]

/-- A key that is in the list keeps its first tree when the list grows. -/
theorem find?_append_of_mem {key : Pubkey} (h : key ∈ trees.map (·.tree))
    (more : List TreeAccounts) :
    (trees ++ more).find? (·.tree == key) = trees.find? (·.tree == key) := by
  obtain ⟨u, hfind, -⟩ := exists_find?_eq_some h
  rw [List.find?_append, hfind, Option.some_or]

theorem find?_append_of_notMem (h : t.tree ∉ trees.map (·.tree)) :
    (trees ++ [t]).find? (·.tree == t.tree) = some t := by
  have hnone : trees.find? (·.tree == t.tree) = none := by
    rw [List.find?_eq_none]
    intro u hu heq
    exact h (List.mem_map.mpr ⟨u, hu, eq_of_beq heq⟩)
  rw [List.find?_append, hnone, Option.none_or]
  exact List.find?_cons_of_pos (beq_self_eq_true t.tree)

/-- A further tree is added at the end if its key is new. -/
theorem firstOfEachKey_append_singleton (trees : List TreeAccounts) (t : TreeAccounts) :
    firstOfEachKey (trees ++ [t]) = insertNew (firstOfEachKey trees) t := by
  have hold : ∀ key ∈ (trees.map (·.tree)).eraseDups,
      (trees ++ [t]).find? (·.tree == key) = trees.find? (·.tree == key) :=
    fun key hkey => find?_append_of_mem (List.mem_eraseDups.mp hkey) [t]
  have hsplit : firstOfEachKey (trees ++ [t]) = firstOfEachKey trees ++
      ([t.tree].removeAll (trees.map (·.tree))).eraseDups.filterMap
        fun key => (trees ++ [t]).find? (·.tree == key) := by
    rw [firstOfEachKey, List.map_append, List.eraseDups_append, List.filterMap_append,
      List.filterMap_congr hold]
    rfl
  rw [hsplit, insertNew, List.removeAll, List.filter_singleton, List.elem_eq_mem]
  by_cases hmem : t.tree ∈ trees.map (·.tree)
  · rw [if_pos (any_firstOfEachKey_iff.mpr hmem), decide_eq_true hmem]
    exact List.append_nil _
  · have hadded : [t.tree].eraseDups.filterMap
        (fun key => (trees ++ [t]).find? (·.tree == key)) = [t] :=
      List.filterMap_cons_some (find?_append_of_notMem hmem)
    rw [if_neg (mt any_firstOfEachKey_iff.mp hmem), decide_eq_false hmem]
    exact congrArg (firstOfEachKey trees ++ ·) hadded

/-- Going through the trees once, and keeping those of a new key, leaves the first of each key. -/
theorem foldl_insertNew (trees : List TreeAccounts) :
    trees.foldl insertNew [] = firstOfEachKey trees := by
  induction trees using List.reverseRecOn with
  | nil => rfl
  | append_singleton trees t ih =>
    rw [List.foldl_append, ih, firstOfEachKey_append_singleton]
    rfl

theorem length_firstOfEachKey_le (trees : List TreeAccounts) :
    (firstOfEachKey trees).length ≤ trees.length := by
  induction trees using List.reverseRecOn with
  | nil => exact Nat.zero_le _
  | append_singleton trees t ih =>
    rw [firstOfEachKey_append_singleton, insertNew, List.length_append]
    split_ifs
    · omega
    · rw [List.length_append]
      omega

/-! ### The candidates -/

theorem lastTrees_eq (chains : List TreeChain) (kind : TreeKind) : lastTrees chains kind =
    (chains.filter fun c => c.first.kind == kind && c.active.kind == kind).map (·.active) := by
  have hlast : (chains.filter (·.first.kind = kind)).filterMap (·.toList.getLast?) =
      (chains.filter (·.first.kind = kind)).map (·.active) :=
    List.filterMap_eq_map_iff_forall_eq_some.mpr fun c _ => c.getLast?_toList
  rw [lastTrees, hlast, List.filter_map, List.filter_filter]
  congr 1
  refine List.filter_congr fun c _ => ?_
  rw [Bool.and_comm]
  rfl

theorem candidates_eq (chains : List TreeChain) (kind : TreeKind) :
    candidates chains kind = firstOfEachKey (lastTrees chains kind) := by
  rw [candidates, foldl_insertNew, lastTrees_eq]

theorem length_candidates_le (chains : List TreeChain) (kind : TreeKind) :
    (candidates chains kind).length ≤ chains.length := by
  rw [candidates_eq, lastTrees_eq]
  refine (length_firstOfEachKey_le _).trans ?_
  rw [List.length_map]
  exact List.length_filter_le _ _

/-! ### A choice -/

theorem select_eq_error_iff {source : WordSource} :
    select chains kind source = (.error .noActiveTree, source) ↔
      kind.isState = false ∨ candidates chains kind = [] := by
  unfold select
  cases kind.isState with
  | false => simp
  | true =>
    cases candidates chains kind with
    | nil => simp
    | cons t ts => simp

/-- The first accepted word decides which of the candidates is answered. -/
theorem select_eq_ok {source : WordSource} {k : ℕ} (hkind : kind.isState = true)
    (hne : candidates chains kind ≠ [])
    (hfirst : source.IsFirstAccepted (candidates chains kind).length k) :
    ∃ pick, select chains kind source = (.ok pick, source.after (k + 1)) ∧
      (candidates chains kind)[
        WordSource.index (candidates chains kind).length (source.wordAt k)]? = some pick := by
  unfold select
  rw [if_pos hkind]
  cases hcandidates : candidates chains kind with
  | nil => exact absurd hcandidates hne
  | cons t ts =>
    rw [hcandidates] at hfirst
    have hindex : WordSource.index (t :: ts).length (source.wordAt k) < (t :: ts).length :=
      WordSource.index_lt (Nat.succ_pos ts.length) _
    refine ⟨(t :: ts)[WordSource.index (t :: ts).length (source.wordAt k)], ?_, ?_⟩
    · have hdraw : source.draw (ts.length + 1) = _ := WordSource.draw_eq hfirst
      simp only [hdraw]
      rw [← List.getD_eq_getElem _ t hindex]
      rfl
    · exact List.getElem?_eq_getElem hindex

/-- Every candidate is the answer to some first word. -/
theorem exists_select_eq_ok {pick : TreeAccounts} (hkind : kind.isState = true)
    (hsize : chains.length < WordSource.wordCount) (hpick : pick ∈ candidates chains kind) :
    ∃ word, ∀ rest drawn,
      select chains kind ⟨word :: rest, drawn⟩ = (.ok pick, ⟨rest, drawn + 1⟩) := by
  obtain ⟨j, hj, rfl⟩ := List.getElem_of_mem hpick
  obtain ⟨word, haccepted, hindex⟩ := WordSource.exists_accepts_of_lt hj
    ((length_candidates_le chains kind).trans_lt hsize)
  refine ⟨word, fun rest drawn => ?_⟩
  have hfirst :
      WordSource.IsFirstAccepted ⟨word :: rest, drawn⟩ (candidates chains kind).length 0 :=
    ⟨haccepted, fun i hi => absurd hi (Nat.not_lt_zero i)⟩
  obtain ⟨pick, hselect, hget⟩ := select_eq_ok hkind (List.ne_nil_of_mem hpick) hfirst
  rw [WordSource.wordAt_cons_zero, hindex, List.getElem?_eq_getElem hj, Option.some_inj] at hget
  rw [hselect, hget]
  rfl

/-- In a run of choices with one source every choice answers a candidate, and each one draws. -/
theorem selectMany_answers (hkind : kind.isState = true) (hne : candidates chains kind ≠ [])
    (times : ℕ) (source : WordSource) :
    (∀ answer ∈ selectMany chains kind times source, source.drawn < answer.2 ∧
      ∃ pick ∈ candidates chains kind, answer.1 = .ok pick) ∧
    (selectMany chains kind times source).Pairwise (·.2 < ·.2) := by
  induction times generalizing source with
  | zero => simp [selectMany]
  | succ times ih =>
    obtain ⟨k, -, hfirst⟩ := source.exists_isFirstAccepted (candidates chains kind).length
    obtain ⟨pick, hselect, hget⟩ := select_eq_ok hkind hne hfirst
    obtain ⟨hlater, hincreasing⟩ := ih (source.after (k + 1))
    have hdrawn : source.drawn < (source.after (k + 1)).drawn :=
      Nat.lt_add_of_pos_right (Nat.succ_pos k)
    rw [selectMany, hselect]
    have hfirstLeast := fun answer hanswer => (hlater answer hanswer).1
    refine ⟨fun answer hanswer => ?_, List.pairwise_cons.mpr ⟨hfirstLeast, hincreasing⟩⟩
    rcases List.mem_cons.mp hanswer with rfl | hanswer
    · exact ⟨hdrawn, pick, List.mem_of_getElem? hget, rfl⟩
    · exact ⟨hdrawn.trans (hlater answer hanswer).1, (hlater answer hanswer).2⟩

/-- **A choice answers exactly the active trees of the wanted kind.**  Let the trees be the last
ones of the chains that start and end with the wanted kind, one for each key in order of their first
occurrence.  A choice is refused, and no word is drawn, exactly if the kind holds no account hashes
or there are no such trees.  Otherwise the words up to the first accepted one are drawn, at the
latest the first zero behind the words of the source, and the index of that word gives the answer:
one of the trees, of the wanted kind, the last of a chain that starts with that kind.  Every one of
the trees is the answer to some word, whatever follows it. -/
theorem select_exact (hsize : chains.length < 2 ^ 32) (source : WordSource) :
    let trees := firstOfEachKey (lastTrees chains kind)
    (select chains kind source = (.error .noActiveTree, source) ↔
      kind.isState = false ∨ trees = []) ∧
    (kind.isState = true → trees ≠ [] →
      (∃ k ≤ source.words.length, source.IsFirstAccepted trees.length k ∧
        ∃ pick, select chains kind source = (.ok pick, source.after (k + 1)) ∧
          trees[WordSource.index trees.length (source.wordAt k)]? = some pick ∧
          pick ∈ trees ∧ pick.kind = kind ∧
          ∃ c ∈ chains, c.first.kind = kind ∧ c.toList.getLast? = some pick) ∧
      ∀ pick ∈ trees, ∃ word, ∀ rest drawn,
        select chains kind ⟨word :: rest, drawn⟩ = (.ok pick, ⟨rest, drawn + 1⟩)) := by
  intro trees
  have htrees : trees = candidates chains kind := (candidates_eq chains kind).symm
  rw [htrees]
  refine ⟨select_eq_error_iff, fun hkind hne =>
    ⟨?_, fun pick hpick => exists_select_eq_ok hkind hsize hpick⟩⟩
  obtain ⟨k, hk, hfirst⟩ := source.exists_isFirstAccepted (candidates chains kind).length
  obtain ⟨pick, hselect, hget⟩ := select_eq_ok hkind hne hfirst
  have hpick : pick ∈ candidates chains kind := List.mem_of_getElem? hget
  have hlast : pick ∈ lastTrees chains kind := by
    rw [candidates_eq] at hpick
    exact mem_of_mem_firstOfEachKey hpick
  obtain ⟨hpickKind, hchain⟩ := mem_lastTrees_iff.mp hlast
  exact ⟨k, hk, hfirst, pick, hselect, hget, hpick, hpickKind, hchain⟩

/-- Two trees were rolled over to one successor, which is listed as well, a third one to a batched
tree, and one stands alone.  The first word is refused, and the second one gives the second of the
two trees to choose from. -/
theorem select_exact_of_shared_successor :
    let key (i : UInt8) : Pubkey := ⟨List.replicate 32 i, rfl⟩
    let tree (i : UInt8) (kind : TreeKind) : TreeAccounts := ⟨key i, key (i + 100), kind, none⟩
    let shared := tree 2 .stateV1
    let alone := tree 7 .stateV1
    let chains : List TreeChain := [⟨tree 1 .stateV1, [shared]⟩, ⟨tree 3 .stateV1, [shared]⟩,
      .single shared, ⟨tree 4 .stateV1, [tree 5 .stateV2]⟩, .single (tree 6 .stateV2),
      .single alone]
    let source := WordSource.ofList [0x7FFFFFFF, 0x80000000, 5]
    firstOfEachKey (lastTrees chains .stateV1) = [shared, alone] ∧
    select chains .stateV1 source = (.ok alone, ⟨[5], 2⟩) ∧
    (∃ word, ∀ rest drawn,
      select chains .stateV1 ⟨word :: rest, drawn⟩ = (.ok shared, ⟨rest, drawn + 1⟩)) := by
  intro key tree shared alone chains source
  have htrees : firstOfEachKey (lastTrees chains .stateV1) = [shared, alone] := by
    decide +kernel
  have hlaws := @select_exact chains .stateV1 (by decide) source
  rw [htrees] at hlaws
  obtain ⟨⟨k, -, hfirst, pick, hselect, hget, -⟩, hreach⟩ :=
    hlaws.2 rfl (List.cons_ne_nil shared [alone])
  have hsecond : source.IsFirstAccepted 2 1 := ⟨by decide, by decide⟩
  obtain rfl : k = 1 := hfirst.unique hsecond
  have hindex : WordSource.index 2 (source.wordAt 1) = 1 := by decide
  obtain rfl : alone = pick := by
    rw [List.length_cons, List.length_singleton, hindex] at hget
    exact Option.some_inj.mp hget
  exact ⟨htrees, hselect, hreach shared List.mem_cons_self⟩

end TreeSelection

end CompressedLedger
