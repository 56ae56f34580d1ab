import CompressedLedger.Proofs.Indexer.Fields

/-!
# Tree records are converted link by link

A record with a successor is converted after its successor (`TreeRecord.toChain_cons`), so the
checks of a chain run from its last link to its first, and within a link in the order of its fields
(`TreeRecord.judged_toChain`).  Of several faults therefore the one farthest along the chain decides
the failure, and in its link the first field.  A chain without a fault gives the links it describes
in their order, the last of which is the active tree (`TreeRecord.toChain_link_by_link`).
-/

namespace CompressedLedger

/-! ### Kinds -/

namespace TreeKind

variable {n : ℕ} {k : TreeKind} {e : Error}

theorem ofTag_eq_ok_iff : ofTag n = .ok k ↔ k.tag = n := by
  constructor
  · intro h
    unfold ofTag at h
    split at h <;> cases h <;> rfl
  · rintro rfl
    exact ofTag_tag k

theorem eq_malformedResponse_of_ofTag (h : ofTag n = .error e) : e = .malformedResponse := by
  unfold ofTag at h
  split at h <;> cases h
  rfl

theorem exists_tag_eq_iff : (∃ k : TreeKind, k.tag = n) ↔ 1 ≤ n ∧ n ≤ 4 := by
  constructor
  · rintro ⟨k, rfl⟩
    cases k <;> decide
  · rintro ⟨hpos, hle⟩
    interval_cases n
    · exact ⟨stateV1, rfl⟩
    · exact ⟨addressV1, rfl⟩
    · exact ⟨stateV2, rfl⟩
    · exact ⟨addressV2, rfl⟩

end TreeKind

/-- One of the four numbers that stand for a kind. -/
def Check.kind (n : ℕ) : Check := ⟨1 ≤ n ∧ n ≤ 4, .malformedResponse⟩

theorem judged_ofTag (n : ℕ) : Judged (TreeKind.ofTag n) [Check.kind n] fun k => k.tag = n :=
  Judged.single (fun _ => TreeKind.ofTag_eq_ok_iff)
    (fun _ => TreeKind.eq_malformedResponse_of_ofTag) TreeKind.exists_tag_eq_iff.symm

/-! ### One link -/

namespace TreeLinkRecord

/-- The checks of a link, in their order. -/
def checks (link : TreeLinkRecord) : List Check :=
  [Check.pubkey link.tree, Check.pubkey link.queue, Check.kind link.kind.toNat] ++
    link.cpiContext.toList.map Check.pubkey

/-- The accounts are the decoded values of the link. -/
structure Gives (link : TreeLinkRecord) (t : TreeAccounts) : Prop where
  tree : link.tree = Base58.encode t.tree.bytes
  queue : link.queue = Base58.encode t.queue.bytes
  kind : t.kind.tag = link.kind.toNat
  cpiContext : Option.Rel (fun text key => text = Base58.encode key.bytes) link.cpiContext
    t.cpiContext

theorem judged_toAccounts (link : TreeLinkRecord) :
    Judged link.toAccounts link.checks link.Gives := by
  have hsteps :=
    (judged_pubkey link.tree).bind fun tree _ =>
    (judged_pubkey link.queue).bind fun queue _ =>
    (judged_ofTag link.kind.toNat).bind fun kind _ =>
    (judged_optional judged_pubkey link.cpiContext).bind fun cpiContext _ =>
    judged_pure (TreeAccounts.mk tree queue kind cpiContext)
  rw [List.append_nil, ← List.map_eq_flatMap] at hsteps
  refine hsteps.congr fun t => ?_
  constructor
  · rintro ⟨tree, htree, queue, hqueue, kind, hkind, cpiContext, hcpiContext, rfl⟩
    exact ⟨htree, hqueue, hkind, hcpiContext⟩
  · rintro ⟨htree, hqueue, hkind, hcpiContext⟩
    exact ⟨_, htree, _, hqueue, _, hkind, _, hcpiContext, rfl⟩

/-- Every text of the link is that of a key, and its number stands for a kind. -/
structure IsValid (link : TreeLinkRecord) : Prop where
  tree : ∃ key : Pubkey, link.tree = Base58.encode key.bytes
  queue : ∃ key : Pubkey, link.queue = Base58.encode key.bytes
  kind : 1 ≤ link.kind.toNat ∧ link.kind.toNat ≤ 4
  cpiContext : ∀ text ∈ link.cpiContext, ∃ key : Pubkey, text = Base58.encode key.bytes

theorem isValid_iff {link : TreeLinkRecord} :
    link.IsValid ↔ ∀ check ∈ link.checks, check.Holds := by
  simp only [checks, List.forall_mem_append, List.forall_mem_cons, List.forall_mem_map,
    Option.mem_toList]
  constructor
  · rintro ⟨htree, hqueue, hkind, hcpiContext⟩
    exact ⟨⟨htree, hqueue, hkind, fun _ hc => nomatch hc⟩, hcpiContext⟩
  · rintro ⟨⟨htree, hqueue, hkind, -⟩, hcpiContext⟩
    exact ⟨htree, hqueue, hkind, hcpiContext⟩

end TreeLinkRecord

/-! ### Chains -/

/-- Lists that are related entry by entry have related last entries. -/
theorem getLastD_of_forall₂ {α β : Type} {R : α → β → Prop} {a : α} {b : β} {as : List α}
    {bs : List β} (h : R a b) (hs : List.Forall₂ R as bs) : R (as.getLastD a) (bs.getLastD b) := by
  induction hs generalizing a b with
  | nil => exact h
  | cons h' _ ih =>
    rw [List.getLastD_cons, List.getLastD_cons]
    exact ih h'

namespace TreeRecord

/-- The checks of a chain: those of the last link come first. -/
def checks (r : TreeRecord) : List Check := r.toList.reverse.flatMap TreeLinkRecord.checks

/-- The chain has one tree for every link, in the same order, with the decoded values. -/
def Gives (r : TreeRecord) (c : TreeChain) : Prop :=
  List.Forall₂ TreeLinkRecord.Gives r.toList c.toList

/-- The last link. -/
def last (r : TreeRecord) : TreeLinkRecord := r.successors.getLastD r.first

section

variable (link next : TreeLinkRecord) (rest : List TreeLinkRecord)

theorem toChain_single : toChain ⟨link, []⟩ = TreeChain.single <$> link.toAccounts :=
  (map_eq_pure_bind TreeChain.single link.toAccounts).symm

/-- The successor is converted before the fields of the link itself. -/
theorem toChain_cons : toChain ⟨link, next :: rest⟩ = toChain ⟨next, rest⟩ >>= fun c =>
    link.toAccounts >>= fun t => .ok ⟨t, c.toList⟩ := by
  simp only [toChain, TreeLinkRecord.allToAccounts, bind_assoc, pure_bind]
  rfl

theorem checks_cons : checks ⟨link, next :: rest⟩ = checks ⟨next, rest⟩ ++ link.checks := by
  rw [checks, toList, List.reverse_cons, List.flatMap_append, List.flatMap_singleton]
  rfl

end

theorem judged_toChain (r : TreeRecord) : Judged r.toChain r.checks r.Gives := by
  -- one link after another is put before a chain whose checks are already in front of its own
  obtain ⟨link, successors⟩ := r
  induction successors generalizing link with
  | nil =>
    have hchecks : checks ⟨link, []⟩ = link.checks := List.flatMap_singleton ..
    rw [toChain_single, hchecks]
    refine (link.judged_toAccounts.map TreeChain.single).congr fun ⟨t, successors⟩ => ?_
    rw [Gives, toList, TreeChain.toList, List.forall₂_cons, List.forall₂_nil_left_iff]
    constructor
    · rintro ⟨t', ht, hsingle⟩
      cases hsingle
      exact ⟨ht, rfl⟩
    · rintro ⟨ht, rfl⟩
      exact ⟨t, ht, rfl⟩
  | cons next rest ih =>
    have hstep := (ih next).bind fun c _ => link.judged_toAccounts.bind fun t _ =>
      judged_pure (TreeChain.mk t c.toList)
    rw [List.append_nil, ← checks_cons, ← toChain_cons] at hstep
    refine hstep.congr fun ⟨t, successors⟩ => ?_
    rw [Gives, toList, TreeChain.toList, List.forall₂_cons]
    constructor
    · rintro ⟨c, hc, t', ht, hcons⟩
      cases hcons
      exact ⟨ht, hc⟩
    · rintro ⟨ht, hsuccessors⟩
      -- there is a link after this one, so the other trees are a chain as well
      obtain ⟨t', rest', ht', hrest', rfl⟩ := List.forall₂_cons_left_iff.mp hsuccessors
      exact ⟨⟨t', rest'⟩, hsuccessors, t, ht, rfl⟩

/-- The trees of a chain that has been converted, told from the record. -/
structure Describes (r : TreeRecord) (c : TreeChain) : Prop where
  length_eq : c.toList.length = r.toList.length
  links : ∀ (i : ℕ) (link : TreeLinkRecord) (t : TreeAccounts), r.toList[i]? = some link →
    c.toList[i]? = some t → link.Gives t
  active : r.last.Gives c.active

variable {r : TreeRecord} {c : TreeChain} {e : Error}

theorem Gives.describes (h : r.Gives c) : r.Describes c := by
  obtain ⟨hlength, hlinks⟩ := List.forall₂_iff_get.mp h
  obtain ⟨hfirst, hsuccessors⟩ := List.forall₂_cons.mp h
  refine ⟨hlength.symm, fun i link t hlink ht => ?_, getLastD_of_forall₂ hfirst hsuccessors⟩
  obtain ⟨hi, rfl⟩ := List.getElem?_eq_some_iff.mp hlink
  obtain ⟨hi', rfl⟩ := List.getElem?_eq_some_iff.mp ht
  exact hlinks i hi hi'

theorem forall_checks_iff :
    (∀ check ∈ r.checks, check.Holds) ↔ ∀ link ∈ r.toList, link.IsValid := by
  simp only [checks, List.forall_mem_flatMap, List.mem_reverse, TreeLinkRecord.isValid_iff]

/-- Read backwards, the first failure is in the link that has only valid ones after it. -/
theorem firstFailure_checks_iff : FirstFailure r.checks e ↔
    ∃ before link after, r.toList = before ++ link :: after ∧
      (∀ later ∈ after, later.IsValid) ∧ FirstFailure link.checks e := by
  simp only [checks, FirstFailure.flatMap_iff, TreeLinkRecord.isValid_iff]
  constructor
  · rintro ⟨after, link, before, hsplit, hafter, hlink⟩
    refine ⟨before.reverse, link, after.reverse, ?_, fun later h => ?_, hlink⟩
    · rw [← List.reverse_reverse r.toList, hsplit, List.reverse_append, List.reverse_cons,
        List.append_assoc, List.singleton_append]
    · exact hafter later (List.mem_reverse.mp h)
  · rintro ⟨before, link, after, hsplit, hafter, hlink⟩
    refine ⟨after.reverse, link, before.reverse, ?_, fun later h => ?_, hlink⟩
    · rw [hsplit, List.reverse_append, List.reverse_cons, List.append_assoc, List.singleton_append]
    · exact hafter later (List.mem_reverse.mp h)

/-- **A tree record is converted link by link, the last link first.**  It gives a chain exactly if
every link is valid, and then the one with as many trees in the same order, each with the decoded
values of its link, of which the last is active.  Otherwise the failure is that of the link farthest
along the chain among those that are not valid, and in it that of the first field that is not. -/
theorem toChain_link_by_link (r : TreeRecord) :
    ((∃ c, r.toChain = .ok c) ↔ ∀ link ∈ r.toList, link.IsValid) ∧
      (∀ c, r.toChain = .ok c ↔ List.Forall₂ TreeLinkRecord.Gives r.toList c.toList) ∧
      (∀ c, r.toChain = .ok c → r.Describes c) ∧
      ∀ e, r.toChain = .error e ↔ ∃ before link after, r.toList = before ++ link :: after ∧
        (∀ later ∈ after, later.IsValid) ∧ FirstFailure link.checks e := by
  have hjudged := r.judged_toChain
  refine ⟨hjudged.exists_ok_iff.trans forall_checks_iff, hjudged.eq_ok_iff, fun c hc => ?_,
    fun e => (hjudged.eq_error_iff e).trans firstFailure_checks_iff⟩
  exact ((hjudged.eq_ok_iff c).mp hc).describes

/-- A tree that has been rolled over once gives a chain with the successor active.  Where the first
link is wrong in every field and the second one in its number and its context account, the second
link decides, and its number comes first. -/
theorem toChain_link_by_link_of_rollover :
    let text (n : ℕ) := Base58.encode (FixedBytes.ofNat n : Pubkey).bytes
    let rolled : TreeLinkRecord := ⟨text 1, text 2, 1, none⟩
    let full : TreeLinkRecord := ⟨text 3, text 4, 3, some (text 5)⟩
    (∃ c, toChain ⟨rolled, [full]⟩ = .ok c ∧ c.toList.length = 2 ∧
      c.active = ⟨.ofNat 3, .ofNat 4, .stateV2, some (.ofNat 5)⟩) ∧
      toChain ⟨⟨"0", "0", 0, some "0"⟩, [⟨text 1, text 2, 9, some "0"⟩, full]⟩ =
        .error .malformedResponse := by
  intro text rolled full
  have hfull : full.IsValid := ⟨⟨_, rfl⟩, ⟨_, rfl⟩, by decide, fun s hs => by
    cases hs
    exact ⟨_, rfl⟩⟩
  constructor
  · obtain ⟨-, hok, hdescribes, -⟩ := toChain_link_by_link ⟨rolled, [full]⟩
    have hchain := (hok ⟨⟨.ofNat 1, .ofNat 2, .stateV1, none⟩,
      [⟨.ofNat 3, .ofNat 4, .stateV2, some (.ofNat 5)⟩]⟩).mpr
      (.cons ⟨rfl, rfl, rfl, Option.Rel.none⟩
        (.cons ⟨rfl, rfl, rfl, Option.Rel.some rfl⟩ .nil))
    exact ⟨_, hchain, (hdescribes _ hchain).length_eq, rfl⟩
  · refine ((toChain_link_by_link _).2.2.2 _).mpr ⟨[_], _, [full], rfl, ?_, ?_⟩
    · rw [List.forall_mem_singleton]
      exact hfull
    · have hkind : ¬(1 ≤ (9 : UInt64).toNat ∧ (9 : UInt64).toNat ≤ 4) := by decide
      exact .later ⟨_, rfl⟩ (.later ⟨_, rfl⟩ (.here hkind))

end TreeRecord

end CompressedLedger
