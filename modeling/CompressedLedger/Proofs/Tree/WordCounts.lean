import CompressedLedger.Proofs.Tree.Words
import Mathlib.Algebra.Order.Floor.Div
import Mathlib.Data.FinEnum
import Mathlib.Data.Set.Card
import Mathlib.Data.Set.Finite.List
import Mathlib.Order.Interval.Finset.Nat
import Mathlib.Tactic.Ring

/-!
# How many words give an index

The words accepted with one index have their products in a window above a multiple of `2 ^ 32`
(`accepts_and_index_iff`).  The window is `n * 2 ^ leadingZeros n` wide and so holds exactly
`2 ^ leadingZeros n` multiples of `n`, wherever it starts (`ncard_wordsOf`).  The windows of the `n`
indices are apart, so `n * 2 ^ leadingZeros n` words are accepted (`ncard_accepted`), which is at
least half of them.

A choice goes on until a word is accepted.  Of the runs of `k` words, equally many decide for each
index (`mul_ncard_deciding`): a run either starts with a word of the index, or with a refused word
and then a run that decides for it.

All of this is on natural numbers.  On words of the machine no product, shift or difference loses a
bit, so the test and the index are the same there (`accepts_iff_low_le_zone`, `toNat_high`).
-/

namespace CompressedLedger.WordSource

/-! ### At the width of the machine -/

/-- The leading zero bits of a count, in 32 bits. -/
def zeroBits (count : UInt32) : ℕ := count.toBitVec.clz.toNat

/-- The product of a word and a count, in 64 bits. -/
def product (count word : UInt32) : UInt64 := word.toUInt64 * count.toUInt64

/-- The largest low half that is accepted: a shift and a difference that may wrap around. -/
def zone (count : UInt32) : UInt32 := (count <<< UInt32.ofNat (zeroBits count)) - 1

variable {count : UInt32}

theorem pos_of_ne_zero (h : count ≠ 0) : 0 < count.toNat :=
  Nat.pos_of_ne_zero fun hzero => h (UInt32.toNat_inj.mp hzero)

theorem zeroBits_eq (h : count ≠ 0) : zeroBits count = leadingZeros count.toNat := by
  have hne : count.toBitVec ≠ 0#32 := fun hzero => h (UInt32.toBitVec_inj.mp hzero)
  have hclz : zeroBits count < 32 := BitVec.clz_lt_iff_ne_zero.mpr hne
  have hlow : 2 ^ (32 - 1 - zeroBits count) ≤ count.toNat :=
    BitVec.two_pow_sub_clz_le_toNat_of_ne_zero (by decide) hne
  have hhigh : count.toNat < 2 ^ (32 - zeroBits count) := BitVec.toNat_lt_two_pow_sub_clz
  have hlog : count.toNat.log2 = 32 - 1 - zeroBits count := by
    rw [Nat.log2_eq_iff (pos_of_ne_zero h).ne']
    refine ⟨hlow, ?_⟩
    rwa [show 32 - 1 - zeroBits count + 1 = 32 - zeroBits count by omega]
  rw [leadingZeros, hlog]
  omega

theorem toNat_product (count word : UInt32) :
    (product count word).toNat = word.toNat * count.toNat := by
  have hlt : word.toNat * count.toNat < 2 ^ 32 * 2 ^ 32 :=
    Nat.mul_lt_mul'' word.toNat_lt count.toNat_lt
  rw [product, UInt64.toNat_mul, UInt32.toNat_toUInt64, UInt32.toNat_toUInt64]
  exact Nat.mod_eq_of_lt hlt

theorem toNat_zone (h : count ≠ 0) : (zone count).toNat = bound count.toNat := by
  have hzeros : zeroBits count < 32 := by
    rw [zeroBits_eq h, leadingZeros]
    omega
  have hshift : (count <<< UInt32.ofNat (zeroBits count)).toNat =
      count.toNat <<< leadingZeros count.toNat := by
    have hfits := shiftLeft_leadingZeros_lt count.toNat_lt
    rw [UInt32.toNat_shiftLeft, UInt32.toNat_ofNat_of_lt' (hzeros.trans (by decide)),
      Nat.mod_eq_of_lt hzeros, zeroBits_eq h, Nat.mod_eq_of_lt hfits]
  have hone : (1 : UInt32) ≤ count <<< UInt32.ofNat (zeroBits count) := by
    rw [UInt32.le_iff_toNat_le, hshift]
    exact (pos_of_ne_zero h).trans_le Nat.le_shiftLeft
  rw [zone, UInt32.toNat_sub_of_le _ _ hone, hshift]
  rfl

/-- A word is accepted if the low half of its product does not lie above the zone. -/
theorem accepts_iff_low_le_zone (h : count ≠ 0) (word : UInt32) :
    accepts count.toNat word = true ↔ (product count word).toUInt32 ≤ zone count := by
  rw [accepts, decide_eq_true_eq, UInt32.le_iff_toNat_le, UInt64.toNat_toUInt32, toNat_product,
    toNat_zone h]

/-- The index of a word is the high half of its product. -/
theorem toNat_high (count word : UInt32) :
    (product count word >>> 32).toNat = index count.toNat word := by
  rw [UInt64.toNat_shiftRight, toNat_product, Nat.shiftRight_eq_div_pow, index]
  rfl

/-! ### Words -/

/-- The words that are accepted with an index. -/
def wordsOf (n j : ℕ) : Set UInt32 := {word | accepts n word = true ∧ index n word = j}

/-- The words that are accepted. -/
def accepted (n : ℕ) : Set UInt32 := {word | accepts n word = true}

theorem card_words : Nat.card UInt32 = wordCount := by
  rw [Nat.card_eq_fintype_card, ← FinEnum.card_eq_fintypeCard]
  rfl

/-- Words are counted by their numbers. -/
theorem ncard_setOf_toNat_mem {s : Set ℕ} (h : ∀ v ∈ s, v < wordCount) :
    {word : UInt32 | word.toNat ∈ s}.ncard = s.ncard := by
  have hinjective : Function.Injective UInt32.toNat := fun _ _ heq => UInt32.toNat_inj.mp heq
  have himage : UInt32.toNat '' {word | word.toNat ∈ s} = s := by
    ext v
    constructor
    · rintro ⟨word, hword, rfl⟩
      exact hword
    · intro hv
      have hread : (UInt32.ofNat v).toNat = v := UInt32.toNat_ofNat_of_lt' (h v hv)
      exact ⟨UInt32.ofNat v, by rwa [Set.mem_ofPred_eq, hread], hread⟩
  rw [← Set.ncard_image_of_injective _ hinjective, himage]

/-- In a window as wide as `k` steps there are `k` multiples: those from the first one on. -/
theorem mul_mem_window_iff {n : ℕ} (hn : 0 < n) (m k v : ℕ) :
    (m ≤ v * n ∧ v * n < m + n * k) ↔ m ⌈/⌉ n ≤ v ∧ v < m ⌈/⌉ n + k := by
  have hfirst (u : ℕ) : m ⌈/⌉ n ≤ u ↔ m ≤ u * n := by
    rw [ceilDiv_le_iff_le_mul hn, Nat.mul_comm]
  rw [hfirst]
  refine and_congr_right fun _ => ?_
  rcases Nat.lt_or_ge v k with hlt | hge
  · have hstep : v * n < n * k := by
      rw [Nat.mul_comm n]
      exact Nat.mul_lt_mul_of_pos_right hlt hn
    exact iff_of_true (by omega) (by omega)
  · -- `k` steps back the question is whether the multiple lies below the window
    obtain ⟨u, rfl⟩ := Nat.exists_eq_add_of_le' hge
    have hbefore := not_congr (hfirst u)
    rw [Nat.add_mul, Nat.mul_comm k]
    omega

theorem mem_wordsOf_iff {n j : ℕ} (hpos : 0 < n) (hn : n < wordCount) {word : UInt32} :
    word ∈ wordsOf n j ↔ word.toNat ∈
      Set.Ico (j * wordCount ⌈/⌉ n) (j * wordCount ⌈/⌉ n + 2 ^ leadingZeros n) := by
  rw [wordsOf, Set.mem_ofPred_eq, accepts_and_index_iff hpos hn, Nat.shiftLeft_eq,
    mul_mem_window_iff hpos, Set.mem_Ico]

/-- Every index below the count has the same number of words. -/
theorem ncard_wordsOf {n j : ℕ} (hj : j < n) (hn : n < wordCount) :
    (wordsOf n j).ncard = 2 ^ leadingZeros n := by
  have hpos : 0 < n := Nat.zero_lt_of_lt hj
  set first := j * wordCount ⌈/⌉ n with hfirst
  have hbelow : ∀ v ∈ Set.Ico first (first + 2 ^ leadingZeros n), v < wordCount := by
    intro v hv
    have hwindow := (mul_mem_window_iff hpos (j * wordCount) (2 ^ leadingZeros n) v).mpr hv
    have hproduct : v * n < wordCount * n :=
      calc v * n
        _ < j * wordCount + n * 2 ^ leadingZeros n := hwindow.2
        _ = j * wordCount + n <<< leadingZeros n := by rw [Nat.shiftLeft_eq]
        _ ≤ j * wordCount + wordCount := Nat.add_le_add_left (shiftLeft_leadingZeros_lt hn).le _
        _ = (j + 1) * wordCount := (Nat.succ_mul j wordCount).symm
        _ ≤ n * wordCount := Nat.mul_le_mul_right _ hj
        _ = wordCount * n := Nat.mul_comm _ _
    exact Nat.lt_of_mul_lt_mul_right hproduct
  have hwords : wordsOf n j =
      {word | word.toNat ∈ Set.Ico first (first + 2 ^ leadingZeros n)} :=
    Set.ext fun _ => mem_wordsOf_iff hpos hn
  rw [hwords, ncard_setOf_toNat_mem hbelow, ← Finset.coe_Ico, Set.ncard_coe_finset, Nat.card_Ico,
    Nat.add_sub_cancel_left]

theorem ncard_accepted_below {n m : ℕ} (hm : m ≤ n) (hn : n < wordCount) :
    (accepted n ∩ {word | index n word < m}).ncard = m * 2 ^ leadingZeros n := by
  induction m with
  | zero => simp
  | succ m ih =>
    have hsplit : accepted n ∩ {word | index n word < m + 1} =
        accepted n ∩ {word | index n word < m} ∪ wordsOf n m := by
      ext word
      simp only [accepted, wordsOf, Set.mem_inter_iff, Set.mem_union, Set.mem_ofPred_eq,
        Nat.lt_succ_iff_lt_or_eq, and_or_left]
    have hdisjoint : Disjoint (accepted n ∩ {word | index n word < m}) (wordsOf n m) := by
      rw [Set.disjoint_left]
      rintro word ⟨-, hlt⟩ ⟨-, heq⟩
      exact hlt.ne heq
    rw [hsplit, Set.ncard_union_eq hdisjoint, ih (by omega), ncard_wordsOf (by omega) hn,
      Nat.succ_mul]

theorem ncard_accepted {n : ℕ} (hpos : 0 < n) (hn : n < wordCount) :
    (accepted n).ncard = n * 2 ^ leadingZeros n := by
  rw [← ncard_accepted_below le_rfl hn]
  congr 1
  exact (Set.inter_eq_left.mpr fun word _ => index_lt hpos word).symm

theorem le_two_mul_ncard_accepted {n : ℕ} (hpos : 0 < n) (hn : n < wordCount) :
    wordCount ≤ 2 * (accepted n).ncard := by
  rw [ncard_accepted hpos hn, ← Nat.shiftLeft_eq]
  exact le_two_mul_shiftLeft_leadingZeros hpos hn

theorem ncard_compl_accepted {n : ℕ} (hpos : 0 < n) (hn : n < wordCount) :
    (accepted n)ᶜ.ncard = wordCount - n * 2 ^ leadingZeros n := by
  have hsum := Set.ncard_add_ncard_compl (accepted n)
  rw [card_words, ncard_accepted hpos hn] at hsum
  omega

/-! ### Runs of words -/

/-- The index that the first accepted word of a run gives, if there is one. -/
def decided (n : ℕ) (words : List UInt32) : Option ℕ := (words.find? (accepts n)).map (index n)

/-- The runs of a length that decide for an index. -/
def deciding (n j k : ℕ) : Set (List UInt32) :=
  {words | words.length = k ∧ decided n words = some j}

/-- The runs that start with a word of one set and go on with a run of another. -/
def startingIn (s : Set UInt32) (runs : Set (List UInt32)) : Set (List UInt32) :=
  (fun p : UInt32 × List UInt32 => p.1 :: p.2) '' s ×ˢ runs

theorem cons_mem_startingIn_iff {s : Set UInt32} {runs : Set (List UInt32)} {word : UInt32}
    {rest : List UInt32} : word :: rest ∈ startingIn s runs ↔ word ∈ s ∧ rest ∈ runs := by
  constructor
  · rintro ⟨⟨word', rest'⟩, ⟨hword, hrest⟩, heq⟩
    cases heq
    exact ⟨hword, hrest⟩
  · rintro ⟨hword, hrest⟩
    exact ⟨(word, rest), ⟨hword, hrest⟩, rfl⟩

theorem nil_notMem_startingIn {s : Set UInt32} {runs : Set (List UInt32)} :
    [] ∉ startingIn s runs := by
  rintro ⟨p, -, heq⟩
  cases heq

theorem ncard_startingIn (s : Set UInt32) (runs : Set (List UInt32)) :
    (startingIn s runs).ncard = s.ncard * runs.ncard := by
  have hinjective : Function.Injective fun p : UInt32 × List UInt32 => p.1 :: p.2 := by
    rintro ⟨word, rest⟩ ⟨word', rest'⟩ heq
    cases heq
    rfl
  rw [startingIn, Set.ncard_image_of_injective _ hinjective, Set.ncard_prod]

theorem ncard_runs (k : ℕ) : {words : List UInt32 | words.length = k}.ncard = wordCount ^ k := by
  induction k with
  | zero =>
    have hempty : {words : List UInt32 | words.length = 0} = {[]} :=
      Set.ext fun words => List.length_eq_zero_iff
    rw [hempty, Set.ncard_singleton, pow_zero]
  | succ k ih =>
    have hcons : {words : List UInt32 | words.length = k + 1} =
        startingIn Set.univ {words | words.length = k} := by
      ext words
      cases words with
      | nil => exact iff_of_false (fun h => nomatch h) nil_notMem_startingIn
      | cons word rest => simp [cons_mem_startingIn_iff]
    rw [hcons, ncard_startingIn, ih, Set.ncard_univ, card_words, pow_succ']

theorem finite_deciding (n j k : ℕ) : (deciding n j k).Finite :=
  (List.finite_length_eq UInt32 k).subset fun _ h => h.1

/-- A run decides by its first word, or by the rest if that word is refused. -/
theorem deciding_succ (n j k : ℕ) : deciding n j (k + 1) =
    startingIn (wordsOf n j) {words | words.length = k} ∪
      startingIn (accepted n)ᶜ (deciding n j k) := by
  ext words
  cases words with
  | nil =>
    refine iff_of_false (fun h => nomatch h.1) ?_
    rintro (h | h)
    · exact nil_notMem_startingIn h
    · exact nil_notMem_startingIn h
  | cons word rest =>
    rw [Set.mem_union, cons_mem_startingIn_iff, cons_mem_startingIn_iff]
    cases haccepts : accepts n word with
    | true => simp [deciding, decided, wordsOf, accepted, haccepts, and_comm]
    | false => simp [deciding, decided, wordsOf, accepted, haccepts]

theorem ncard_deciding_succ {n j : ℕ} (hj : j < n) (hn : n < wordCount) (k : ℕ) :
    (deciding n j (k + 1)).ncard = 2 ^ leadingZeros n * wordCount ^ k +
      (wordCount - n * 2 ^ leadingZeros n) * (deciding n j k).ncard := by
  have hdisjoint : Disjoint (startingIn (wordsOf n j) {words | words.length = k})
      (startingIn (accepted n)ᶜ (deciding n j k)) := by
    rw [Set.disjoint_left]
    intro words hfirst hrest
    cases words with
    | nil => exact nil_notMem_startingIn hfirst
    | cons word rest =>
      rw [cons_mem_startingIn_iff] at hfirst hrest
      exact hrest.1 hfirst.1.1
  have hfinite := finite_deciding n j (k + 1)
  rw [deciding_succ] at hfinite
  have hfinite := Set.finite_union.mp hfinite
  rw [deciding_succ, Set.ncard_union_eq hdisjoint hfinite.1 hfinite.2, ncard_startingIn,
    ncard_startingIn, ncard_wordsOf hj hn, ncard_runs,
    ncard_compl_accepted (Nat.zero_lt_of_lt hj) hn]

/-- Of the runs of one length, equally many decide for each index: all runs that hold an accepted
word are shared out evenly. -/
theorem mul_ncard_deciding {n j : ℕ} (hj : j < n) (hn : n < wordCount) (k : ℕ) :
    n * (deciding n j k).ncard + (wordCount - n * 2 ^ leadingZeros n) ^ k = wordCount ^ k := by
  have hfits : n * 2 ^ leadingZeros n ≤ wordCount := by
    rw [← Nat.shiftLeft_eq]
    exact (shiftLeft_leadingZeros_lt hn).le
  obtain ⟨refused, hrefused⟩ := Nat.exists_eq_add_of_le hfits
  induction k with
  | zero =>
    have hempty : deciding n j 0 = ∅ := by
      ext words
      refine iff_of_false ?_ (Set.notMem_empty words)
      rintro ⟨hlength, hdecided⟩
      rw [List.length_eq_zero_iff.mp hlength] at hdecided
      cases hdecided
    rw [hempty, Set.ncard_empty, Nat.mul_zero, Nat.zero_add, pow_zero, pow_zero]
  | succ k ih =>
    rw [ncard_deciding_succ hj hn]
    rw [Nat.sub_eq_of_eq_add' hrefused] at ih ⊢
    calc n * (2 ^ leadingZeros n * wordCount ^ k + refused * (deciding n j k).ncard) +
          refused ^ (k + 1)
      _ = n * 2 ^ leadingZeros n * wordCount ^ k +
          refused * (n * (deciding n j k).ncard + refused ^ k) := by ring
      _ = (n * 2 ^ leadingZeros n + refused) * wordCount ^ k := by rw [ih]; ring
      _ = wordCount ^ (k + 1) := by rw [← hrefused, pow_succ']

/-! ### Runs and draws -/

/-- A run with an accepted word is all that a draw needs. -/
theorem drawFrom_of_find?_eq_some {n : ℕ} {words : List UInt32} {word : UInt32}
    (h : words.find? (accepts n) = some word) (drawn : ℕ) :
    (drawFrom n words drawn).1 = index n word ∧
      (drawFrom n words drawn).2.drawn ≤ drawn + words.length := by
  induction words generalizing drawn with
  | nil => cases h
  | cons first rest ih =>
    rw [drawFrom, List.length_cons]
    rw [List.find?_cons] at h
    cases haccepts : accepts n first with
    | true =>
      rw [haccepts] at h
      cases h
      rw [if_pos rfl]
      exact ⟨rfl, Nat.add_le_add_left (Nat.succ_pos rest.length) drawn⟩
    | false =>
      rw [haccepts] at h
      obtain ⟨hindex, hdrawn⟩ := ih h (drawn + 1)
      rw [if_neg Bool.false_ne_true]
      exact ⟨hindex, by omega⟩

/-- A draw goes on behind a run without one. -/
theorem drawFrom_of_find?_eq_none {n : ℕ} {words : List UInt32}
    (h : words.find? (accepts n) = none) (drawn : ℕ) :
    (drawFrom n words drawn).2.drawn = drawn + words.length + 1 := by
  induction words generalizing drawn with
  | nil => rfl
  | cons first rest ih =>
    rw [List.find?_cons] at h
    cases haccepts : accepts n first with
    | true =>
      rw [haccepts] at h
      cases h
    | false =>
      rw [haccepts] at h
      have hrest := ih h (drawn + 1)
      rw [drawFrom, haccepts, if_neg Bool.false_ne_true, hrest, List.length_cons]
      omega

/-- A run decides for an index exactly if a draw answers the index and needs no further word. -/
theorem decided_eq_some_iff {n j : ℕ} {words : List UInt32} :
    decided n words = some j ↔
      ((ofList words).draw n).1 = j ∧ ((ofList words).draw n).2.drawn ≤ words.length := by
  rw [decided]
  cases hfind : words.find? (accepts n) with
  | some word =>
    obtain ⟨hindex, hdrawn⟩ := drawFrom_of_find?_eq_some hfind 0
    rw [Nat.zero_add] at hdrawn
    rw [Option.map_some, Option.some_inj, ← hindex]
    exact (and_iff_left hdrawn).symm
  | none =>
    have hdrawn := drawFrom_of_find?_eq_none hfind 0
    refine iff_of_false (fun h => nomatch h) ?_
    rintro ⟨-, hle⟩
    rw [ofList, draw, hdrawn] at hle
    omega

end CompressedLedger.WordSource
