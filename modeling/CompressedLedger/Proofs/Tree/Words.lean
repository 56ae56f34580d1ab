import CompressedLedger.Tree.Selection
import Mathlib.Data.List.GetD
import Mathlib.Tactic.NormNum

/-!
# Words drawn for a choice

A source gives its words and then zeros for ever (`wordAt`).  A draw consumes the words up to the
first accepted one and takes the index from that word (`draw_eq`).  There always is such a word,
since a zero is accepted (`exists_isFirstAccepted`), so a draw ends, at the latest with the first
zero behind the words of the source.

The index of a word is below the count (`index_lt`).  The words accepted with index `j` are those
whose product `v * n` lies in a window above `j * 2 ^ 32` (`accepts_and_index_iff`).  The window is
at least `n` wide and the products go up in steps of `n`, so every index below the count belongs to
some word (`exists_accepts_of_lt`).
-/

namespace CompressedLedger.WordSource

/-- The word that a source gives after a number of others. -/
def wordAt (s : WordSource) (k : ℕ) : UInt32 := s.words.getD k 0

/-- The source after a number of words were drawn. -/
def after (s : WordSource) (k : ℕ) : WordSource := ⟨s.words.drop k, s.drawn + k⟩

@[simp] theorem wordAt_cons_zero (word : UInt32) (rest : List UInt32) (drawn : ℕ) :
    wordAt ⟨word :: rest, drawn⟩ 0 = word := rfl

@[simp] theorem wordAt_cons_succ (word : UInt32) (rest : List UInt32) (drawn drawn' k : ℕ) :
    wordAt ⟨word :: rest, drawn⟩ (k + 1) = wordAt ⟨rest, drawn'⟩ k := rfl

/-- Behind the last word there are zeros. -/
theorem wordAt_of_length_le {s : WordSource} {k : ℕ} (h : s.words.length ≤ k) : s.wordAt k = 0 :=
  List.getD_eq_default _ _ h

/-- The first word that is accepted for a choice among `n` comes after `k` others. -/
structure IsFirstAccepted (s : WordSource) (n k : ℕ) : Prop where
  accepts_wordAt : accepts n (s.wordAt k) = true
  refused_before : ∀ j < k, accepts n (s.wordAt j) = false

theorem accepts_zero (n : ℕ) : accepts n 0 = true := by
  simp [accepts]

theorem IsFirstAccepted.unique {s : WordSource} {n k k' : ℕ} (h : s.IsFirstAccepted n k)
    (h' : s.IsFirstAccepted n k') : k = k' := by
  rcases Nat.lt_trichotomy k k' with hlt | heq | hlt
  · have hrefused := h'.refused_before k hlt
    rw [h.accepts_wordAt] at hrefused
    cases hrefused
  · exact heq
  · have hrefused := h.refused_before k' hlt
    rw [h'.accepts_wordAt] at hrefused
    cases hrefused

/-- An accepted word comes at the latest when the words of the source are used up. -/
theorem exists_isFirstAccepted (s : WordSource) (n : ℕ) :
    ∃ k ≤ s.words.length, s.IsFirstAccepted n k := by
  have hzero : accepts n (s.wordAt s.words.length) = true := by
    rw [wordAt_of_length_le le_rfl, accepts_zero]
  have hsome : ∃ k, accepts n (s.wordAt k) = true := ⟨_, hzero⟩
  refine ⟨Nat.find hsome, Nat.find_min' hsome hzero, Nat.find_spec hsome, fun j hj => ?_⟩
  exact Bool.eq_false_iff.mpr (Nat.find_min hsome hj)

/-- A draw consumes the words up to the first accepted one and answers the index of that word. -/
theorem drawFrom_eq {n k drawn : ℕ} {words : List UInt32}
    (h : IsFirstAccepted ⟨words, drawn⟩ n k) :
    drawFrom n words drawn =
      (index n (wordAt ⟨words, drawn⟩ k), ⟨words.drop (k + 1), drawn + (k + 1)⟩) := by
  -- each refused word shortens the way to the accepted one by one
  induction words generalizing drawn k with
  | nil =>
    have hfirst : IsFirstAccepted ⟨[], drawn⟩ n 0 :=
      ⟨accepts_zero n, fun j hj => absurd hj (Nat.not_lt_zero j)⟩
    obtain rfl := h.unique hfirst
    simp [drawFrom, wordAt, index]
  | cons word rest ih =>
    rw [drawFrom]
    cases k with
    | zero =>
      rw [if_pos (by simpa using h.accepts_wordAt)]
      rfl
    | succ k =>
      have hrefused : accepts n word = false := h.refused_before 0 (Nat.succ_pos k)
      have hrest : IsFirstAccepted ⟨rest, drawn + 1⟩ n k :=
        ⟨h.accepts_wordAt, fun j hj => h.refused_before (j + 1) (Nat.succ_lt_succ hj)⟩
      rw [hrefused, if_neg Bool.false_ne_true, ih hrest, wordAt_cons_succ _ _ _ (drawn + 1),
        List.drop_succ_cons, Nat.add_assoc, Nat.add_comm 1]

theorem draw_eq {s : WordSource} {n k : ℕ} (h : s.IsFirstAccepted n k) :
    s.draw n = (index n (s.wordAt k), s.after (k + 1)) :=
  drawFrom_eq h

/-! ### Indices -/

theorem index_lt {n : ℕ} (hn : 0 < n) (word : UInt32) : index n word < n := by
  have hword : word.toNat < wordCount := word.toNat_lt
  rw [index, Nat.div_lt_iff_lt_mul (by decide), Nat.mul_comm]
  exact Nat.mul_lt_mul_of_pos_left hword hn

/-- The shift moves the highest bit of `n` to the highest bit of a word. -/
theorem log2_add_leadingZeros {n : ℕ} (hpos : 0 < n) (hn : n < wordCount) :
    n.log2 + leadingZeros n = 31 := by
  have hlog : n.log2 < 32 := (Nat.log2_lt hpos.ne').mpr hn
  unfold leadingZeros
  omega

theorem shiftLeft_leadingZeros_lt {n : ℕ} (hn : n < wordCount) :
    n <<< leadingZeros n < wordCount := by
  rcases Nat.eq_zero_or_pos n with rfl | hpos
  · simp
  have hwidth : n.log2 + 1 + leadingZeros n = 32 := by
    have hlog := log2_add_leadingZeros hpos hn
    omega
  calc n <<< leadingZeros n
    _ = n * 2 ^ leadingZeros n := Nat.shiftLeft_eq _ _
    _ < 2 ^ (n.log2 + 1) * 2 ^ leadingZeros n :=
      Nat.mul_lt_mul_of_pos_right Nat.lt_log2_self (Nat.two_pow_pos _)
    _ = wordCount := by rw [← Nat.pow_add, hwidth]

/-- The bound takes in at least half of the low halves. -/
theorem le_two_mul_shiftLeft_leadingZeros {n : ℕ} (hpos : 0 < n) (hn : n < wordCount) :
    wordCount ≤ 2 * n <<< leadingZeros n := by
  have hlog := log2_add_leadingZeros hpos hn
  calc wordCount
    _ = 2 * (2 ^ n.log2 * 2 ^ leadingZeros n) := by rw [← Nat.pow_add, hlog]
    _ ≤ 2 * (n * 2 ^ leadingZeros n) :=
      Nat.mul_le_mul_left 2 (Nat.mul_le_mul_right _ (Nat.log2_self_le hpos.ne'))
    _ = 2 * n <<< leadingZeros n := by rw [Nat.shiftLeft_eq]

/-- The words that are accepted with an index are those whose product lies in a window above a
multiple of `2 ^ 32`. -/
theorem accepts_and_index_iff {n j : ℕ} (hpos : 0 < n) (hn : n < wordCount) (word : UInt32) :
    (accepts n word = true ∧ index n word = j) ↔
      j * wordCount ≤ word.toNat * n ∧
        word.toNat * n < j * wordCount + n <<< leadingZeros n := by
  have hwindow := shiftLeft_leadingZeros_lt hn
  have hnonempty : n ≤ n <<< leadingZeros n := Nat.le_shiftLeft
  have hdiv := Nat.div_add_mod' (word.toNat * n) wordCount
  have hmod : word.toNat * n % wordCount < wordCount := Nat.mod_lt _ (by decide)
  rw [accepts, decide_eq_true_eq, index, bound]
  constructor
  · rintro ⟨haccepted, rfl⟩
    exact ⟨Nat.div_mul_le_self _ _, by omega⟩
  · rintro ⟨hle, hlt⟩
    have hindex : word.toNat * n / wordCount = j := by
      rw [Nat.div_eq_iff (by decide)]
      omega
    rw [hindex] at hdiv
    exact ⟨by omega, hindex⟩

/-- The multiples of `n` leave no gap as wide as `n`: one of them is the first at or above `m`. -/
theorem exists_le_mul_lt_add {n : ℕ} (hn : 0 < n) (m : ℕ) :
    ∃ v, m ≤ v * n ∧ v * n < m + n := by
  have hdiv : (m + n - 1) / n * n + (m + n - 1) % n = m + n - 1 := Nat.div_add_mod' _ _
  have hmod : (m + n - 1) % n < n := Nat.mod_lt _ hn
  exact ⟨(m + n - 1) / n, by omega, by omega⟩

/-- Every index belongs to some accepted word. -/
theorem exists_accepts_of_lt {n j : ℕ} (hj : j < n) (hn : n < wordCount) :
    ∃ word : UInt32, accepts n word = true ∧ index n word = j := by
  have hpos : 0 < n := Nat.zero_lt_of_lt hj
  obtain ⟨v, hle, hlt⟩ := exists_le_mul_lt_add hpos (j * wordCount)
  have hword : v < wordCount := by
    have hbelow : v * n < wordCount * n :=
      calc v * n
        _ < j * wordCount + n := hlt
        _ ≤ j * wordCount + wordCount := Nat.add_le_add_left hn.le _
        _ = (j + 1) * wordCount := (Nat.succ_mul j wordCount).symm
        _ ≤ n * wordCount := Nat.mul_le_mul_right _ hj
        _ = wordCount * n := Nat.mul_comm _ _
    exact Nat.lt_of_mul_lt_mul_right hbelow
  refine ⟨UInt32.ofNat v, (accepts_and_index_iff hpos hn _).mpr ?_⟩
  rw [UInt32.toNat_ofNat_of_lt' hword]
  exact ⟨hle, hlt.trans_le (Nat.add_le_add_left Nat.le_shiftLeft _)⟩

end CompressedLedger.WordSource
