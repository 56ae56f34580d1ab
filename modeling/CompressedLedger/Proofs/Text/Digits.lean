import CompressedLedger.Text.Digits
import Mathlib.Data.List.Forall2
import Mathlib.Data.List.TakeWhile
import Mathlib.Data.Nat.Digits.Lemmas
import Mathlib.Tactic.IntervalCases

/-!
# Numerals and their values

A numeral of a base is one or more digits of the base, and its value is the positional one
(`IsNumeral`); the reader accepts exactly the numerals and gives their values
(`parse?_eq_some_iff`).  The writer gives the digits of a number without leading zeros
(`ofNat_eq_digits`), so what it writes has the number as its value (`value_ofNat`).
-/

namespace CompressedLedger.Digits

/-! ### Characters -/

/-- The ASCII digits in ascending order; letters are in lower case. -/
def alphabet : List Char :=
  ['0', '1', '2', '3', '4', '5', '6', '7', '8', '9', 'a', 'b', 'c', 'd', 'e', 'f']

/-- The character is the ASCII digit of the value, a letter in either case. -/
def IsDigit (c : Char) (d : ℕ) : Prop := alphabet.idxOf? c.toLower = some d

theorem ofChar?_eq_of_lt : ∀ n < 128,
    ofChar? (Char.ofNat n) = alphabet.idxOf? (Char.ofNat n).toLower := by
  decide +kernel

theorem ofChar?_eq (c : Char) : ofChar? c = alphabet.idxOf? c.toLower := by
  by_cases hc : c.toNat < 128
  · have h := ofChar?_eq_of_lt c.toNat hc
    rwa [Char.ofNat_toNat] at h
  · -- beyond ASCII there are no digits and no letters of two cases
    have hle : ∀ x : Char, x.toNat < 128 → ¬c ≤ x := by
      intro x hx h
      have hnat : c.toNat ≤ x.toNat := UInt32.le_iff_toNat_le.mp h
      omega
    have hlower : c.toLower = c := dif_neg fun h => hle 'Z' (by decide) h.2
    have hnone : alphabet.idxOf? c = none := by
      rw [List.idxOf?_eq_none_iff]
      intro hmem
      have hall : ∀ x ∈ alphabet, x.toNat < 128 := by simp [alphabet]
      exact hc (hall c hmem)
    rw [hlower, hnone, ofChar?, if_neg fun h => hle '9' (by decide) h.2,
      if_neg fun h => hle 'f' (by decide) h.2, if_neg fun h => hle 'F' (by decide) h.2]

theorem isDigit_iff {c : Char} {d : ℕ} : IsDigit c d ↔ ofChar? c = some d := by
  rw [IsDigit, ofChar?_eq]

theorem isDigit_toChar : ∀ d < 16, IsDigit (toChar d) d := by
  unfold IsDigit
  decide

/-! ### Reading -/

/-- The characters are one or more digits of the base, the most significant first, and the number is
their positional value. -/
def IsNumeral (base : ℕ) (cs : List Char) (n : ℕ) : Prop :=
  cs ≠ [] ∧ ∃ ds, List.Forall₂ (fun c d => IsDigit c d ∧ d < base) cs ds ∧
    n = Nat.ofDigits base ds.reverse

theorem IsNumeral.exists_isDigit {base n : ℕ} {cs : List Char} (h : IsNumeral base cs n)
    {c : Char} (hc : c ∈ cs) : ∃ d, IsDigit c d := by
  obtain ⟨-, ds, hdigits, -⟩ := h
  have hall := hdigits.imp fun c d hd =>
    (⟨⟨d, hd.1⟩, hd⟩ : (∃ d, IsDigit c d) ∧ IsDigit c d ∧ d < base)
  exact ((List.forall₂_and_left _ _).mp hall).1 c hc

theorem value_eq_ofDigits (base : ℕ) (ds : List ℕ) :
    value base ds = Nat.ofDigits base ds.reverse := by
  have hfold : ∀ rs : List ℕ, rs.foldr (fun d n => base * n + d) 0 = Nat.ofDigits base rs := by
    intro rs
    induction rs with
    | nil => rfl
    | cons d rest ih =>
      rw [List.foldr_cons, ih, Nat.ofDigits_cons]
      omega
  rw [value, List.foldl_eq_foldr_reverse, hfold]

theorem ofCharIn?_eq_some_iff {base : ℕ} {c : Char} {d : ℕ} :
    ofCharIn? base c = some d ↔ IsDigit c d ∧ d < base := by
  rw [ofCharIn?, Option.filter_eq_some_iff, isDigit_iff, decide_eq_true_eq]

theorem mapM_eq_some_iff {α β : Type} {f : α → Option β} {xs : List α} {ys : List β} :
    xs.mapM f = some ys ↔ List.Forall₂ (fun x y => f x = some y) xs ys := by
  induction xs generalizing ys with
  | nil =>
    rw [List.mapM_nil, List.forall₂_nil_left_iff]
    exact ⟨fun h => (Option.some.inj h).symm, fun h => h ▸ rfl⟩
  | cons x rest ih =>
    rw [List.mapM_cons, List.forall₂_cons_left_iff]
    constructor
    · intro h
      simp only [Option.bind_eq_bind, Option.bind_eq_some_iff] at h
      obtain ⟨y, hy, others, hothers, hys⟩ := h
      exact ⟨y, others, hy, ih.mp hothers, (Option.some.inj hys).symm⟩
    · rintro ⟨y, others, hy, hothers, rfl⟩
      rw [hy, ih.mpr hothers]
      rfl

theorem exists_of_mem_mapM {α β : Type} {f : α → Option β} {xs : List α} {ys : List β}
    (h : xs.mapM f = some ys) {x : α} (hx : x ∈ xs) : ∃ y, f x = some y := by
  have hall := (mapM_eq_some_iff.mp h).imp fun a b hb =>
    (⟨⟨b, hb⟩, hb⟩ : (∃ y, f a = some y) ∧ f a = some b)
  exact ((List.forall₂_and_left _ _).mp hall).1 x hx

theorem parse?_eq_some_iff {base : ℕ} {cs : List Char} {n : ℕ} :
    parse? base cs = some n ↔ IsNumeral base cs n := by
  unfold parse?
  cases cs with
  | nil => simp [IsNumeral]
  | cons c rest =>
    simp only [List.isEmpty_cons, Bool.false_eq_true, if_false, Option.map_eq_some_iff,
      mapM_eq_some_iff, ofCharIn?_eq_some_iff, value_eq_ofDigits]
    constructor
    · rintro ⟨ds, hds, rfl⟩
      exact ⟨List.cons_ne_nil c rest, ds, hds, rfl⟩
    · rintro ⟨-, ds, hds, rfl⟩
      exact ⟨ds, hds, rfl⟩

/-! ### Writing -/

theorem go_eq_digits {base : ℕ} (h : 1 < base) (n : ℕ) (acc : List ℕ) :
    ofNat.go base h n acc = (Nat.digits base n).reverse ++ acc := by
  induction n using Nat.strong_induction_on generalizing acc with
  | _ n ih =>
    rw [ofNat.go]
    by_cases hn : n = 0
    · rw [if_pos hn, hn, Nat.digits_zero]
      rfl
    · have hpos : 0 < n := Nat.pos_of_ne_zero hn
      rw [if_neg hn, ih (n / base) (Nat.div_lt_self hpos h), Nat.digits_def' h hpos,
        List.reverse_cons, List.append_assoc]
      rfl

theorem ofNat_eq_digits {base : ℕ} (h : 1 < base) (n : ℕ) :
    ofNat base h n = (Nat.digits base n).reverse := by
  rw [ofNat, go_eq_digits, List.append_nil]

theorem value_ofNat {base : ℕ} (h : 1 < base) (n : ℕ) : value base (ofNat base h n) = n := by
  rw [value_eq_ofDigits, ofNat_eq_digits, List.reverse_reverse, Nat.ofDigits_digits]

theorem lt_of_mem_ofNat {base : ℕ} (h : 1 < base) {n d : ℕ} (hd : d ∈ ofNat base h n) :
    d < base := by
  rw [ofNat_eq_digits, List.mem_reverse] at hd
  exact Nat.digits_lt_base h hd

theorem head_ofNat_ne_zero {base : ℕ} (h : 1 < base) (n : ℕ) :
    ∀ d ∈ (ofNat base h n).head?, d ≠ 0 := by
  intro d hd
  rw [ofNat_eq_digits, List.head?_reverse] at hd
  obtain ⟨hne, rfl⟩ := List.mem_getLast?_eq_getLast hd
  exact Nat.getLast_digit_ne_zero base (Nat.digits_ne_nil_iff_ne_zero.mp hne)

theorem value_replicate_zero_append (base k : ℕ) (ds : List ℕ) :
    value base (List.replicate k 0 ++ ds) = value base ds := by
  rw [value_eq_ofDigits, value_eq_ofDigits, List.reverse_append, List.reverse_replicate,
    Nat.ofDigits_append_replicate_zero]

theorem ofNat_value {base : ℕ} (h : 1 < base) {ds : List ℕ} (hlt : ∀ d ∈ ds, d < base)
    (hhead : ∀ d ∈ ds.head?, d ≠ 0) : ofNat base h (value base ds) = ds := by
  have hlt' : ∀ d ∈ ds.reverse, d < base := fun d hd => hlt d (List.mem_reverse.mp hd)
  have hlast : ∀ hne : ds.reverse ≠ [], ds.reverse.getLast hne ≠ 0 := by
    intro hne
    rw [List.getLast_reverse]
    exact hhead _ (List.head?_eq_some_head _)
  rw [ofNat_eq_digits, value_eq_ofDigits, Nat.digits_ofDigits base h _ hlt' hlast,
    List.reverse_reverse]

/-! ### Leading zeros -/

section Leading

variable {α : Type} [BEq α] [LawfulBEq α]

/-- A list is its leading entries of one kind and the rest. -/
theorem replicate_append_dropWhile (zero : α) (xs : List α) :
    List.replicate (xs.takeWhile (· == zero)).length zero ++ xs.dropWhile (· == zero) = xs := by
  have hzeros : xs.takeWhile (· == zero) =
      List.replicate (xs.takeWhile (· == zero)).length zero := by
    rw [List.eq_replicate_iff]
    refine ⟨rfl, fun x hx => ?_⟩
    have hzero := List.mem_takeWhile_imp hx
    exact eq_of_beq hzero
  rw [← hzeros, List.takeWhile_append_dropWhile]

theorem ne_of_mem_head?_dropWhile {zero x : α} {xs : List α}
    (hx : x ∈ (xs.dropWhile (· == zero)).head?) : x ≠ zero := by
  have hnot := List.head?_dropWhile_not (· == zero) xs
  rw [Option.mem_def.mp hx] at hnot
  rintro rfl
  simp at hnot

/-- The leading entries of one kind are counted up to the first other one. -/
theorem length_takeWhile_replicate_append {zero : α} (k : ℕ) {rest : List α}
    (hrest : ∀ x ∈ rest.head?, x ≠ zero) :
    ((List.replicate k zero ++ rest).takeWhile (· == zero)).length = k := by
  have hall : ∀ x ∈ List.replicate k zero, (x == zero) = true := by
    intro x hx
    rw [List.eq_of_mem_replicate hx]
    exact beq_self_eq_true zero
  have hnone : rest.takeWhile (· == zero) = [] := by
    cases rest with
    | nil => rfl
    | cons x others =>
      have hx : x ≠ zero := hrest x rfl
      simp [hx]
  rw [List.takeWhile_append_of_pos hall, hnone, List.append_nil, List.length_replicate]

/-- Reading symbols as digits and writing the number again takes off the leading zeros. -/
theorem map_ofNat_value {base : ℕ} (h : 1 < base) {digit : α → ℕ} {symbol : ℕ → α} {zero : α}
    {xs : List α} (hlt : ∀ x ∈ xs, digit x < base) (hsymbol : ∀ x ∈ xs, symbol (digit x) = x)
    (hzero : symbol 0 = zero) (hdigit : digit zero = 0) :
    (ofNat base h (value base (xs.map digit))).map symbol = xs.dropWhile (· == zero) := by
  have hmem : ∀ x ∈ xs.dropWhile (· == zero), x ∈ xs :=
    fun x hx => (List.dropWhile_sublist _).subset hx
  have hvalue : value base (xs.map digit) =
      value base ((xs.dropWhile (· == zero)).map digit) := by
    conv_lhs => rw [← replicate_append_dropWhile zero xs]
    rw [List.map_append, List.map_replicate, hdigit, value_replicate_zero_append]
  have hlt' : ∀ d ∈ (xs.dropWhile (· == zero)).map digit, d < base := by
    intro d hd
    obtain ⟨x, hx, rfl⟩ := List.mem_map.mp hd
    exact hlt x (hmem x hx)
  have hhead : ∀ d ∈ ((xs.dropWhile (· == zero)).map digit).head?, d ≠ 0 := by
    intro d hd
    rw [List.head?_map] at hd
    obtain ⟨x, hx, rfl⟩ := Option.mem_map.mp hd
    -- the only symbol worth nothing is the zero, and those were dropped
    intro hnothing
    apply ne_of_mem_head?_dropWhile hx
    rw [← hsymbol x (hmem x (List.mem_of_mem_head? hx)), hnothing, hzero]
  rw [hvalue, ofNat_value h hlt' hhead, List.map_map]
  exact (List.map_congr_left fun x hx => hsymbol x (hmem x hx)).trans (List.map_id' _)

end Leading

/-! ### Written numerals are numerals -/

theorem isNumeral_map_toChar {base : ℕ} (hbase : base ≤ 16) {ds : List ℕ} (hne : ds ≠ [])
    (hlt : ∀ d ∈ ds, d < base) : IsNumeral base (ds.map toChar) (value base ds) := by
  refine ⟨fun hnil => hne (List.map_eq_nil_iff.mp hnil), ds, ?_, value_eq_ofDigits base ds⟩
  rw [List.forall₂_map_left_iff, List.forall₂_same]
  intro d hd
  exact ⟨isDigit_toChar d ((hlt d hd).trans_le hbase), hlt d hd⟩

theorem isNumeral_decimal (n : ℕ) : IsNumeral 10 (decimal n).toList n := by
  unfold decimal
  split
  · rename_i hzero
    rw [hzero]
    exact isNumeral_map_toChar (by decide) (List.cons_ne_nil 0 []) (by decide)
  · rename_i hpos
    have hne : ofNat 10 (by decide) n ≠ [] := by
      rw [ofNat_eq_digits]
      simpa [Nat.digits_ne_nil_iff_ne_zero] using hpos
    have hnumeral := isNumeral_map_toChar (by decide) hne fun d hd => lt_of_mem_ofNat _ hd
    rw [value_ofNat] at hnumeral
    rwa [String.toList_ofList]

end CompressedLedger.Digits
