import CompressedLedger.Packing.KeyTable
import Mathlib.Data.List.Forall2
import Mathlib.Data.List.Nodup
import Mathlib.Order.Lattice

/-!
# Interning keeps every position right

A packing lets its table grow at the end: the keys it adds are new, each is added once, and none
takes a position above 255 (`KeyTable.Grows`).  A position that names a key names it in every table
the first one grows into, so what a packing says about the positions it gives is said for all later
tables at once (`Packer.Ensures`).  The law of a packing follows from those of its steps:
`ensures_intern` for one key, `Ensures.bind` for two steps, `ensures_mapM` for a list of them.
-/

namespace CompressedLedger

namespace KeyTable

/-! ### Tables that grow -/

/-- The later table is the earlier one and new keys behind it, each of them once. -/
structure Grows (keys later : List Pubkey) : Prop where
  exists_added : ∃ added, later = keys ++ added ∧ added.Nodup ∧ ∀ key ∈ added, key ∉ keys
  length_le : later.length ≤ max keys.length 256

theorem Grows.refl (keys : List Pubkey) : Grows keys keys :=
  ⟨⟨[], by simp⟩, le_max_left _ _⟩

theorem Grows.trans {keys middle later : List Pubkey} (h : Grows keys middle)
    (h' : Grows middle later) : Grows keys later := by
  obtain ⟨⟨first, rfl, hfirst, hnew⟩, hlength⟩ := h
  obtain ⟨⟨second, rfl, hsecond, hnew'⟩, hlength'⟩ := h'
  refine ⟨⟨first ++ second, List.append_assoc .., ?_, ?_⟩, by omega⟩
  · rw [List.nodup_append]
    refine ⟨hfirst, hsecond, fun a ha b hb hab => ?_⟩
    subst hab
    exact hnew' a hb (List.mem_append_right _ ha)
  · intro key hkey
    rcases List.mem_append.mp hkey with hmem | hmem
    · exact hnew key hmem
    · intro hold
      exact hnew' key hmem (List.mem_append_left _ hold)

theorem Grows.isPrefix {keys later : List Pubkey} (h : Grows keys later) : keys <+: later := by
  obtain ⟨added, rfl, -, -⟩ := h.exists_added
  exact List.prefix_append _ _

theorem Grows.nodup {keys later : List Pubkey} (h : Grows keys later) (hkeys : keys.Nodup) :
    later.Nodup := by
  obtain ⟨added, rfl, hadded, hnew⟩ := h.exists_added
  rw [List.nodup_append]
  refine ⟨hkeys, hadded, fun a ha b hb hab => ?_⟩
  subst hab
  exact hnew a hb ha

/-- The position holds the key. -/
def Names (keys : List Pubkey) (i : UInt8) (key : Pubkey) : Prop := keys[i.toNat]? = some key

theorem Names.grows {keys later : List Pubkey} {i : UInt8} {key : Pubkey} (h : Names keys i key)
    (hgrows : Grows keys later) : Names later i key := by
  obtain ⟨hlt, rfl⟩ := List.getElem?_eq_some_iff.mp h
  exact List.prefix_iff_getElem?.mp hgrows.isPrefix _ hlt

/-! ### One key -/

/-- A key in the table has its first position, and a new key gets the next one, if that is a byte.
Where it is not, the call fails; only a new key with a position changes the table. -/
theorem insert_cases (keys : List Pubkey) (key : Pubkey) :
    (∃ i ≤ 255, keys.idxOf? key = some i ∧ insert keys key = (.ok (UInt8.ofNat i), keys)) ∨
    (∃ i > 255, keys.idxOf? key = some i ∧ insert keys key = (.error .tooManyKeys, keys)) ∨
    (key ∉ keys ∧ keys.length ≤ 255 ∧
      insert keys key = (.ok (UInt8.ofNat keys.length), keys ++ [key])) ∨
    (key ∉ keys ∧ keys.length > 255 ∧ insert keys key = (.error .tooManyKeys, keys)) := by
  unfold insert
  cases hfirst : keys.idxOf? key with
  | some i =>
    by_cases hi : i ≤ 255
    · refine Or.inl ⟨i, hi, rfl, ?_⟩
      simp only [indexByte, if_pos hi]
    · refine Or.inr (Or.inl ⟨i, Nat.lt_of_not_le hi, rfl, ?_⟩)
      simp only [indexByte, if_neg hi]
  | none =>
    have hnew : key ∉ keys := List.idxOf?_eq_none_iff.mp hfirst
    by_cases hlength : keys.length ≤ 255
    · refine Or.inr (Or.inr (Or.inl ⟨hnew, hlength, ?_⟩))
      simp only [indexByte, if_pos hlength]
    · refine Or.inr (Or.inr (Or.inr ⟨hnew, Nat.lt_of_not_le hlength, ?_⟩))
      simp only [indexByte, if_neg hlength]

theorem insert_of_error {keys : List Pubkey} {key : Pubkey} {e : Error}
    (h : (insert keys key).1 = .error e) : (insert keys key).2 = keys := by
  rcases insert_cases keys key with ⟨i, -, -, hcall⟩ | ⟨i, -, -, hcall⟩ | ⟨-, -, hcall⟩ |
    ⟨-, -, hcall⟩
  · rw [hcall]
  · rw [hcall]
  · rw [hcall] at h
    cases h
  · rw [hcall]

theorem grows_insert (keys : List Pubkey) (key : Pubkey) : Grows keys (insert keys key).2 := by
  rcases insert_cases keys key with ⟨i, -, -, hcall⟩ | ⟨i, -, -, hcall⟩ | ⟨hnew, hlength, hcall⟩ |
    ⟨-, -, hcall⟩
  · rw [hcall]
    exact Grows.refl keys
  · rw [hcall]
    exact Grows.refl keys
  · rw [hcall]
    refine ⟨⟨[key], rfl, List.nodup_singleton key, fun k hk => ?_⟩, ?_⟩
    · rw [List.mem_singleton.mp hk]
      exact hnew
    · rw [List.length_append, List.length_singleton]
      omega
  · rw [hcall]
    exact Grows.refl keys

theorem toNat_ofNat_of_le {i : ℕ} (h : i ≤ 255) : (UInt8.ofNat i).toNat = i :=
  UInt8.toNat_ofNat_of_lt' (Nat.lt_succ_of_le h)

theorem names_insert {keys : List Pubkey} {key : Pubkey} {i : UInt8}
    (h : (insert keys key).1 = .ok i) : Names (insert keys key).2 i key := by
  rcases insert_cases keys key with ⟨j, hj, hfirst, hcall⟩ | ⟨j, -, -, hcall⟩ |
    ⟨hnew, hlength, hcall⟩ | ⟨-, -, hcall⟩
  · -- an old key has the position of its first occurrence
    rw [hcall] at h ⊢
    cases h
    obtain ⟨hlt, hkey, -⟩ := List.idxOf?_eq_some_iff.mp hfirst
    rw [Names, toNat_ofNat_of_le hj, List.getElem?_eq_getElem hlt, hkey]
  · rw [hcall] at h
    cases h
  · -- a new key stands right behind the others
    rw [hcall] at h ⊢
    cases h
    rw [Names, toNat_ofNat_of_le hlength, List.getElem?_concat_length]
  · rw [hcall] at h
    cases h

end KeyTable

/-! ### Packings -/

namespace Packer

open KeyTable

variable {α β : Type}

/-- From every table the packing lets its table grow, and what it gives stands in the relation to
the table it leaves and to every later one. -/
def Ensures (p : Packer α) (Q : α → List Pubkey → Prop) : Prop :=
  ∀ keys : List Pubkey, Grows keys (p.run keys).2 ∧
    ∀ a, (p.run keys).1 = .ok a → ∀ later, Grows (p.run keys).2 later → Q a later

theorem ensures_intern (key : Pubkey) : Ensures (intern key) fun i later => Names later i key := by
  intro keys
  refine ⟨grows_insert keys key, fun i hi later hlater => ?_⟩
  exact (names_insert hi).grows hlater

theorem ensures_pure (a : α) : Ensures (pure a) fun b _ => b = a := by
  intro keys
  refine ⟨Grows.refl keys, fun b hb later _ => ?_⟩
  cases hb
  rfl

theorem Ensures.mono {p : Packer α} {Q R : α → List Pubkey → Prop} (h : Ensures p Q)
    (hQR : ∀ a later, Q a later → R a later) : Ensures p R := by
  intro keys
  obtain ⟨hgrows, hQ⟩ := h keys
  exact ⟨hgrows, fun a ha later hlater => hQR a later (hQ a ha later hlater)⟩

theorem run_bind_of_ok {p : Packer α} {f : α → Packer β} {keys middle : List Pubkey} {a : α}
    (h : p.run keys = (.ok a, middle)) : (p >>= f).run keys = (f a).run middle := by
  have hrun : (p >>= f).run keys =
      ExceptT.bindCont f (p.run keys).1 (p.run keys).2 := rfl
  rw [hrun, h]
  rfl

theorem run_bind_of_error {p : Packer α} {f : α → Packer β} {keys middle : List Pubkey}
    {e : Error} (h : p.run keys = (.error e, middle)) :
    (p >>= f).run keys = (.error e, middle) := by
  have hrun : (p >>= f).run keys =
      ExceptT.bindCont f (p.run keys).1 (p.run keys).2 := rfl
  rw [hrun, h]
  rfl

theorem ensures_throw_bind (e : Error) (f : α → Packer β) (Q : β → List Pubkey → Prop) :
    Ensures (throw e >>= f) Q := by
  intro keys
  -- what would come after the failure never runs
  rw [run_bind_of_error (show (throw e : Packer α).run keys = (.error e, keys) from rfl)]
  exact ⟨Grows.refl keys, fun b hb => nomatch hb⟩

theorem Ensures.bind {p : Packer α} {f : α → Packer β} {Q : α → List Pubkey → Prop}
    {R : α → β → List Pubkey → Prop} (hp : Ensures p Q) (hf : ∀ a, Ensures (f a) (R a)) :
    Ensures (p >>= f) fun b later => ∃ a, Q a later ∧ R a b later := by
  intro keys
  obtain ⟨hgrows, hQ⟩ := hp keys
  cases hfirst : p.run keys with
  | mk answer middle =>
    rw [hfirst] at hgrows hQ
    cases answer with
    | error e =>
      rw [run_bind_of_error hfirst]
      exact ⟨hgrows, fun b hb => nomatch hb⟩
    | ok a =>
      obtain ⟨hgrows', hR⟩ := hf a middle
      rw [run_bind_of_ok hfirst]
      -- the first answer was right in every later table, so it is in those the second step leaves
      refine ⟨hgrows.trans hgrows', fun b hb later hlater => ⟨a, ?_, hR b hb later hlater⟩⟩
      exact hQ a rfl later (hgrows'.trans hlater)

theorem ensures_mapM {f : α → Packer β} {Q : α → β → List Pubkey → Prop}
    (hf : ∀ a, Ensures (f a) (Q a)) (xs : List α) :
    Ensures (xs.mapM f) fun ys later => List.Forall₂ (fun a b => Q a b later) xs ys := by
  induction xs with
  | nil =>
    refine (ensures_pure []).mono fun ys later hys => ?_
    rw [hys]
    exact List.Forall₂.nil
  | cons a rest ih =>
    rw [List.mapM_cons]
    refine ((hf a).bind fun b => ih.bind fun bs => ensures_pure (b :: bs)).mono ?_
    rintro ys later ⟨b, hb, bs, hbs, rfl⟩
    exact List.Forall₂.cons hb hbs

end Packer

end CompressedLedger
