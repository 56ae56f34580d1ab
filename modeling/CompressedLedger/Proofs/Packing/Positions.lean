import CompressedLedger.Proofs.Checks
import CompressedLedger.Proofs.Packing.Interning

/-!
# First positions

The keys that a packing interns, in order, fix everything it does.  The table it leaves is the one
it started from, extended by the keys that are new, each at its first occurrence
(`KeyTable.extend`).  Every key gets its first position in that table, and the packing fails
exactly if one of these positions is no byte (`KeyTable.Fits`).

`Packer.Interns` says this of a packing, with its answer as a function of the positions.  First
positions stay what they are in every longer table, so the law of a packing follows from those of
its steps: `interns_intern` for one key, `Interns.bind` for two steps, `interns_mapM` for a list of
them.
-/

namespace CompressedLedger

namespace KeyTable

/-! ### Tables extended by keys -/

/-- The table with the keys that are new to it behind it, in the order of first occurrence. -/
def extend (keys wanted : List Pubkey) : List Pubkey :=
  keys ++ (wanted.removeAll keys).eraseDups

theorem mem_removeAll {key : Pubkey} {wanted keys : List Pubkey} :
    key ∈ wanted.removeAll keys ↔ key ∈ wanted ∧ key ∉ keys := by
  rw [List.removeAll, List.mem_filter, Bool.not_eq_true', List.elem_eq_contains,
    List.contains_eq_mem, decide_eq_false_iff_not]

theorem mem_extend {key : Pubkey} {keys wanted : List Pubkey} :
    key ∈ extend keys wanted ↔ key ∈ keys ∨ key ∈ wanted := by
  rw [extend, List.mem_append, List.mem_eraseDups, mem_removeAll]
  by_cases h : key ∈ keys <;> simp [h]

@[simp] theorem extend_nil (keys : List Pubkey) : extend keys [] = keys := by
  rw [extend, List.nil_removeAll, List.eraseDups_nil, List.append_nil]

theorem extend_of_subset {keys wanted : List Pubkey} (h : ∀ key ∈ wanted, key ∈ keys) :
    extend keys wanted = keys := by
  have hnone : wanted.removeAll keys = [] := by
    apply List.eq_nil_iff_forall_not_mem.mpr
    intro key hkey
    obtain ⟨hwanted, hnew⟩ := mem_removeAll.mp hkey
    exact hnew (h key hwanted)
  rw [extend, hnone, List.eraseDups_nil, List.append_nil]

theorem extend_singleton_of_notMem {keys : List Pubkey} {key : Pubkey} (h : key ∉ keys) :
    extend keys [key] = keys ++ [key] := by
  have hnew : [key].removeAll keys = [key] := by
    rw [List.removeAll, List.filter_singleton]
    simp [h]
  rw [extend, hnew]
  rfl

theorem isPrefix_extend (keys wanted : List Pubkey) : keys <+: extend keys wanted :=
  List.prefix_append _ _

/-- A table may be extended in two steps. -/
theorem extend_append (keys first second : List Pubkey) :
    extend keys (first ++ second) = extend (extend keys first) second := by
  -- what is new among the later keys is what neither the table nor the earlier keys have
  have hnew : (second.removeAll keys).removeAll (first.removeAll keys) =
      second.removeAll (extend keys first) := by
    unfold List.removeAll
    rw [List.filter_filter]
    refine List.filter_congr fun key _ => ?_
    have hmem := @mem_extend key keys first
    by_cases hkeys : key ∈ keys <;> by_cases hfirst : key ∈ first <;> simp [hkeys, hfirst, hmem]
  have hsplit : (first ++ second).removeAll keys = first.removeAll keys ++ second.removeAll keys :=
    List.filter_append _ _
  rw [extend, hsplit, List.eraseDups_append, hnew, ← List.append_assoc]
  rfl

/-- Keys that come again add nothing. -/
theorem extend_append_of_subset {keys first second : List Pubkey} (h : second ⊆ first) :
    extend keys (first ++ second) = extend keys first := by
  rw [extend_append]
  exact extend_of_subset fun key hkey => mem_extend.mpr (Or.inr (h hkey))

theorem extend_replicate {n : ℕ} (hn : n ≠ 0) (keys : List Pubkey) (key : Pubkey) :
    extend keys (List.replicate n key) = extend keys [key] := by
  obtain ⟨m, rfl⟩ := Nat.exists_eq_succ_of_ne_zero hn
  exact extend_append_of_subset (List.replicate_subset_singleton m key)

/-! ### Positions -/

/-- The first position of a key, as a byte. -/
def position (keys : List Pubkey) (key : Pubkey) : UInt8 := UInt8.ofNat (keys.idxOf key)

/-- The first positions of all these keys are bytes. -/
def Fits (keys wanted : List Pubkey) : Prop := ∀ key ∈ wanted, keys.idxOf key ≤ 255

theorem fits_append_iff {keys first second : List Pubkey} :
    Fits keys (first ++ second) ↔ Fits keys first ∧ Fits keys second :=
  List.forall_mem_append

theorem not_fits_iff {keys wanted : List Pubkey} :
    ¬ Fits keys wanted ↔ ∃ key ∈ wanted, 255 < keys.idxOf key := by
  simp only [Fits, not_forall, not_le, exists_prop]

theorem Fits.mono {keys wanted more : List Pubkey} (h : Fits keys wanted) (hmore : more ⊆ wanted) :
    Fits keys more :=
  fun key hkey => h key (hmore hkey)

theorem toNat_position {keys : List Pubkey} {key : Pubkey} (h : keys.idxOf key ≤ 255) :
    (position keys key).toNat = keys.idxOf key :=
  toNat_ofNat_of_le h

/-- The byte leads back to the key in the table that was extended by it. -/
theorem Fits.names {keys wanted : List Pubkey} (h : Fits (extend keys wanted) wanted) {key : Pubkey}
    (hkey : key ∈ wanted) : Names (extend keys wanted) (position (extend keys wanted) key) key := by
  rw [Names, toNat_position (h key hkey)]
  exact List.getElem?_idxOf (mem_extend.mpr (Or.inr hkey))

/-- Interning one key extends the table by it and gives its first position, if that is a byte. -/
theorem insert_eq (keys : List Pubkey) (key : Pubkey) :
    (extend keys [key]).idxOf key ≤ 255 ∧
      insert keys key = (.ok (position (extend keys [key]) key), extend keys [key]) ∨
    255 < (extend keys [key]).idxOf key ∧ insert keys key = (.error .tooManyKeys, keys) := by
  have hold : ∀ {i}, keys.idxOf? key = some i → extend keys [key] = keys ∧ keys.idxOf key = i := by
    intro i hfirst
    have hmem : key ∈ keys := by
      obtain ⟨hlt, rfl, -⟩ := List.idxOf?_eq_some_iff.mp hfirst
      exact List.getElem_mem hlt
    refine ⟨extend_of_subset fun k hk => ?_, ?_⟩
    · rwa [List.mem_singleton.mp hk]
    · rw [List.idxOf_eq_getD_idxOf?, hfirst, Option.getD_some]
  have hnext : key ∉ keys → (keys ++ [key]).idxOf key = keys.length := by
    intro hnew
    rw [List.idxOf_append_of_notMem hnew, List.idxOf_cons_self, Nat.add_zero]
  rcases insert_cases keys key with ⟨i, hi, hfirst, hcall⟩ | ⟨i, hi, hfirst, hcall⟩ |
    ⟨hnew, hlength, hcall⟩ | ⟨hnew, hlength, hcall⟩
  · obtain ⟨hsame, hindex⟩ := hold hfirst
    rw [hsame, position, hindex]
    exact Or.inl ⟨hi, hcall⟩
  · obtain ⟨hsame, hindex⟩ := hold hfirst
    rw [hsame, hindex]
    exact Or.inr ⟨hi, hcall⟩
  · rw [extend_singleton_of_notMem hnew, position, hnext hnew]
    exact Or.inl ⟨hlength, hcall⟩
  · rw [extend_singleton_of_notMem hnew, hnext hnew]
    exact Or.inr ⟨hlength, hcall⟩

end KeyTable

/-! ### Packings -/

namespace Packer

open KeyTable

variable {α β : Type}

/-- The packing interns these keys in order, and its answer is made of their first positions.  They
are read off any later table, as they are the same in all of them. -/
structure Interns (p : Packer α) (wanted : List Pubkey) (answer : (Pubkey → UInt8) → α) :
    Prop where
  run_of_fits : ∀ {keys later : List Pubkey}, extend keys wanted <+: later → Fits later wanted →
    p.run keys = (.ok (answer (position later)), extend keys wanted)
  run_of_not_fits : ∀ {keys later : List Pubkey}, extend keys wanted <+: later →
    ¬ Fits later wanted → ∃ left, p.run keys = (.error .tooManyKeys, left)

theorem interns_pure (a : α) : Interns (pure a) [] fun _ => a where
  run_of_fits := by
    intro keys later _ _
    rw [extend_nil]
    rfl
  run_of_not_fits := by
    intro keys later _ hnot
    exact absurd (List.forall_mem_nil _) hnot

theorem interns_intern (key : Pubkey) : Interns (intern key) [key] fun index => index key := by
  have hindex : ∀ {keys later : List Pubkey}, extend keys [key] <+: later →
      (extend keys [key]).idxOf key = later.idxOf key := fun hlater =>
    hlater.idxOf_eq_of_mem (mem_extend.mpr (Or.inr (List.mem_singleton_self key)))
  constructor
  · intro keys later hlater hfits
    have hle : later.idxOf key ≤ 255 := hfits key (List.mem_singleton_self key)
    rcases insert_eq keys key with ⟨-, hcall⟩ | ⟨hgt, -⟩
    · rw [position, ← hindex hlater]
      exact hcall
    · rw [hindex hlater] at hgt
      omega
  · intro keys later hlater hnot
    obtain ⟨k, hk, hlt⟩ := not_fits_iff.mp hnot
    rw [List.mem_singleton.mp hk] at hlt
    rcases insert_eq keys key with ⟨hle, -⟩ | ⟨-, hcall⟩
    · rw [hindex hlater] at hle
      omega
    · exact ⟨keys, hcall⟩

theorem Interns.bind {p : Packer α} {f : α → Packer β} {first second : List Pubkey}
    {answer : (Pubkey → UInt8) → α} {answer' : α → (Pubkey → UInt8) → β}
    (hp : Interns p first answer) (hf : ∀ a, Interns (f a) second (answer' a)) :
    Interns (p >>= f) (first ++ second) fun index => answer' (answer index) index := by
  constructor
  · intro keys later hlater hfits
    obtain ⟨hfits₁, hfits₂⟩ := fits_append_iff.mp hfits
    rw [extend_append] at hlater ⊢
    have hbegin : extend keys first <+: later := (isPrefix_extend _ second).trans hlater
    rw [run_bind_of_ok (hp.run_of_fits hbegin hfits₁)]
    exact (hf _).run_of_fits hlater hfits₂
  · intro keys later hlater hnot
    rw [extend_append] at hlater
    have hbegin : extend keys first <+: later := (isPrefix_extend _ second).trans hlater
    by_cases hfits₁ : Fits later first
    · -- the first step succeeds, and a key of the second one is too far back
      have hnot₂ : ¬ Fits later second := fun h => hnot (fits_append_iff.mpr ⟨hfits₁, h⟩)
      rw [run_bind_of_ok (hp.run_of_fits hbegin hfits₁)]
      exact (hf _).run_of_not_fits hlater hnot₂
    · obtain ⟨left, hleft⟩ := hp.run_of_not_fits hbegin hfits₁
      exact ⟨left, run_bind_of_error hleft⟩

theorem interns_mapM {f : α → Packer β} {wanted : α → List Pubkey}
    {answer : α → (Pubkey → UInt8) → β} (hf : ∀ a, Interns (f a) (wanted a) (answer a))
    (xs : List α) :
    Interns (xs.mapM f) (xs.flatMap wanted) fun index => xs.map fun a => answer a index := by
  induction xs with
  | nil => exact interns_pure []
  | cons a rest ih =>
    have hboth := (hf a).bind fun b => ih.bind fun bs => interns_pure (b :: bs)
    rw [List.append_nil] at hboth
    rw [List.mapM_cons]
    exact hboth

/-! ### Outcomes -/

variable {p : Packer α} {wanted : List Pubkey} {answer : (Pubkey → UInt8) → α}

theorem Interns.pack_of_fits (h : Interns p wanted answer) {keys : List Pubkey}
    (hfits : Fits (extend keys wanted) wanted) :
    pack p keys = .ok (answer (position (extend keys wanted)), extend keys wanted) := by
  rw [pack, h.run_of_fits (List.prefix_refl _) hfits]

theorem Interns.pack_of_not_fits (h : Interns p wanted answer) {keys : List Pubkey}
    (hnot : ¬ Fits (extend keys wanted) wanted) : pack p keys = .error .tooManyKeys := by
  obtain ⟨left, hleft⟩ := h.run_of_not_fits (List.prefix_refl _) hnot
  rw [pack, hleft]

/-- A position that is no byte is the only cause of a failure. -/
theorem Interns.pack_eq_error_iff (h : Interns p wanted answer) {keys : List Pubkey} {e : Error} :
    pack p keys = .error e ↔ e = .tooManyKeys ∧ ¬ Fits (extend keys wanted) wanted := by
  constructor
  · intro hfailed
    by_cases hfits : Fits (extend keys wanted) wanted
    · rw [h.pack_of_fits hfits] at hfailed
      cases hfailed
    · rw [h.pack_of_not_fits hfits] at hfailed
      exact ⟨(Except.error.inj hfailed).symm, hfits⟩
  · rintro ⟨rfl, hnot⟩
    exact h.pack_of_not_fits hnot

/-- A packing makes one check, whether all positions in the table it leaves are bytes. -/
theorem Interns.judged_pack (h : Interns p wanted answer) (keys : List Pubkey) :
    Judged (pack p keys) [⟨Fits (extend keys wanted) wanted, .tooManyKeys⟩] fun out =>
      Fits (extend keys wanted) wanted ∧
        out = (answer (position (extend keys wanted)), extend keys wanted) := by
  by_cases hfits : Fits (extend keys wanted) wanted
  · rw [h.pack_of_fits hfits]
    exact Judged.of_ok (List.forall_mem_singleton.mpr hfits) fun out => and_iff_right hfits
  · rw [h.pack_of_not_fits hfits]
    exact Judged.of_error (FirstFailure.here hfits) fun out hout => hfits hout.1

end Packer

end CompressedLedger
