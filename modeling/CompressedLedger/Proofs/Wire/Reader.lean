import CompressedLedger.Proofs.Bytes.Positional
import CompressedLedger.Wire.Basic

/-!
# Readers that undo a writer

A reader undoes a writer if it gives a value and a rest from exactly those bytes that are the
writing of the value, followed by the rest (`Reads`).  Both directions of a format are in this one
equivalence: what was written is read back with anything behind it, and what was read was written
so.  Reading goes from the front, so a failure that is not the end of the input stays the same
however the input goes on; hence a cut-off value can only fail by ending too early.

The law of a record follows from those of its fields: `reads_pure` for the finished record,
`Reads.field` for one field before the others.
-/

namespace CompressedLedger.Wire

variable {α β : Type}

/-! ### The law of a reader -/

/-- From the front of its input the reader takes the writing of a value that fits, and nothing
else. -/
structure Reads (r : WireReader α) (write : α → List UInt8) (Fits : α → Prop) : Prop where
  run_eq_ok_iff : ∀ bs a rest, r.run bs = .ok (a, rest) ↔ Fits a ∧ bs = write a ++ rest
  run_append_of_error : ∀ bs e, r.run bs = .error e → e ≠ .endOfInput →
    ∀ more, r.run (bs ++ more) = .error e

theorem Reads.run_write_append {r : WireReader α} {write : α → List UInt8} {Fits : α → Prop}
    (h : Reads r write Fits) {a : α} (ha : Fits a) (rest : List UInt8) :
    r.run (write a ++ rest) = .ok (a, rest) :=
  (h.run_eq_ok_iff _ a rest).mpr ⟨ha, rfl⟩

/-- A value that could be read is read from every longer input as well. -/
theorem Reads.run_append_of_ok {r : WireReader α} {write : α → List UInt8} {Fits : α → Prop}
    (h : Reads r write Fits) {bs rest : List UInt8} {a : α} (hrun : r.run bs = .ok (a, rest))
    (more : List UInt8) : r.run (bs ++ more) = .ok (a, rest ++ more) := by
  obtain ⟨ha, rfl⟩ := (h.run_eq_ok_iff bs a rest).mp hrun
  rw [List.append_assoc]
  exact h.run_write_append ha (rest ++ more)

theorem Reads.congr {r : WireReader α} {write write' : α → List UInt8} {Fits Fits' : α → Prop}
    (h : Reads r write Fits) (hFits : ∀ a, Fits a ↔ Fits' a)
    (hwrite : ∀ a, Fits a → write a = write' a) : Reads r write' Fits' := by
  refine ⟨fun bs a rest => ?_, h.run_append_of_error⟩
  rw [h.run_eq_ok_iff, ← hFits]
  exact and_congr_right fun ha => by rw [hwrite a ha]

/-! ### One step after another -/

theorem run_bind_of_ok {r : WireReader α} {f : α → WireReader β} {bs rest : List UInt8} {a : α}
    (h : r.run bs = .ok (a, rest)) : (r >>= f).run bs = (f a).run rest := by
  rw [StateT.run_bind, h]
  rfl

theorem run_bind_of_error {r : WireReader α} {f : α → WireReader β} {bs : List UInt8}
    {e : WireError} (h : r.run bs = .error e) : (r >>= f).run bs = .error e := by
  rw [StateT.run_bind, h]
  rfl

theorem reads_pure (b : β) : Reads (pure b) (fun _ => []) (· = b) := by
  refine ⟨fun bs a rest => ?_, fun bs e herror => nomatch herror⟩
  constructor
  · intro hrun
    cases hrun
    exact ⟨rfl, rfl⟩
  · rintro ⟨rfl, rfl⟩
    rfl

theorem reads_throw (e : WireError) (write : β → List UInt8) :
    Reads (throw e) write fun _ => False := by
  refine ⟨fun bs a rest => ?_, fun bs e' herror _ more => herror⟩
  constructor
  · intro hrun
    cases hrun
  · intro h
    exact h.1.elim

/-- Two steps undo the two writings one after another. -/
theorem Reads.bind {r : WireReader α} {f : α → WireReader β} {write : α → List UInt8}
    {write' writeBoth : β → List UInt8} {Fits : α → Prop} {Fits' : α → β → Prop}
    (hr : Reads r write Fits) (hf : ∀ a, Reads (f a) write' (Fits' a))
    (hboth : ∀ a b, Fits a → Fits' a b → writeBoth b = write a ++ write' b) :
    Reads (r >>= f) writeBoth fun b => ∃ a, Fits a ∧ Fits' a b := by
  refine ⟨fun bs b rest => ⟨fun hrun => ?_, ?_⟩, fun bs e herror he more => ?_⟩
  · cases hfirst : r.run bs with
    | error e =>
      rw [run_bind_of_error hfirst] at hrun
      cases hrun
    | ok answer =>
      obtain ⟨a, middle⟩ := answer
      rw [run_bind_of_ok hfirst] at hrun
      obtain ⟨ha, rfl⟩ := (hr.run_eq_ok_iff bs a middle).mp hfirst
      obtain ⟨hb, rfl⟩ := ((hf a).run_eq_ok_iff middle b rest).mp hrun
      refine ⟨⟨a, ha, hb⟩, ?_⟩
      rw [hboth a b ha hb, List.append_assoc]
  · rintro ⟨⟨a, ha, hb⟩, rfl⟩
    rw [hboth a b ha hb, List.append_assoc, run_bind_of_ok (hr.run_write_append ha _)]
    exact (hf a).run_write_append hb rest
  · cases hfirst : r.run bs with
    | error e' =>
      rw [run_bind_of_error hfirst] at herror
      cases herror
      exact run_bind_of_error (hr.run_append_of_error bs e hfirst he more)
    | ok answer =>
      -- the first step reads the same value, so the second one meets the same bytes
      obtain ⟨a, middle⟩ := answer
      rw [run_bind_of_ok hfirst] at herror
      rw [run_bind_of_ok (hr.run_append_of_ok hfirst more)]
      exact (hf a).run_append_of_error middle e herror he more

/-- A field before the others: the first step reads it, and the record the others build has it. -/
theorem Reads.field {r : WireReader α} {f : α → WireReader β} {write : α → List UInt8}
    {write' : β → List UInt8} {Fits : α → Prop} {Fits' : α → β → Prop} (get : β → α)
    (hr : Reads r write Fits) (hf : ∀ a, Reads (f a) write' (Fits' a))
    (hget : ∀ a b, Fits' a b → get b = a) :
    Reads (r >>= f) (fun b => write (get b) ++ write' b)
      fun b => Fits (get b) ∧ Fits' (get b) b := by
  have hboth : ∀ a b, Fits a → Fits' a b → write (get b) ++ write' b = write a ++ write' b := by
    intro a b _ hb
    rw [hget a b hb]
  refine (hr.bind hf hboth).congr (fun b => ⟨?_, fun hb => ⟨get b, hb⟩⟩) fun _ _ => rfl
  rintro ⟨a, ha, hb⟩
  have ha' : get b = a := hget a b hb
  subst ha'
  exact ⟨ha, hb⟩

/-- A step that only turns its value into another one. -/
theorem Reads.map {r : WireReader α} {write : α → List UInt8} {Fits : α → Prop}
    (hr : Reads r write Fits) (g : α → β) {write' : β → List UInt8}
    (hwrite : ∀ a, Fits a → write' (g a) = write a) :
    Reads (r >>= fun a => pure (g a)) write' fun b => ∃ a, Fits a ∧ b = g a := by
  refine hr.bind (fun a => reads_pure (g a)) fun a b ha hb => ?_
  rw [hb, hwrite a ha, List.append_nil]

/-! ### The parts of a record -/

theorem reads_take (n : ℕ) : Reads (take n) FixedBytes.bytes fun _ => True := by
  refine ⟨fun bs a rest => ?_, fun bs e herror he => ?_⟩
  · rw [true_and]
    constructor
    · intro hrun
      unfold take at hrun
      simp only [StateT.run] at hrun
      split at hrun
      · rename_i a' ha'
        cases hrun
        rw [← FixedBytes.ofList?_eq_some_iff.mp ha', List.take_append_drop]
      · cases hrun
    · rintro rfl
      have htake : (a.bytes ++ rest).take n = a.bytes := List.take_left' a.length_bytes
      have hdrop : (a.bytes ++ rest).drop n = rest := List.drop_left' a.length_bytes
      unfold take
      simp only [StateT.run, htake, hdrop, FixedBytes.ofList?_bytes]
  · -- too few bytes are the only failure
    unfold take at herror
    simp only [StateT.run] at herror
    split at herror
    · cases herror
    · cases herror
      exact absurd rfl he

theorem reads_takeNat (width : ℕ) :
    Reads (takeNat width) (Bytes.toLittleEndian width) (· < 256 ^ width) := by
  have hbytes := (reads_take width).map (fun a => Bytes.ofLittleEndian a.bytes)
    fun a _ => a.toLittleEndian_ofLittleEndian
  refine hbytes.congr (fun n => ⟨?_, fun hn => ?_⟩) fun n _ => rfl
  · rintro ⟨a, -, rfl⟩
    exact a.ofLittleEndian_lt
  · refine ⟨⟨Bytes.toLittleEndian width n, Bytes.length_toLittleEndian width n⟩, trivial, ?_⟩
    rw [Bytes.ofLittleEndian_toLittleEndian, Nat.mod_eq_of_lt hn]

/-- A word whose type holds exactly the numbers of `width` bytes. -/
theorem reads_word (width : ℕ) {toNat : α → ℕ} {ofNat : ℕ → α}
    (hlt : ∀ w, toNat w < 256 ^ width) (hofNat : ∀ w, ofNat (toNat w) = w)
    (htoNat : ∀ n < 256 ^ width, toNat (ofNat n) = n) :
    Reads (do return ofNat (← takeNat width)) (fun w => Bytes.toLittleEndian width (toNat w))
      fun _ => True := by
  have hwrite : ∀ n < 256 ^ width,
      Bytes.toLittleEndian width (toNat (ofNat n)) = Bytes.toLittleEndian width n := by
    intro n hn
    rw [htoNat n hn]
  refine ((reads_takeNat width).map ofNat hwrite).congr (fun w => ?_) fun w _ => rfl
  exact iff_of_true ⟨toNat w, hlt w, (hofNat w).symm⟩ trivial

/-- The format of a type: what its instance reads is what it writes. -/
abbrev Lawful (α : Type) [Wire α] (Fits : α → Prop) : Prop :=
  Reads (read : WireReader α) encode Fits

theorem lawful_fixedBytes (n : ℕ) : Lawful (FixedBytes n) fun _ => True := reads_take n

theorem lawful_uint8 : Lawful UInt8 fun _ => True :=
  reads_word 1 UInt8.toNat_lt (fun _ => UInt8.ofNat_toNat) fun _ => UInt8.toNat_ofNat_of_lt'

theorem lawful_uint16 : Lawful UInt16 fun _ => True :=
  reads_word 2 UInt16.toNat_lt (fun _ => UInt16.ofNat_toNat) fun _ => UInt16.toNat_ofNat_of_lt'

theorem lawful_uint32 : Lawful UInt32 fun _ => True :=
  reads_word 4 UInt32.toNat_lt (fun _ => UInt32.ofNat_toNat) fun _ => UInt32.toNat_ofNat_of_lt'

theorem lawful_uint64 : Lawful UInt64 fun _ => True :=
  reads_word 8 UInt64.toNat_lt (fun _ => UInt64.ofNat_toNat) fun _ => UInt64.toNat_ofNat_of_lt'

/-- A byte 0 or 1 in front decides which of two readers goes on, and any other byte is refused. -/
theorem reads_tagged {no yes : WireReader α} {refusal : UInt8 → WireError} {isYes : α → Bool}
    {write : α → List UInt8} {Fits : α → Prop}
    (hno : Reads no write fun a => Fits a ∧ isYes a = false)
    (hyes : Reads yes write fun a => Fits a ∧ isYes a = true) :
    Reads (do
        let b : UInt8 ← read
        if b = 0 then no else if b = 1 then yes else throw (refusal b))
      (fun a => (if isYes a then 1 else 0) :: write a) Fits := by
  have hrest (b : UInt8) : Reads (if b = 0 then no else if b = 1 then yes else throw (refusal b))
      write fun a => Fits a ∧ b = if isYes a then 1 else 0 := by
    split
    · rename_i hb
      refine hno.congr (fun a => and_congr_right fun _ => ?_) fun _ _ => rfl
      cases isYes a <;> simp [hb]
    · rename_i hb
      split
      · rename_i hb'
        refine hyes.congr (fun a => and_congr_right fun _ => ?_) fun _ _ => rfl
        cases isYes a <;> simp [hb']
      · rename_i hb'
        refine (reads_throw (refusal b) write).congr (fun a => ?_) fun _ _ => rfl
        cases isYes a <;> simp [hb, hb']
  refine (lawful_uint8.bind hrest fun b a _ ha => ?_).congr (fun a => ?_) fun _ _ => rfl
  · rw [ha.2]
    cases isYes a <;> rfl
  · constructor
    · rintro ⟨b, -, ha, -⟩
      exact ha
    · intro ha
      exact ⟨_, trivial, ha, rfl⟩

theorem lawful_bool : Lawful Bool fun _ => True := by
  have hno : Reads (pure false) (fun _ : Bool => []) fun flag => True ∧ flag = false :=
    (reads_pure false).congr (fun _ => (true_and _).symm.to_iff) fun _ _ => rfl
  have hyes : Reads (pure true) (fun _ : Bool => []) fun flag => True ∧ flag = true :=
    (reads_pure true).congr (fun _ => (true_and _).symm.to_iff) fun _ _ => rfl
  exact reads_tagged hno hyes

theorem lawful_option [Wire α] {Fits : α → Prop} (h : Lawful α Fits) :
    Lawful (Option α) fun o => ∀ a ∈ o, Fits a := by
  have hno : Reads (pure none) (fun o : Option α => o.elim [] encode)
      fun o => (∀ a ∈ o, Fits a) ∧ o.isSome = false := by
    refine (reads_pure none).congr (fun o => ?_) fun o ho => ?_
    · cases o <;> simp
    · rw [ho]
      rfl
  have hyes : Reads (some <$> read) (fun o : Option α => o.elim [] encode)
      fun o => (∀ a ∈ o, Fits a) ∧ o.isSome = true := by
    rw [map_eq_pure_bind]
    refine (h.map some fun a _ => rfl).congr (fun o => ?_) fun _ _ => rfl
    cases o <;> simp
  refine (reads_tagged hno hyes).congr (fun _ => Iff.rfl) fun o _ => ?_
  cases o <;> rfl

theorem lawful_bytes : Lawful (List UInt8) fun bs => bs.length < 2 ^ 32 := by
  have hrest (n : UInt32) : Reads (do return (← take n.toNat).bytes) id
      fun bs => bs.length = n.toNat := by
    refine ((reads_take n.toNat).map FixedBytes.bytes fun a _ => rfl).congr (fun bs => ⟨?_, ?_⟩)
      fun _ _ => rfl
    · rintro ⟨a, -, rfl⟩
      exact a.length_bytes
    · intro hlength
      exact ⟨⟨bs, hlength⟩, trivial, rfl⟩
  have hcount : ∀ (n : UInt32) (bs : List UInt8), bs.length = n.toNat →
      UInt32.ofNat bs.length = n := by
    intro n bs hlength
    rw [hlength, UInt32.ofNat_toNat]
  refine (Reads.field (fun bs : List UInt8 => UInt32.ofNat bs.length) lawful_uint32 hrest
    hcount).congr (fun bs => ?_) fun _ _ => rfl
  -- a length survives as a word exactly if it fits in one
  rw [true_and]
  constructor
  · intro hlength
    rw [hlength]
    exact UInt32.toNat_lt _
  · intro hlt
    exact (UInt32.toNat_ofNat_of_lt' hlt).symm

end CompressedLedger.Wire
