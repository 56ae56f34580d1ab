import CompressedLedger.Error
import CompressedLedger.Proofs.Outcome
import Mathlib.Data.List.Forall2

/-!
# Checks in order

A conversion of outside data makes its checks one after another, and each of them has a cause it
reports.  `Judged` says which values such a conversion gives and that it fails exactly with the
cause of the first check that does not hold, however many of them do not; so it succeeds exactly if
all of them hold (`Judged.exists_ok_iff`).

The checks of a conversion are those of its steps in their order: `Judged.bind` for two steps,
`judged_mapM` for one step on every entry of a list.
-/

namespace CompressedLedger

/-- A condition and the failure that reports its absence. -/
structure Check where
  Holds : Prop
  cause : Error

/-- The cause is that of the first check that does not hold. -/
inductive FirstFailure : List Check → Error → Prop
  | here {c : Check} {rest : List Check} (hc : ¬c.Holds) : FirstFailure (c :: rest) c.cause
  | later {c : Check} {rest : List Check} {e : Error} (hc : c.Holds)
      (hrest : FirstFailure rest e) : FirstFailure (c :: rest) e

namespace FirstFailure

variable {checks more : List Check} {e e' : Error}

theorem unique (h : FirstFailure checks e) (h' : FirstFailure checks e') : e = e' := by
  induction h with
  | here hc =>
    cases h' with
    | here _ => rfl
    | later hc' _ => exact absurd hc' hc
  | later hc _ ih =>
    cases h' with
    | here hc' => exact absurd hc hc'
    | later _ hrest' => exact ih hrest'

theorem append_right (h : FirstFailure checks e) : FirstFailure (checks ++ more) e := by
  induction h with
  | here hc => exact here hc
  | later hc _ ih => exact later hc ih

theorem append_iff (hchecks : ∀ c ∈ checks, c.Holds) :
    FirstFailure (checks ++ more) e ↔ FirstFailure more e := by
  induction checks with
  | nil => exact Iff.rfl
  | cons c rest ih =>
    rw [List.forall_mem_cons] at hchecks
    rw [← ih hchecks.2]
    constructor
    · intro h
      cases h with
      | here hc => exact absurd hchecks.1 hc
      | later _ h' => exact h'
    · intro h
      exact later hchecks.1 h

/-- There is a first failure exactly if some check does not hold. -/
theorem exists_iff : (∃ e, FirstFailure checks e) ↔ ¬∀ c ∈ checks, c.Holds := by
  induction checks with
  | nil =>
    constructor
    · rintro ⟨e, h⟩
      cases h
    · intro h
      exact absurd (fun c hc => nomatch hc) h
  | cons c rest ih =>
    rw [List.forall_mem_cons]
    constructor
    · rintro ⟨e, h⟩ ⟨hc, hrest⟩
      cases h with
      | here hc' => exact hc' hc
      | later _ h' => exact ih.mp ⟨e, h'⟩ hrest
    · intro h
      by_cases hc : c.Holds
      · obtain ⟨e, he⟩ := ih.mpr fun hrest => h ⟨hc, hrest⟩
        exact ⟨e, later hc he⟩
      · exact ⟨c.cause, here hc⟩

theorem append_iff_of_fails (hfails : ¬∀ c ∈ checks, c.Holds) :
    FirstFailure (checks ++ more) e ↔ FirstFailure checks e := by
  obtain ⟨e', h'⟩ := exists_iff.mpr hfails
  constructor
  · intro h
    rwa [h.unique h'.append_right]
  · exact append_right

/-- Among the checks of the entries of a list, the first failure is that of the first entry with a
check that does not hold. -/
theorem flatMap_iff {α : Type} {f : α → List Check} {xs : List α} :
    FirstFailure (xs.flatMap f) e ↔ ∃ before x after, xs = before ++ x :: after ∧
      (∀ y ∈ before, ∀ c ∈ f y, c.Holds) ∧ FirstFailure (f x) e := by
  induction xs with
  | nil =>
    refine iff_of_false (fun h => nomatch h) ?_
    rintro ⟨before, x, after, hsplit, -⟩
    exact List.append_ne_nil_of_right_ne_nil before (List.cons_ne_nil x after) hsplit.symm
  | cons x xs ih =>
    rw [List.flatMap_cons]
    -- the entry is passed over exactly if all of its checks hold
    by_cases hx : ∀ c ∈ f x, c.Holds
    · rw [append_iff hx, ih]
      constructor
      · rintro ⟨before, y, after, rfl, hbefore, hy⟩
        exact ⟨x :: before, y, after, rfl, List.forall_mem_cons.mpr ⟨hx, hbefore⟩, hy⟩
      · rintro ⟨before, y, after, hsplit, hbefore, hy⟩
        cases before with
        | nil =>
          cases hsplit
          exact absurd hx (exists_iff.mp ⟨e, hy⟩)
        | cons z before =>
          cases hsplit
          exact ⟨before, y, after, rfl, (List.forall_mem_cons.mp hbefore).2, hy⟩
    · rw [append_iff_of_fails hx]
      constructor
      · intro h
        exact ⟨[], x, xs, rfl, fun _ hy => (nomatch hy), h⟩
      · rintro ⟨before, y, after, hsplit, hbefore, hy⟩
        cases before with
        | nil =>
          cases hsplit
          exact hy
        | cons z before =>
          cases hsplit
          exact absurd (List.forall_mem_cons.mp hbefore).1 hx

/-- Where all checks report one cause, it does not matter which of them fails first. -/
theorem iff_of_cause {cause : Error} (hcause : ∀ c ∈ checks, c.cause = cause) :
    FirstFailure checks e ↔ e = cause ∧ ¬∀ c ∈ checks, c.Holds := by
  have hsame : ∀ e', FirstFailure checks e' → e' = cause := by
    intro e' h
    induction h with
    | here _ => exact hcause _ List.mem_cons_self
    | later _ _ ih => exact ih fun c hc => hcause c (List.mem_cons_of_mem _ hc)
  constructor
  · intro h
    exact ⟨hsame e h, exists_iff.mp ⟨e, h⟩⟩
  · rintro ⟨rfl, hfails⟩
    obtain ⟨e', h'⟩ := exists_iff.mpr hfails
    rwa [hsame e' h'] at h'

end FirstFailure

/-! ### Outcomes judged by checks -/

variable {α β : Type}

/-- The outcome gives exactly the values described, and fails exactly with the cause of the first
check that does not hold. -/
structure Judged (outcome : Except Error α) (checks : List Check) (Gives : α → Prop) : Prop where
  eq_ok_iff : ∀ a, outcome = .ok a ↔ Gives a
  eq_error_iff : ∀ e, outcome = .error e ↔ FirstFailure checks e

namespace Judged

variable {outcome : Except Error α} {checks : List Check} {Gives Gives' : α → Prop}

theorem of_ok {a : α} (hchecks : ∀ c ∈ checks, c.Holds) (hgives : ∀ b, Gives b ↔ b = a) :
    Judged (.ok a) checks Gives := by
  refine ⟨fun b => ?_, fun e => ⟨fun h => (nomatch h), fun h => ?_⟩⟩
  · rw [hgives, Except.ok.injEq, eq_comm]
  · exact absurd hchecks (FirstFailure.exists_iff.mp ⟨e, h⟩)

theorem of_error {e : Error} (h : FirstFailure checks e) (hgives : ∀ b, ¬Gives b) :
    Judged (.error e) checks Gives := by
  refine ⟨fun b => ⟨fun hb => (nomatch hb), fun hb => absurd hb (hgives b)⟩, fun e' => ?_⟩
  constructor
  · intro he
    cases he
    exact h
  · intro h'
    rw [h.unique h']

theorem exists_ok_iff (h : Judged outcome checks Gives) :
    (∃ a, outcome = .ok a) ↔ ∀ c ∈ checks, c.Holds := by
  cases houtcome : outcome with
  | ok a =>
    refine iff_of_true ⟨a, rfl⟩ ?_
    by_contra hnot
    obtain ⟨e, he⟩ := FirstFailure.exists_iff.mpr hnot
    rw [(h.eq_error_iff e).mpr he] at houtcome
    cases houtcome
  | error e =>
    refine iff_of_false (fun ⟨a, ha⟩ => (nomatch ha)) ?_
    exact FirstFailure.exists_iff.mp ⟨e, (h.eq_error_iff e).mp houtcome⟩

theorem holds_of_ok (h : Judged outcome checks Gives) {a : α} (ha : outcome = .ok a) :
    ∀ c ∈ checks, c.Holds :=
  h.exists_ok_iff.mp ⟨a, ha⟩

theorem congr (h : Judged outcome checks Gives) (hgives : ∀ a, Gives a ↔ Gives' a) :
    Judged outcome checks Gives' :=
  ⟨fun a => (h.eq_ok_iff a).trans (hgives a), h.eq_error_iff⟩

/-- An outcome with one cause of failure is judged by one check. -/
theorem single {c : Check} (hok : ∀ a, outcome = .ok a ↔ Gives a)
    (herror : ∀ e, outcome = .error e → e = c.cause) (hc : c.Holds ↔ ∃ a, Gives a) :
    Judged outcome [c] Gives := by
  cases houtcome : outcome with
  | ok a =>
    refine of_ok (List.forall_mem_singleton.mpr (hc.mpr ⟨a, (hok a).mp houtcome⟩)) fun b => ?_
    rw [← hok b, houtcome, Except.ok.injEq, eq_comm]
  | error e =>
    have hnone : ∀ b, ¬Gives b := by
      intro b hb
      rw [← hok b, houtcome] at hb
      cases hb
    have hfails : ¬c.Holds := fun hholds => (hc.mp hholds).elim hnone
    rw [herror e houtcome]
    exact of_error (FirstFailure.here hfails) hnone

/-- An outcome that fails with one cause and exactly under a condition checks for its absence. -/
theorem of_eq_error_iff {cause : Error} {condition : Prop}
    (h : ∀ e, outcome = .error e ↔ e = cause ∧ condition) :
    Judged outcome [⟨¬condition, cause⟩] (outcome = .ok ·) := by
  refine single (fun _ => Iff.rfl) (fun e he => ((h e).mp he).1) ?_
  rw [Except.exists_eq_ok_iff]
  simp only [ne_eq, h, not_and, forall_eq]

/-! ### Steps -/

/-- The checks of two steps are those of the first and then those of the second.  The second step
may depend on what the first one gave, but not its checks. -/
theorem bind {f : α → Except Error β} {more : List Check} {Gives₂ : α → β → Prop}
    (h : Judged outcome checks Gives) (hf : ∀ a, Gives a → Judged (f a) more (Gives₂ a)) :
    Judged (outcome >>= f) (checks ++ more) fun b => ∃ a, Gives a ∧ Gives₂ a b := by
  cases houtcome : outcome with
  | error e =>
    refine of_error ((h.eq_error_iff e).mp houtcome).append_right ?_
    rintro b ⟨a, ha, -⟩
    rw [← h.eq_ok_iff, houtcome] at ha
    cases ha
  | ok a =>
    have ha : Gives a := (h.eq_ok_iff a).mp houtcome
    have hunique : ∀ a', Gives a' → a' = a := by
      intro a' ha'
      rw [← h.eq_ok_iff, houtcome] at ha'
      exact (Except.ok.inj ha').symm
    have hstep : (Except.ok a >>= f) = f a := rfl
    rw [hstep]
    refine ⟨fun b => ?_, fun e => ?_⟩
    · rw [(hf a ha).eq_ok_iff]
      constructor
      · intro hb
        exact ⟨a, ha, hb⟩
      · rintro ⟨a', ha', hb⟩
        rwa [hunique a' ha'] at hb
    · rw [(hf a ha).eq_error_iff, FirstFailure.append_iff (h.holds_of_ok houtcome)]

end Judged

theorem judged_pure (b : β) : Judged (.ok b : Except Error β) [] (· = b) :=
  Judged.of_ok (fun _ hc => nomatch hc) fun _ => Iff.rfl

theorem Judged.map {outcome : Except Error α} {checks : List Check} {Gives : α → Prop}
    (h : Judged outcome checks Gives) (g : α → β) :
    Judged (g <$> outcome) checks fun b => ∃ a, Gives a ∧ b = g a := by
  have hmap : g <$> outcome = outcome >>= fun a => .ok (g a) := map_eq_pure_bind g outcome
  rw [hmap, ← List.append_nil checks]
  exact h.bind fun a _ => judged_pure (g a)

/-- The same step on every entry of a list: the checks of the entries follow each other. -/
theorem judged_mapM {f : α → Except Error β} {checks : α → List Check} {Gives : α → β → Prop}
    (hf : ∀ a, Judged (f a) (checks a) (Gives a)) (xs : List α) :
    Judged (xs.mapM f) (xs.flatMap checks) (List.Forall₂ Gives xs) := by
  induction xs with
  | nil => exact (judged_pure []).congr fun ys => List.forall₂_nil_left_iff.symm
  | cons a rest ih =>
    rw [List.mapM_cons, List.flatMap_cons]
    have hrest (b : β) := ih.bind fun bs _ => judged_pure (b :: bs)
    rw [List.append_nil] at hrest
    refine ((hf a).bind fun b _ => hrest b).congr fun ys => ?_
    constructor
    · rintro ⟨b, hb, bs, hbs, rfl⟩
      exact List.Forall₂.cons hb hbs
    · intro h
      obtain ⟨b, bs, hb, hbs, rfl⟩ := List.forall₂_cons_left_iff.mp h
      exact ⟨b, hb, bs, hbs, rfl⟩

/-- Where related entries agree in a value, the two lists have the same values in the same order. -/
theorem map_eq_of_forall₂ {α β γ : Type} {R : α → β → Prop} {f : α → γ} {g : β → γ} {xs : List α}
    {ys : List β} (h : List.Forall₂ R xs ys) (hfg : ∀ a b, R a b → g b = f a) :
    ys.map g = xs.map f := by
  have hequal : List.Forall₂ (· = ·) (ys.map g) (xs.map f) := by
    rw [List.forall₂_map_left_iff, List.forall₂_map_right_iff]
    exact (h.imp hfg).flip
  rwa [List.forall₂_eq_eq_eq] at hequal

end CompressedLedger
