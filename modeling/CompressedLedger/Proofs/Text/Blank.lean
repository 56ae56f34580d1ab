import CompressedLedger.Text.Blank
import Mathlib.Data.List.DropRight
import Mathlib.Data.List.TakeWhile

/-!
# Trimming a text

A text is blanks, its trimmed part, and blanks again, and the trimmed part neither starts nor ends
with a blank; no other part of the text has that form (`trim_eq_iff`).
-/

namespace CompressedLedger.Blank

/-- The text is the part with blanks around it, and the part has none at its ends. -/
structure IsTrimmed (cs t : List Char) : Prop where
  exists_blanks : ∃ lead tail, cs = lead ++ t ++ tail ∧
    (∀ c ∈ lead, isBlank c = true) ∧ ∀ c ∈ tail, isBlank c = true
  head_not_blank : ∀ c ∈ t.head?, isBlank c = false
  last_not_blank : ∀ c ∈ t.getLast?, isBlank c = false

theorem dropWhile_append_of_blank {lead : List Char} (h : ∀ c ∈ lead, isBlank c = true)
    (cs : List Char) : (lead ++ cs).dropWhile isBlank = cs.dropWhile isBlank := by
  rw [List.dropWhile_append, List.dropWhile_eq_nil_iff.mpr h]
  simp

theorem dropWhile_of_head {cs : List Char} (h : ∀ c ∈ cs.head?, isBlank c = false) :
    cs.dropWhile isBlank = cs := by
  cases cs with
  | nil => rfl
  | cons c rest =>
    have hc : isBlank c = false := h c rfl
    simp [hc]

theorem IsTrimmed.trim_eq {cs t : List Char} (h : IsTrimmed cs t) : trim cs = t := by
  obtain ⟨lead, tail, rfl, hlead, htail⟩ := h.exists_blanks
  have hstart : trimStart (lead ++ t ++ tail) = (t ++ tail).dropWhile isBlank := by
    rw [trimStart, List.append_assoc, dropWhile_append_of_blank hlead]
  cases t with
  | nil =>
    rw [trim, hstart, List.nil_append, List.dropWhile_eq_nil_iff.mpr htail]
    rfl
  | cons c rest =>
    have hfront : ((c :: rest) ++ tail).dropWhile isBlank = (c :: rest) ++ tail :=
      dropWhile_of_head h.head_not_blank
    have hback : ∀ x ∈ (c :: rest).reverse.head?, isBlank x = false := by
      rw [List.head?_reverse]
      exact h.last_not_blank
    have htail' : ∀ x ∈ tail.reverse, isBlank x = true := by simpa using htail
    rw [trim, hstart, hfront, trimEnd, List.reverse_append, dropWhile_append_of_blank htail',
      dropWhile_of_head hback, List.reverse_reverse]

theorem head_dropWhile (cs : List Char) :
    ∀ c ∈ (cs.dropWhile isBlank).head?, isBlank c = false := by
  intro c hc
  have hhead := List.head?_dropWhile_not isBlank cs
  rw [Option.mem_def.mp hc] at hhead
  exact hhead

theorem isTrimmed_trim (cs : List Char) : IsTrimmed cs (trim cs) := by
  have hstart : cs = cs.takeWhile isBlank ++ trimStart cs :=
    List.takeWhile_append_dropWhile.symm
  have hend : trimStart cs = trim cs ++ ((trimStart cs).reverse.takeWhile isBlank).reverse := by
    rw [trim, trimEnd, ← List.reverse_append, List.takeWhile_append_dropWhile, List.reverse_reverse]
  refine ⟨⟨cs.takeWhile isBlank, ((trimStart cs).reverse.takeWhile isBlank).reverse, ?_, ?_, ?_⟩,
    ?_, ?_⟩
  · rw [List.append_assoc, ← hend, ← hstart]
  · intro c hc
    exact List.mem_takeWhile_imp hc
  · intro c hc
    exact List.mem_takeWhile_imp (List.mem_reverse.mp hc)
  · -- the part without trailing blanks has the same first character
    intro c hc
    apply head_dropWhile cs
    change c ∈ (trimStart cs).head?
    rw [hend, List.head?_append, Option.mem_def.mp hc]
    rfl
  · intro c hc
    rw [trim, trimEnd, List.getLast?_reverse] at hc
    exact head_dropWhile _ c hc

/-- Trimming gives the one part of a text that has only blanks around it and none at its ends. -/
theorem trim_eq_iff {cs t : List Char} : trim cs = t ↔ IsTrimmed cs t :=
  ⟨fun h => h ▸ isTrimmed_trim cs, IsTrimmed.trim_eq⟩

/-- The second text is the first one with blanks around it, or the first one itself. -/
def IsPadding (text padded : String) : Prop :=
  ∃ lead tail, padded.toList = lead ++ text.toList ++ tail ∧
    (∀ c ∈ lead, isBlank c = true) ∧ ∀ c ∈ tail, isBlank c = true

theorem isPadding_self (text : String) : IsPadding text text :=
  ⟨[], [], by simp, by simp, by simp⟩

/-- Blanks around a text without blanks are all that trimming takes off. -/
theorem IsPadding.trim_eq {text padded : String} (h : IsPadding text padded)
    (hblank : ∀ c ∈ text.toList, isBlank c = false) : trim padded.toList = text.toList := by
  apply IsTrimmed.trim_eq
  refine ⟨h, fun c hc => ?_, fun c hc => ?_⟩
  · exact hblank c (List.mem_of_mem_head? hc)
  · exact hblank c (List.mem_of_getLast? hc)

end CompressedLedger.Blank
