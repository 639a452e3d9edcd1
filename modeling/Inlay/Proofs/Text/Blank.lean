import Inlay.Proofs.Text.Pieces
import Mathlib.Data.List.TakeWhile

/-!
White space: characters that are none, texts of nothing else, and what trimming
leaves of a text.
-/

namespace Inlay.Text

theorem isBlank_space : isBlank ' ' = true := rfl

theorem isBlank_ne {c d : Char} (hc : isBlank c = true) (hd : isBlank d = false) : c ≠ d := by
  rintro rfl
  simp [hc] at hd

theorem isBlank_of_isAlphanum {c : Char} (h : c.isAlphanum = true) : isBlank c = false := by
  have hclasses : (c.isUpper || c.isLower || c.isDigit) = true := h
  have hrange : 48 ≤ c.toNat ∧ c.toNat ≤ 57 ∨ 65 ≤ c.toNat ∧ c.toNat ≤ 90 ∨
      97 ≤ c.toNat ∧ c.toNat ≤ 122 := by
    rw [Bool.or_eq_true, Bool.or_eq_true] at hclasses
    rcases hclasses with (hupper | hlower) | hdigit
    · exact .inr (.inl (of_decide_eq_true hupper))
    · obtain ⟨hlow, hhigh⟩ := Bool.and_eq_true_iff.mp hlower
      exact .inr (.inr ⟨of_decide_eq_true hlow, of_decide_eq_true hhigh⟩)
    · obtain ⟨hlow, hhigh⟩ := Bool.and_eq_true_iff.mp hdigit
      exact .inl ⟨of_decide_eq_true hlow, of_decide_eq_true hhigh⟩
  simp only [isBlank, Bool.or_eq_false_iff, Bool.and_eq_false_iff, beq_eq_false_iff_ne,
    decide_eq_false_iff_not]
  omega

theorem isBlank_of_isDigit {c : Char} (h : c.isDigit = true) : isBlank c = false :=
  isBlank_of_isAlphanum (by simp [Char.isAlphanum, h])

theorem isBlank_of_isBreak {c : Char} (h : isBreak c = true) : isBlank c = true := by
  rw [isBreak, Bool.or_eq_true, beq_iff_eq, beq_iff_eq] at h
  rcases h with rfl | rfl <;> decide

theorem isBreak_of_not_isBlank {c : Char} (h : isBlank c = false) : isBreak c = false :=
  Bool.eq_false_iff.mpr fun hc => by simp [isBlank_of_isBreak hc] at h

def Blank (t : Text) : Prop := ∀ c ∈ t, isBlank c = true

def startsBlank (t : Text) : Bool := t.head?.any isBlank

def endsBlank (t : Text) : Bool := t.getLast?.any isBlank

/-! ### Trimming -/

theorem exists_eq_append_trimStart (t : Text) : ∃ run, Blank run ∧ t = run ++ trimStart t :=
  ⟨t.takeWhile isBlank, fun _ hc => List.mem_takeWhile_imp hc,
    List.takeWhile_append_dropWhile.symm⟩

theorem exists_eq_trimEnd_append (t : Text) : ∃ run, Blank run ∧ t = trimEnd t ++ run := by
  obtain ⟨run, hrun, ht⟩ := exists_eq_append_trimStart t.reverse
  refine ⟨run.reverse, fun c hc => hrun c (List.mem_reverse.mp hc), ?_⟩
  calc
    t = (run ++ trimStart t.reverse).reverse := by rw [← ht, List.reverse_reverse]
    _ = trimEnd t ++ run.reverse := List.reverse_append

theorem startsBlank_trimStart (t : Text) : startsBlank (trimStart t) = false := by
  have hstops := stops_dropWhile isBlank t
  cases h : (trimStart t).head? with
  | none => simp [startsBlank, h]
  | some c => simpa [startsBlank, h] using hstops c h

theorem endsBlank_trimEnd (t : Text) : endsBlank (trimEnd t) = false := by
  have h := startsBlank_trimStart t.reverse
  simpa [endsBlank, startsBlank, trimEnd, trimStart] using h

theorem startsBlank_trimEnd {t : Text} (h : ¬Blank t) :
    startsBlank (trimEnd t) = startsBlank t := by
  obtain ⟨run, hrun, ht⟩ := exists_eq_trimEnd_append t
  have hne : trimEnd t ≠ [] := by
    intro hnil
    rw [hnil] at ht
    exact h (ht ▸ hrun)
  conv => rhs; rw [ht]
  obtain ⟨c, rest, hcons⟩ := List.exists_cons_of_ne_nil hne
  rw [hcons]
  rfl

theorem endsBlank_trimStart {t : Text} (h : ¬Blank t) :
    endsBlank (trimStart t) = endsBlank t := by
  obtain ⟨run, hrun, ht⟩ := exists_eq_append_trimStart t
  have hne : trimStart t ≠ [] := by
    intro hnil
    rw [hnil, List.append_nil] at ht
    exact h (ht ▸ hrun)
  conv => rhs; rw [ht]
  rw [endsBlank, endsBlank, List.getLast?_append, List.getLast?_eq_some_getLast hne,
    Option.some_or]

theorem Blank.trimStart_eq_nil {t : Text} (h : Blank t) : trimStart t = [] :=
  List.dropWhile_eq_nil_iff.mpr h

theorem Blank.trimEnd_eq_nil {t : Text} (h : Blank t) : trimEnd t = [] := by
  have hreverse : Blank t.reverse := fun c hc => h c (List.mem_reverse.mp hc)
  exact congrArg List.reverse hreverse.trimStart_eq_nil

end Inlay.Text
