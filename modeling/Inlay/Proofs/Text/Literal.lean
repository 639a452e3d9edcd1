import Inlay.Text.Literal
import Inlay.Proofs.Text.Pieces

/-!
Reading string literals back. A literal that was escaped for single quotes
reads as the text that was escaped; a sum of literals made by guarding the
quotes only does so exactly if the text has no backslash.
-/

namespace Inlay.Literal

open Text

/-- Reads a literal behind its opening quote up to the first quote that is not
escaped: what it stands for, and what is left. A backslash takes the next
character; no line break may stand in a literal. `escaped` says whether a
backslash is in front. -/
def unquoteFrom (q : Char) : (escaped : Bool) → Text → Option (Text × Text)
  | _, [] => none
  | true, c :: t =>
    if isBreak c then none
    else (unquoteFrom q false t).map fun (inside, rest) => (c :: inside, rest)
  | false, c :: t =>
    if isBreak c then none
    else if c = q then some ([], t)
    else if c = '\\' then unquoteFrom q true t
    else (unquoteFrom q false t).map fun (inside, rest) => (c :: inside, rest)

def unquote? (q : Char) (t : Text) : Option (Text × Text) := unquoteFrom q false t

theorem unquote?_guarded {q c : Char} (hq : q ≠ '\\') (hc : isBreak c = false) (t : Text) :
    unquote? q ('\\' :: c :: t) =
      (unquote? q t).map fun (inside, rest) => (c :: inside, rest) := by
  have hbackslash : isBreak '\\' = false := rfl
  simp [unquote?, unquoteFrom, hbackslash, hc, hq.symm]

theorem unquote?_plain {q c : Char} (hc : isBreak c = false) (hcq : c ≠ q) (hback : c ≠ '\\')
    (t : Text) :
    unquote? q (c :: t) = (unquote? q t).map fun (inside, rest) => (c :: inside, rest) := by
  simp [unquote?, unquoteFrom, hc, hcq, hback]

/-! ### Quotes and backslashes both escaped -/

theorem escapeSingle_append (a b : Text) :
    escapeSingle (a ++ b) = escapeSingle a ++ escapeSingle b := by
  simp [escapeSingle, guardWith]

theorem escapeSingle_cons (c : Char) (t : Text) :
    escapeSingle (c :: t) =
      (if c = '\\' ∨ c = '\'' then ['\\', c] else [c]) ++ escapeSingle t := by
  by_cases hbackslash : c = '\\'
  · subst hbackslash
    simp [escapeSingle, guardWith]
  · by_cases hquote : c = '\''
    · subst hquote
      simp [escapeSingle, guardWith]
    · simp [escapeSingle, guardWith, hbackslash, hquote]

theorem mem_of_mem_escapeSingle {c : Char} {t : Text} (h : c ∈ escapeSingle t) :
    c ∈ t ∨ c = '\\' := by
  induction t with
  | nil => simp [escapeSingle, guardWith] at h
  | cons d t ih =>
      rw [escapeSingle_cons, List.mem_append] at h
      rcases h with h | h
      · split at h <;> simp only [List.mem_cons, List.not_mem_nil, or_false] at h <;> grind
      · rcases ih h with h | h
        · exact .inl (List.mem_cons_of_mem d h)
        · exact .inr h

theorem isBreak_of_mem_withoutBreaks {c : Char} {t : Text} (h : c ∈ withoutBreaks t) :
    isBreak c = false := by
  simpa using (List.mem_filter.mp h).2

/-- Behind an escaped text the reader is where it was in front of it, however
the text ends. -/
theorem unquote?_escapeSingle_append {t : Text} (ht : ∀ c ∈ t, isBreak c = false) (rest : Text) :
    unquote? '\'' (escapeSingle t ++ rest) =
      (unquote? '\'' rest).map fun (inside, left) => (t ++ inside, left) := by
  induction t with
  | nil => simp [escapeSingle, guardWith]
  | cons c t ih =>
      have hc := ht c List.mem_cons_self
      have hcont := ih fun d hd => ht d (List.mem_cons_of_mem c hd)
      have hmap : ((unquote? '\'' rest).map fun (inside, left) => (t ++ inside, left)).map
          (fun (inside, left) => (c :: inside, left)) =
            (unquote? '\'' rest).map fun (inside, left) => (c :: t ++ inside, left) := by
        simp [Function.comp_def]
      rw [escapeSingle_cons, List.append_assoc, ← hmap, ← hcont]
      by_cases hesc : c = '\\' ∨ c = '\''
      · rw [if_pos hesc]
        exact unquote?_guarded (by decide) hc _
      · rw [if_neg hesc]
        rw [not_or] at hesc
        exact unquote?_plain hc hesc.2 hesc.1 _

/-! ### Sums of literals -/

/-- `Sum q t parts`: the text is a sum of literals between quotes `q`, each but
the last with ` +` and a newline behind it, that stand for the parts. -/
inductive Sum (q : Char) : Text → List Text → Prop
  | last {t part : Text} (h : unquote? q t = some (part, [])) : Sum q (q :: t) [part]
  | more {t part rest : Text} {parts : List Text}
      (h : unquote? q t = some (part, " +\n".toList ++ rest)) (hrest : Sum q rest parts) :
      Sum q (q :: t) (part :: parts)

/-- What a literal is written as, in front of the rest of its sum. -/
theorem Sum.prepend {q : Char} {t part : Text} {parts : List Text} (written read : Text)
    (h : Sum q (q :: t) (part :: parts))
    (hread : unquote? q (written ++ t) =
      (unquote? q t).map fun (inside, left) => (read ++ inside, left)) :
    Sum q (q :: (written ++ t)) ((read ++ part) :: parts) := by
  cases h with
  | last h =>
      rw [h] at hread
      exact .last hread
  | more h hrest =>
      rw [h] at hread
      exact .more hread hrest

variable {q : Char} (hq : q = '"' ∨ q = '\'')
include hq

theorem quote_plain : isBreak q = false ∧ q ≠ '\\' := by
  rcases hq with rfl | rfl <;> decide

/-- A text without backslashes is read back from its sum. -/
theorem exists_sum_joinLinesFrom {t : Text} (ht : '\\' ∉ t) (inRun : Bool) :
    ∃ part parts, Sum q (q :: (joinLinesFrom q inRun (guardWith q t) ++ [q])) (part :: parts) ∧
      (part :: parts).flatten = withoutBreaks t := by
  obtain ⟨hqbreak, hqback⟩ := quote_plain hq
  induction t generalizing inRun with
  | nil =>
      refine ⟨[], [], .last ?_, by simp [withoutBreaks]⟩
      simp [guardWith, joinLinesFrom, unquote?, unquoteFrom, hqbreak]
  | cons c t ih =>
      have hcback : c ≠ '\\' := fun h => ht (h ▸ List.mem_cons_self)
      have htail : '\\' ∉ t := fun h => ht (List.mem_cons_of_mem c h)
      by_cases hcq : c = q
      · obtain ⟨part, parts, hsum, hparts⟩ := ih htail false
        refine ⟨q :: part, parts, ?_, ?_⟩
        · have hprepend := hsum.prepend ['\\', q] [q] (unquote?_guarded hqback hqbreak _)
          have hback : isBreak '\\' = false := rfl
          simpa [hcq, guardWith, joinLinesFrom, hback, hqbreak] using hprepend
        · simpa [withoutBreaks, hcq, hqbreak] using hparts
      · by_cases hcbreak : isBreak c
        · obtain ⟨part, parts, hsum, hparts⟩ := ih htail true
          cases inRun with
          | true =>
              refine ⟨part, parts, ?_, ?_⟩
              · simpa [guardWith, hcq, joinLinesFrom, hcbreak] using hsum
              · simpa [withoutBreaks, hcbreak] using hparts
          | false =>
              refine ⟨[], part :: parts, ?_, ?_⟩
              · have hmore : Sum q (q :: q :: (" +\n".toList ++
                    q :: (joinLinesFrom q true (guardWith q t) ++ [q]))) ([] :: part :: parts) :=
                  .more (by simp [unquote?, unquoteFrom, hqbreak]) hsum
                simpa [guardWith, hcq, joinLinesFrom, hcbreak] using hmore
              · simpa [withoutBreaks, hcbreak] using hparts
        · obtain ⟨part, parts, hsum, hparts⟩ := ih htail false
          refine ⟨c :: part, parts, ?_, ?_⟩
          · have hprepend := hsum.prepend [c] [c]
              (unquote?_plain (by simpa using hcbreak) hcq hcback _)
            simpa [guardWith, hcq, joinLinesFrom, hcbreak] using hprepend
          · simpa [withoutBreaks, hcbreak] using hparts

/-- A reader uses up a backslash for each quote that it reads, and two for each
backslash. -/
theorem count_unquoteFrom {escaped : Bool} {t inside rest : Text}
    (h : unquoteFrom q escaped t = some (inside, rest)) :
    inside.count q + 2 * inside.count '\\' + rest.count '\\' ≤
      t.count '\\' + if escaped then 1 else 0 := by
  obtain ⟨-, hqback⟩ := quote_plain hq
  induction t generalizing escaped inside with
  | nil => simp [unquoteFrom] at h
  | cons c t ih =>
      cases escaped with
      | true =>
          simp only [unquoteFrom] at h
          split at h
          · contradiction
          · obtain ⟨⟨more, left⟩, hmore, heq⟩ := Option.map_eq_some_iff.mp h
            simp only [Prod.mk.injEq] at heq
            obtain ⟨rfl, rfl⟩ := heq
            have hcount := ih hmore
            by_cases hcq : c = q
            · subst hcq
              simp [hqback] at hcount ⊢
              omega
            · by_cases hcback : c = '\\'
              · subst hcback
                simp [Ne.symm hqback] at hcount ⊢
                omega
              · simp [hcq, hcback] at hcount ⊢
                omega
      | false =>
          simp only [unquoteFrom] at h
          split at h
          · contradiction
          · split at h
            · rename_i hcq
              simp only [Option.some.injEq, Prod.mk.injEq] at h
              obtain ⟨rfl, rfl⟩ := h
              simp [hcq, hqback]
            · split at h
              · rename_i hcback
                have hcount := ih h
                simpa [hcback] using hcount
              · rename_i hcq hcback
                obtain ⟨⟨more, left⟩, hmore, heq⟩ := Option.map_eq_some_iff.mp h
                simp only [Prod.mk.injEq] at heq
                obtain ⟨rfl, rfl⟩ := heq
                have hcount := ih hmore
                simpa [hcq, hcback] using hcount

theorem Sum.count_le {t : Text} {parts : List Text} (h : Sum q t parts) :
    parts.flatten.count q + 2 * parts.flatten.count '\\' ≤ t.count '\\' := by
  obtain ⟨-, hqback⟩ := quote_plain hq
  induction h with
  | last h =>
      have hcount := count_unquoteFrom hq h
      simpa [hqback] using hcount
  | more h _ ih =>
      have hcount := count_unquoteFrom hq h
      simp [hqback] at hcount ⊢
      omega

theorem count_joinLinesFrom (inRun : Bool) (t : Text) :
    (joinLinesFrom q inRun t).count '\\' = t.count '\\' := by
  obtain ⟨-, hqback⟩ := quote_plain hq
  induction t generalizing inRun with
  | nil => rfl
  | cons c t ih =>
      by_cases hcbreak : isBreak c
      · have hcback : c ≠ '\\' := by
          rintro rfl
          exact absurd hcbreak (by decide)
        cases inRun <;> simp [joinLinesFrom, hcbreak, ih, hcback, hqback]
      · simp [joinLinesFrom, hcbreak, ih, List.count_cons]

theorem count_guardWith (t : Text) :
    (guardWith q t).count '\\' = t.count '\\' + t.count q := by
  obtain ⟨-, hqback⟩ := quote_plain hq
  induction t with
  | nil => rfl
  | cons c t ih =>
      simp only [guardWith] at ih
      by_cases hcq : c = q
      · simp [guardWith, hcq, ih, hqback]
        omega
      · simp [guardWith, hcq, ih, List.count_cons]
        omega

/-- Guarding the quotes of a text and joining its lines gives a sum of literals
that stands for the text, without its line breaks, exactly if the text has no
backslash. -/
theorem exists_sum_iff (t : Text) :
    (∃ parts, Sum q (q :: (joinLines q (guardWith q t) ++ [q])) parts ∧
      parts.flatten = withoutBreaks t) ↔ '\\' ∉ t := by
  obtain ⟨hqbreak, hqback⟩ := quote_plain hq
  constructor
  · rintro ⟨parts, hsum, hparts⟩
    -- one backslash was written for each quote, and none for a backslash
    have hle := hsum.count_le hq
    have hkept : ∀ c, isBreak c = false → (withoutBreaks t).count c = t.count c :=
      fun c hc => List.count_filter (by simp [hc])
    rw [hparts, hkept q hqbreak, hkept '\\' rfl] at hle
    simp only [List.count_cons, List.count_append, joinLines, count_joinLinesFrom hq,
      count_guardWith hq] at hle
    have hnone : t.count '\\' = 0 := by
      simp [hqback] at hle
      omega
    exact List.count_eq_zero.mp hnone
  · intro ht
    obtain ⟨part, parts, hsum, hparts⟩ := exists_sum_joinLinesFrom hq ht false
    exact ⟨_, hsum, hparts⟩

end Inlay.Literal
