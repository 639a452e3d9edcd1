import Inlay.Proofs.Path.Components
import Inlay.Proofs.Text.Literal
import Mathlib.Algebra.Group.Nat.Even
import Mathlib.Data.List.Forall2

/-!
The lines of a sum of literals. Each maximal run of line breaks starts a new
line, so that the sum stands as one literal a line. A line is closed by its last
quote only if no backslash of the text takes that quote or frees an earlier
one, which is a matter of the parity of the runs of backslashes.
-/

namespace Inlay.Literal

open Text

/-! ### Lines and runs -/

def sumLines (q : Char) (t : Text) : List Text :=
  split '\n' (q :: (joinLines q (guardWith q t) ++ [q]))

/-- Behind its first quote the line reads as a literal that stands for `part`
and is closed by the last quote of the line. -/
def LineReads (q : Char) (line part : Text) : Prop :=
  ∃ body rest, line = q :: body ∧ unquote? q body = some (part, rest) ∧ q ∉ rest

def LineCloses (q : Char) (line : Text) : Prop := ∃ part, LineReads q line part

/-- The number of line breaks with no line break right in front, one for each
maximal run; `front` is what stands in front of the text. -/
def breakRunsFrom (front : Option Char) (t : Text) : Nat :=
  ((front :: t.map some).zip t).countP fun (before, c) => isBreak c && !before.any isBreak

def breakRuns (t : Text) : Nat := breakRunsFrom none t

/-- Each maximal run of backslashes in front of a quote, a line break or the
end of the text has an even length. -/
def EvenBackslashes (q : Char) (t : Text) : Prop :=
  ∀ before n after, t = before ++ List.replicate n '\\' ++ after →
    before.getLast? ≠ some '\\' → (∀ c ∈ after.head?, c = q ∨ isBreak c = true) → Even n

theorem breakRunsFrom_cons (front : Option Char) (c : Char) (t : Text) :
    breakRunsFrom front (c :: t) =
      breakRunsFrom (some c) t + if isBreak c && !front.any isBreak then 1 else 0 := by
  simp [breakRunsFrom, List.countP_cons]

theorem split_cons_of_ne {sep c : Char} {t first : Text} {more : List Text} (hc : c ≠ sep)
    (h : split sep t = first :: more) : split sep (c :: t) = (c :: first) :: more := by
  rw [split, if_neg hc, h]

def EndInQuotes (q : Char) (lines : List Text) : Prop :=
  (∀ line ∈ lines.dropLast, ∃ start, line = start ++ q :: " +".toList) ∧
    ∃ start, lines.getLast? = some (start ++ [q])

theorem EndInQuotes.prepend {q : Char} {first : Text} {more : List Text}
    (h : EndInQuotes q (first :: more)) (front : Text) :
    EndInQuotes q ((front ++ first) :: more) := by
  obtain ⟨hinner, start, hlast⟩ := h
  cases more with
  | nil =>
      obtain rfl := Option.some.inj hlast
      exact ⟨by simp, front ++ start, by simp⟩
  | cons second more =>
      rw [List.dropLast_cons_cons] at hinner
      refine ⟨fun line hline => ?_, start, by simpa using hlast⟩
      rw [List.dropLast_cons_cons] at hline
      rcases List.mem_cons.mp hline with rfl | hline
      · obtain ⟨start, rfl⟩ := hinner first List.mem_cons_self
        exact ⟨front ++ start, by simp⟩
      · exact hinner line (List.mem_cons_of_mem _ hline)

/-! ### Runs of backslashes -/

theorem eq_nil_of_forall_backslash {before : Text} (hall : ∀ c ∈ before, c = '\\')
    (hlast : before.getLast? ≠ some '\\') : before = [] := by
  by_contra hne
  rw [List.getLast?_eq_some_getLast hne, hall _ (List.getLast_mem hne)] at hlast
  exact hlast rfl

/-- A run at the front is as long as it can be in one way only. -/
theorem replicate_append_inj {n k : Nat} {after rest : Text}
    (h : List.replicate n '\\' ++ after = List.replicate k '\\' ++ rest)
    (hafter : Stops (· == '\\') after) (hrest : Stops (· == '\\') rest) : n = k := by
  have hrun : ∀ m, ∀ c ∈ List.replicate m '\\', (c == '\\') = true := by simp
  have htake := congrArg (List.takeWhile (· == '\\')) h
  rw [takeWhile_append (hrun n) hafter, takeWhile_append (hrun k) hrest] at htake
  simpa using congrArg List.length htake

/-! ### Reading within a line -/

def ClosesFrom (q : Char) (escaped : Bool) (t : Text) : Prop :=
  ∃ read, unquoteFrom q escaped t = some read ∧ q ∉ read.2

theorem lineCloses_cons {body : Text} : LineCloses q (q :: body) ↔ ClosesFrom q false body := by
  constructor
  · rintro ⟨part, _, rest, heq, hread, hrest⟩
    obtain ⟨-, rfl⟩ := List.cons.inj heq
    exact ⟨(part, rest), hread, hrest⟩
  · rintro ⟨⟨part, rest⟩, hread, hrest⟩
    exact ⟨part, body, rest, rfl, hread, hrest⟩

theorem closesFrom_map {escaped : Bool} {t u : Text} {c : Char}
    (h : unquoteFrom q escaped t =
      (unquoteFrom q false u).map fun (inside, rest) => (c :: inside, rest)) :
    ClosesFrom q escaped t ↔ ClosesFrom q false u := by
  unfold ClosesFrom
  rw [h]
  cases unquoteFrom q false u <;> simp

theorem not_closesFrom_nil (escaped : Bool) : ¬ClosesFrom q escaped [] := by
  simp [ClosesFrom, unquoteFrom]

theorem closesFrom_escaped {c : Char} (hc : isBreak c = false) (t : Text) :
    ClosesFrom q true (c :: t) ↔ ClosesFrom q false t :=
  closesFrom_map (c := c) (by simp [unquoteFrom, hc])

theorem closesFrom_plain {c : Char} (hc : isBreak c = false) (hcq : c ≠ q) (hback : c ≠ '\\')
    (t : Text) : ClosesFrom q false (c :: t) ↔ ClosesFrom q false t :=
  closesFrom_map (c := c) (by simp [unquoteFrom, hc, hcq, hback])

/-- The lines of a text that stands behind a run of `k` backslashes are closed
exactly if the runs of both are even. -/
def ClosedIffEven (q : Char) (k : Nat) (t first : Text) (more : List Text) : Prop :=
  (ClosesFrom q (decide ¬Even k) first ∧ ∀ line ∈ more, LineCloses q line) ↔
    EvenBackslashes q (List.replicate k '\\' ++ t)

theorem ClosedIffEven.of_zero {t first : Text} {more : List Text}
    (h : ClosedIffEven q 0 t first more) :
    (ClosesFrom q false first ∧ ∀ line ∈ more, LineCloses q line) ↔ EvenBackslashes q t := by
  simpa [ClosedIffEven] using h

/-- What a line is written as, in front of the rest of it. -/
theorem LineReads.prepend {t part : Text} (written read : Text) (h : LineReads q (q :: t) part)
    (hread : unquote? q (written ++ t) =
      (unquote? q t).map fun (inside, left) => (read ++ inside, left)) :
    LineReads q (q :: (written ++ t)) (read ++ part) := by
  obtain ⟨_, rest, heq, ht, hrest⟩ := h
  obtain ⟨-, rfl⟩ := List.cons.inj heq
  refine ⟨written ++ t, rest, rfl, ?_, hrest⟩
  rw [hread, ht]
  rfl

theorem lineReads_closed {rest : Text} (hqbreak : isBreak q = false) (hrest : q ∉ rest) :
    LineReads q (q :: q :: rest) [] :=
  ⟨q :: rest, rest, rfl, by simp [unquote?, unquoteFrom, hqbreak], hrest⟩

/-! ### How lines are made -/

section Quotes

variable {q : Char} (hq : q = '"' ∨ q = '\'')
include hq

/-- Lines are made character by character: a quote gets its backslash, the first
break of a run closes the line and opens the next one, and the other breaks are
dropped. -/
theorem lines_induction {motive : Bool → Text → Text → List Text → Prop}
    (nil : ∀ inRun, motive inRun [] [q] [])
    (quote : ∀ inRun t first more, motive false t first more →
      motive inRun (q :: t) ('\\' :: q :: first) more)
    (plain : ∀ inRun c t first more, c ≠ q → isBreak c = false → motive false t first more →
      motive inRun (c :: t) (c :: first) more)
    (inner : ∀ c t first more, isBreak c = true → motive true t first more →
      motive true (c :: t) first more)
    (newLine : ∀ c t first more, isBreak c = true → motive true t first more →
      motive false (c :: t) [q, ' ', '+'] ((q :: first) :: more))
    (inRun : Bool) (t : Text) :
    ∃ first more, split '\n' (joinLinesFrom q inRun (guardWith q t) ++ [q]) = first :: more ∧
      motive inRun t first more := by
  obtain ⟨hqbreak, -⟩ := quote_plain hq
  have hqline : q ≠ '\n' := by
    rintro rfl
    exact absurd hqbreak (by decide)
  induction t generalizing inRun with
  | nil => exact ⟨[q], [], split_cons_of_ne hqline rfl, nil inRun⟩
  | cons c t ih =>
      by_cases hcq : c = q
      · obtain ⟨first, more, hsplit, hmotive⟩ := ih false
        refine ⟨'\\' :: q :: first, more, ?_, hcq ▸ quote inRun t first more hmotive⟩
        have hback : isBreak '\\' = false := rfl
        have hguard : joinLinesFrom q inRun (guardWith q (c :: t)) ++ [q] =
            '\\' :: q :: (joinLinesFrom q false (guardWith q t) ++ [q]) := by
          simp [guardWith, hcq, joinLinesFrom, hback, hqbreak]
        rw [hguard]
        exact split_cons_of_ne (by decide) (split_cons_of_ne hqline hsplit)
      · have hguard : guardWith q (c :: t) = c :: guardWith q t := by simp [guardWith, hcq]
        rw [hguard, joinLinesFrom]
        cases hcbreak : isBreak c with
        | false =>
            obtain ⟨first, more, hsplit, hmotive⟩ := ih false
            refine ⟨c :: first, more, ?_, plain inRun c t first more hcq hcbreak hmotive⟩
            have hcline : c ≠ '\n' := by
              rintro rfl
              exact absurd hcbreak (by decide)
            exact split_cons_of_ne hcline hsplit
        | true =>
            obtain ⟨first, more, hsplit, hmotive⟩ := ih true
            cases inRun with
            | true => exact ⟨first, more, hsplit, inner c t first more hcbreak hmotive⟩
            | false =>
                refine ⟨[q, ' ', '+'], (q :: first) :: more, ?_,
                  newLine c t first more hcbreak hmotive⟩
                have hnext := split_cons_of_ne hqline hsplit
                have hbreak := split_append '\n' [q, ' ', '+']
                  (q :: (joinLinesFrom q true (guardWith q t) ++ [q]))
                have hclosed : split '\n' [q, ' ', '+'] = [[q, ' ', '+']] :=
                  split_cons_of_ne hqline rfl
                simpa [hnext, hclosed] using hbreak

/-- The first line of the sum has an opening quote in front. -/
theorem sumLines_eq {t first : Text} {more : List Text}
    (h : split '\n' (joinLinesFrom q false (guardWith q t) ++ [q]) = first :: more) :
    sumLines q t = (q :: first) :: more := by
  obtain ⟨hqbreak, -⟩ := quote_plain hq
  refine split_cons_of_ne ?_ h
  rintro rfl
  exact absurd hqbreak (by decide)

/-! ### The form of the lines -/

theorem length_sumLines (t : Text) : (sumLines q t).length = breakRuns t + 1 := by
  obtain ⟨hqbreak, -⟩ := quote_plain hq
  obtain ⟨first, more, hsplit, hcount⟩ := lines_induction hq
    (motive := fun inRun t _ more =>
      ∀ front : Option Char, front.any isBreak = inRun → more.length = breakRunsFrom front t)
    (fun _ _ _ => rfl)
    (fun inRun t first more ih front _ => by
      rw [breakRunsFrom_cons, ih (some q) (by simpa using hqbreak)]
      simp [hqbreak])
    (fun inRun c t first more _ hc ih front _ => by
      rw [breakRunsFrom_cons, ih (some c) (by simpa using hc)]
      simp [hc])
    (fun c t first more hc ih front hfront => by
      rw [breakRunsFrom_cons, ih (some c) (by simpa using hc)]
      simp [hfront])
    (fun c t first more hc ih front hfront => by
      rw [breakRunsFrom_cons, List.length_cons, ih (some c) (by simpa using hc)]
      simp [hfront, hc])
    false t
  rw [sumLines_eq hq hsplit, List.length_cons, hcount none rfl, breakRuns]

theorem endInQuotes_sumLines (t : Text) : EndInQuotes q (sumLines q t) := by
  obtain ⟨first, more, hsplit, hends⟩ := lines_induction hq
    (motive := fun _ _ first more => EndInQuotes q (first :: more))
    (fun _ => ⟨by simp, [], rfl⟩)
    (fun _ _ _ _ ih => ih.prepend ['\\', q])
    (fun _ c _ _ _ _ _ ih => ih.prepend [c])
    (fun _ _ _ _ _ ih => ih)
    (fun _ _ _ _ _ ih => by
      obtain ⟨hinner, start, hlast⟩ := ih.prepend [q]
      refine ⟨fun line hline => ?_, start, by simpa using hlast⟩
      rcases List.mem_cons.mp hline with rfl | hline
      · exact ⟨[], rfl⟩
      · exact hinner line hline)
    false t
  rw [sumLines_eq hq hsplit]
  exact hends.prepend [q]

/-! ### Which lines are closed -/

theorem stops_of_endsRun {after : Text} (h : ∀ c ∈ after.head?, c = q ∨ isBreak c = true) :
    Stops (· == '\\') after := by
  obtain ⟨-, hqback⟩ := quote_plain hq
  intro c hc
  rw [beq_eq_false_iff_ne]
  rintro rfl
  rcases h '\\' hc with hquote | hbreak
  · exact hqback hquote.symm
  · exact absurd hbreak (by decide)

/-- A run up to the end of the text. -/
theorem evenBackslashes_replicate (k : Nat) :
    EvenBackslashes q (List.replicate k '\\') ↔ Even k := by
  constructor
  · intro h
    exact h [] k [] (by simp) (by simp) (by simp)
  · intro hk before n after heq hbefore hafter
    have hall : ∀ c ∈ before, c = '\\' := by
      intro c hc
      exact (List.mem_replicate.mp (heq ▸ List.mem_append_left _ (List.mem_append_left _ hc))).2
    obtain rfl := eq_nil_of_forall_backslash hall hbefore
    have hrun : List.replicate n '\\' ++ after = List.replicate k '\\' ++ [] := by
      simpa using heq.symm
    exact replicate_append_inj hrun (stops_of_endsRun hq hafter) (by simp [Stops]) ▸ hk

/-- A run up to another character, and the runs behind that. -/
theorem evenBackslashes_append_cons {c : Char} (hc : c ≠ '\\') (k : Nat) (t : Text) :
    EvenBackslashes q (List.replicate k '\\' ++ c :: t) ↔
      (c = q ∨ isBreak c = true → Even k) ∧ EvenBackslashes q t := by
  have hstops : Stops (· == '\\') (c :: t) := stops_cons (by simpa using hc) t
  constructor
  · intro h
    refine ⟨fun hends => ?_, fun before n after heq hbefore hafter => ?_⟩
    · exact h [] k (c :: t) (by simp) (by simp) (by simpa using hends)
    · refine h (List.replicate k '\\' ++ c :: before) n after (by simp [heq]) ?_ hafter
      cases before with
      | nil => simpa using hc
      | cons d before => simpa using hbefore
  · rintro ⟨hrun, hmore⟩ before n after heq hbefore hafter
    rw [List.append_assoc] at heq
    rcases List.append_eq_append_iff.mp heq with ⟨inner, rfl, hinner⟩ | ⟨inner, hfront, hinner⟩
    · cases inner with
      | nil =>
          -- the text in front is the first run, which has to be empty then
          cases n with
          | zero => exact Even.zero
          | succ n => exact absurd (List.cons.inj hinner).1 hc
      | cons d inner =>
          obtain ⟨rfl, rfl⟩ := List.cons.inj hinner
          refine hmore inner n after (List.append_assoc _ _ _).symm ?_ hafter
          cases inner with
          | nil => simp
          | cons e inner => simpa using hbefore
    · have hall : ∀ c ∈ before, c = '\\' := by
        intro c hc
        exact (List.mem_replicate.mp (hfront ▸ List.mem_append_left _ hc)).2
      obtain rfl := eq_nil_of_forall_backslash hall hbefore
      rw [List.nil_append] at hfront
      rw [← hfront] at hinner
      have hafterStops := stops_of_endsRun hq hafter
      obtain rfl := replicate_append_inj hinner hafterStops hstops
      rw [List.append_cancel_left_eq] at hinner
      rw [hinner] at hafter
      exact hrun (hafter c rfl)

theorem closesFrom_quote (t : Text) : ClosesFrom q false (q :: t) ↔ q ∉ t := by
  obtain ⟨hqbreak, -⟩ := quote_plain hq
  simp [ClosesFrom, unquoteFrom, hqbreak]

theorem closesFrom_backslash (t : Text) :
    ClosesFrom q false ('\\' :: t) ↔ ClosesFrom q true t := by
  obtain ⟨-, hqback⟩ := quote_plain hq
  have hback : isBreak '\\' = false := rfl
  simp [ClosesFrom, unquoteFrom, hback, hqback.symm]

theorem closedIffEven_nil (k : Nat) : ClosedIffEven q k [] [q] [] := by
  rw [ClosedIffEven, List.append_nil, evenBackslashes_replicate hq]
  by_cases hk : Even k
  · simp [hk, closesFrom_quote hq]
  · have hqbreak := (quote_plain hq).1
    simp [hk, closesFrom_escaped hqbreak, not_closesFrom_nil]

theorem closedIffEven_quote {t first : Text} {more : List Text} (hmem : q ∈ first)
    (h : ClosedIffEven q 0 t first more) (k : Nat) :
    ClosedIffEven q k (q :: t) ('\\' :: q :: first) more := by
  obtain ⟨hqbreak, hqback⟩ := quote_plain hq
  rw [ClosedIffEven, evenBackslashes_append_cons hq hqback, ← h.of_zero]
  by_cases hk : Even k
  · simp [hk, closesFrom_backslash hq, closesFrom_escaped hqbreak]
  · have hback : isBreak '\\' = false := rfl
    simp [hk, closesFrom_escaped hback, closesFrom_quote hq, hmem]

theorem closedIffEven_backslash {t first : Text} {more : List Text} {k : Nat}
    (h : ClosedIffEven q (k + 1) t first more) :
    ClosedIffEven q k ('\\' :: t) ('\\' :: first) more := by
  have hback : isBreak '\\' = false := rfl
  have hrun : List.replicate k '\\' ++ '\\' :: t = List.replicate (k + 1) '\\' ++ t := by
    simp [List.replicate_succ']
  rw [ClosedIffEven, hrun, ← show _ ↔ _ from h]
  by_cases hk : Even k
  · simp [hk, closesFrom_backslash hq, Nat.even_add_one]
  · simp [hk, closesFrom_escaped hback, Nat.even_add_one]

theorem closedIffEven_plain {c : Char} {t first : Text} {more : List Text} (hcq : c ≠ q)
    (hc : isBreak c = false) (hback : c ≠ '\\') (h : ClosedIffEven q 0 t first more) (k : Nat) :
    ClosedIffEven q k (c :: t) (c :: first) more := by
  rw [ClosedIffEven, evenBackslashes_append_cons hq hback, ← h.of_zero]
  by_cases hk : Even k
  · simp [hk, closesFrom_plain hc hcq hback]
  · simp [hk, closesFrom_escaped hc, hcq, hc]

theorem closedIffEven_inner {c : Char} {t first : Text} {more : List Text}
    (hc : isBreak c = true) (h : ClosedIffEven q 0 t first more) :
    ClosedIffEven q 0 (c :: t) first more := by
  have hback : c ≠ '\\' := by
    rintro rfl
    exact absurd hc (by decide)
  rw [ClosedIffEven, evenBackslashes_append_cons hq hback, ← h.of_zero]
  simp

theorem closedIffEven_newLine {c : Char} {t first : Text} {more : List Text}
    (hc : isBreak c = true) (h : ClosedIffEven q 0 t first more) (k : Nat) :
    ClosedIffEven q k (c :: t) [q, ' ', '+'] ((q :: first) :: more) := by
  have hback : c ≠ '\\' := by
    rintro rfl
    exact absurd hc (by decide)
  obtain ⟨hqbreak, -⟩ := quote_plain hq
  have hend : q ∉ [' ', '+'] := by
    rcases hq with rfl | rfl <;> decide
  rw [ClosedIffEven, evenBackslashes_append_cons hq hback, ← h.of_zero]
  by_cases hk : Even k
  · simp [hk, closesFrom_quote hq, hend, lineCloses_cons]
  · -- the quote is taken, and no other one is on the line
    have hopen : ¬ClosesFrom q false [' ', '+'] := by
      rcases hq with rfl | rfl <;> simp [ClosesFrom, unquoteFrom, isBreak]
    simp [hk, closesFrom_escaped hqbreak, hopen, hc]

theorem lineCloses_sumLines_iff (t : Text) :
    (∀ line ∈ sumLines q t, LineCloses q line) ↔ EvenBackslashes q t := by
  obtain ⟨first, more, hsplit, -, hiff⟩ := lines_induction hq
    (motive := fun inRun t first more =>
      q ∈ first ∧ ∀ k, (inRun = true → k = 0) → ClosedIffEven q k t first more)
    (fun _ => ⟨by simp, fun k _ => closedIffEven_nil hq k⟩)
    (fun _ _ _ _ ih => ⟨by simp, fun k _ => closedIffEven_quote hq ih.1 (ih.2 0 (by simp)) k⟩)
    (fun _ c _ _ _ hcq hc ih => ⟨List.mem_cons_of_mem c ih.1, fun k _ => by
      by_cases hback : c = '\\'
      · subst hback
        exact closedIffEven_backslash hq (ih.2 (k + 1) (by simp))
      · exact closedIffEven_plain hq hcq hc hback (ih.2 0 (by simp)) k⟩)
    (fun _ _ _ _ hc ih => ⟨ih.1, fun k hk => by
      rw [hk rfl]
      exact closedIffEven_inner hq hc (ih.2 0 fun _ => rfl)⟩)
    (fun _ _ _ _ hc ih => ⟨by simp, fun k _ =>
      closedIffEven_newLine hq hc (ih.2 0 fun _ => rfl) k⟩)
    false t
  rw [sumLines_eq hq hsplit, List.forall_mem_cons, lineCloses_cons]
  exact (hiff 0 fun _ => rfl).of_zero

/-! ### What the lines stand for -/

/-- Without backslashes the lines stand for the text without its breaks. -/
theorem exists_lineReads_sumLines {t : Text} (ht : '\\' ∉ t) :
    ∃ parts, List.Forall₂ (LineReads q) (sumLines q t) parts ∧ parts.flatten = withoutBreaks t := by
  obtain ⟨hqbreak, hqback⟩ := quote_plain hq
  have hend : q ∉ [' ', '+'] := by
    rcases hq with rfl | rfl <;> decide
  obtain ⟨first, more, hsplit, hreads⟩ := lines_induction hq
    (motive := fun _ t first more => '\\' ∉ t → ∃ part parts,
      LineReads q (q :: first) part ∧ List.Forall₂ (LineReads q) more parts ∧
        part ++ parts.flatten = withoutBreaks t)
    (fun _ _ => ⟨[], [], lineReads_closed hqbreak (by simp), .nil, rfl⟩)
    (fun _ t _ _ ih ht => by
      obtain ⟨part, parts, hfirst, hmore, hflat⟩ := ih fun h => ht (List.mem_cons_of_mem q h)
      refine ⟨[q] ++ part, parts, ?_, hmore, ?_⟩
      · exact hfirst.prepend ['\\', q] [q] (unquote?_guarded hqback hqbreak _)
      · simpa [withoutBreaks, hqbreak] using hflat)
    (fun _ c t _ _ hcq hc ih ht => by
      rw [List.mem_cons, not_or] at ht
      obtain ⟨part, parts, hfirst, hmore, hflat⟩ := ih ht.2
      refine ⟨[c] ++ part, parts, ?_, hmore, ?_⟩
      · exact hfirst.prepend [c] [c] (unquote?_plain hc hcq (Ne.symm ht.1) _)
      · simpa [withoutBreaks, hc] using hflat)
    (fun c t _ _ hc ih ht => by
      obtain ⟨part, parts, hfirst, hmore, hflat⟩ := ih fun h => ht (List.mem_cons_of_mem c h)
      exact ⟨part, parts, hfirst, hmore, by simpa [withoutBreaks, hc] using hflat⟩)
    (fun c t _ _ hc ih ht => by
      obtain ⟨part, parts, hfirst, hmore, hflat⟩ := ih fun h => ht (List.mem_cons_of_mem c h)
      refine ⟨[], part :: parts, lineReads_closed hqbreak hend, .cons hfirst hmore, ?_⟩
      simpa [withoutBreaks, hc] using hflat)
    false t
  obtain ⟨part, parts, hfirst, hmore, hflat⟩ := hreads ht
  rw [sumLines_eq hq hsplit]
  exact ⟨part :: parts, .cons hfirst hmore, hflat⟩

end Quotes

/-- The sum of literals that is made of a text has one line more than the text
has runs of line breaks. Each line is a literal that its last quote closes, and
no earlier one, exactly if each run of backslashes in front of a quote, a break
or the end is even; without backslashes the lines stand for the text without
its breaks. -/
theorem sum_lines_closed_iff (q : Char) (t : Text) (hq : q = '"' ∨ q = '\'') :
    (sumLines q t).length = breakRuns t + 1 ∧ EndInQuotes q (sumLines q t) ∧
      ((∀ line ∈ sumLines q t, LineCloses q line) ↔ EvenBackslashes q t) ∧
      ('\\' ∉ t → ∃ parts, List.Forall₂ (LineReads q) (sumLines q t) parts ∧
        parts.flatten = withoutBreaks t) :=
  ⟨length_sumLines hq t, endInQuotes_sumLines hq t, lineCloses_sumLines_iff hq t,
    exists_lineReads_sumLines hq⟩

/-- Quotes behind an even and an odd run of backslashes, and two runs of breaks,
the second one at the end. -/
def backslashedText : Text := "a\\\\'\\b\r\n\r\\'\n".toList

theorem sum_lines_closed_iff_backslashed :
    (sumLines '\'' backslashedText).length = breakRuns backslashedText + 1 ∧
      EndInQuotes '\'' (sumLines '\'' backslashedText) ∧
      ((∀ line ∈ sumLines '\'' backslashedText, LineCloses '\'' line) ↔
        EvenBackslashes '\'' backslashedText) ∧
      ('\\' ∉ backslashedText → ∃ parts,
        List.Forall₂ (LineReads '\'') (sumLines '\'' backslashedText) parts ∧
          parts.flatten = withoutBreaks backslashedText) :=
  sum_lines_closed_iff '\'' backslashedText (.inr rfl)

example : sumLines '\'' backslashedText =
    ["'a\\\\\\'\\b' +".toList, "'\\\\'' +".toList, "''".toList] := by decide

end Inlay.Literal
