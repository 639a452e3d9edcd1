import Inlay.Proofs.Text.Pieces
import Mathlib.Data.List.Forall2

/-!
Spans of a text and their replacement. `Placed` says of spans that they stand
one behind the other in a text, each on whole characters; the occurrences of a
pattern do. `Spliced` relates a text to what comes of replacing such spans, and
splicing computes it.
-/

namespace Inlay.Text

/-! ### Places -/

@[simp] theorem byteSize_nil : byteSize [] = 0 := rfl

@[simp] theorem byteSize_cons (c : Char) (t : Text) :
    byteSize (c :: t) = c.utf8Size + byteSize t := rfl

@[simp] theorem byteSize_append (a b : Text) : byteSize (a ++ b) = byteSize a + byteSize b := by
  induction a with
  | nil => simp
  | cons c a ih => simp [ih, Nat.add_assoc]

theorem byteSize_pos {t : Text} (h : t ≠ []) : 0 < byteSize t := by
  obtain ⟨c, t, rfl⟩ := List.exists_cons_of_ne_nil h
  have hc := c.utf8Size_pos
  rw [byteSize_cons]
  omega

/-- Of two ways to cut a text in two, the shorter front starts the longer. -/
theorem eq_append_of_byteSize_le {a b c d : Text} (heq : a ++ b = c ++ d)
    (hle : byteSize c ≤ byteSize a) : ∃ more, a = c ++ more ∧ d = more ++ b := by
  rcases List.append_eq_append_iff.mp heq with ⟨more, rfl, rfl⟩ | ⟨more, rfl, rfl⟩
  · obtain rfl : more = [] := by
      by_contra hmore
      have hpos := byteSize_pos hmore
      rw [byteSize_append] at hle
      omega
    exact ⟨[], by simp, rfl⟩
  · exact ⟨more, rfl, rfl⟩

@[simp] theorem takeBytes_byteSize (a b : Text) : takeBytes (byteSize a) (a ++ b) = a := by
  induction a with
  | nil => cases b <;> simp [takeBytes]
  | cons c a ih =>
      have hc := c.utf8Size_pos
      simp only [List.cons_append, takeBytes, byteSize_cons]
      rw [if_neg (by omega), Nat.add_sub_cancel_left, ih]

@[simp] theorem dropBytes_byteSize (a b : Text) : dropBytes (byteSize a) (a ++ b) = b := by
  induction a with
  | nil => cases b <;> simp [dropBytes]
  | cons c a ih =>
      have hc := c.utf8Size_pos
      simp only [List.cons_append, dropBytes, byteSize_cons]
      rw [if_neg (by omega), Nat.add_sub_cancel_left, ih]

/-- The spans stand one behind the other in the text, which starts at
`offset`; each starts and ends between two characters. -/
inductive Placed : Nat → List Span → Text → Prop
  | nil (offset : Nat) (t : Text) : Placed offset [] t
  | cons {offset : Nat} (gap held : Text) {spans : List Span} {t : Text}
      (h : Placed (offset + byteSize gap + byteSize held) spans t) :
      Placed offset
        (⟨offset + byteSize gap, offset + byteSize gap + byteSize held⟩ :: spans)
        (gap ++ held ++ t)

theorem Placed.prepend {offset : Nat} {spans : List Span} {t : Text} (front : Text)
    (h : Placed (offset + byteSize front) spans t) : Placed offset spans (front ++ t) := by
  generalize hoff : offset + byteSize front = there at h
  cases h with
  | nil => exact .nil _ _
  | cons gap held h =>
      have hgap : offset + byteSize (front ++ gap) = there + byteSize gap := by
        rw [byteSize_append]
        omega
      have hcons := @Placed.cons offset (front ++ gap) held _ _ (hgap ▸ h)
      rw [hgap] at hcons
      simpa only [List.append_assoc] using hcons

theorem Placed.sublist {offset : Nat} {spans fewer : List Span} {t : Text}
    (h : Placed offset spans t) (hsub : fewer.Sublist spans) : Placed offset fewer t := by
  induction h generalizing fewer with
  | nil offset t =>
      rw [List.sublist_nil.mp hsub]
      exact .nil _ _
  | @cons offset gap held spans t h ih =>
      cases hsub with
      | cons _ hsub =>
          apply Placed.prepend
          rw [byteSize_append, ← Nat.add_assoc]
          exact ih hsub
      | cons_cons _ hsub => exact .cons gap held (ih hsub)

structure WellPlaced (t : Text) (spans : List Span) : Prop where
  nonempty : ∀ span ∈ spans, span.start < span.stop
  rising : spans.Pairwise fun a b => a.start < b.start ∧ a.stop ≤ b.start
  onBoundaries : ∀ span ∈ spans, ∃ front held back, t = front ++ held ++ back ∧
    byteSize front = span.start ∧ byteSize (front ++ held) = span.stop

theorem Placed.le_start {offset : Nat} {spans : List Span} {t : Text}
    (h : Placed offset spans t) : ∀ span ∈ spans, offset ≤ span.start := by
  induction h with
  | nil => simp
  | cons gap held h ih =>
      intro span hspan
      rcases List.mem_cons.mp hspan with rfl | hspan
      · exact Nat.le_add_right _ _
      · have hle := ih span hspan
        omega

theorem Placed.onBoundaries {offset : Nat} {spans : List Span} {t : Text}
    (h : Placed offset spans t) : ∀ span ∈ spans, ∃ front held back, t = front ++ held ++ back ∧
      offset + byteSize front = span.start ∧ offset + byteSize (front ++ held) = span.stop := by
  induction h with
  | nil => simp
  | cons gap held h ih =>
      intro span hspan
      rcases List.mem_cons.mp hspan with rfl | hspan
      · refine ⟨gap, held, _, rfl, rfl, ?_⟩
        rw [byteSize_append, Nat.add_assoc]
      · obtain ⟨front, inner, back, rfl, hstart, hstop⟩ := ih span hspan
        refine ⟨gap ++ held ++ front, inner, back, by simp, ?_, ?_⟩
        · rw [← hstart]
          simp [Nat.add_assoc]
        · rw [← hstop]
          simp [Nat.add_assoc]

theorem Placed.wellPlaced {spans : List Span} {t : Text} (h : Placed 0 spans t)
    (hne : ∀ span ∈ spans, span.start < span.stop) : WellPlaced t spans where
  nonempty := hne
  rising := by
    generalize (0 : Nat) = offset at h
    induction h with
    | nil => exact .nil
    | cons gap held h ih =>
        refine List.pairwise_cons.mpr ⟨?_, ih fun span hspan => hne span (by simp [hspan])⟩
        intro later hlater
        have hle := h.le_start later hlater
        have hlt := hne _ List.mem_cons_self
        simp only at hlt ⊢
        omega
  onBoundaries := by simpa using h.onBoundaries

/-! ### The places of what was found -/

/-- Occurrences are found in their order, on whole characters. -/
theorem placed_located (offset : Nat) (ps : List (Piece α)) :
    Placed offset ((located offset ps).map Prod.fst) (ps.flatMap Piece.raw) := by
  induction ps generalizing offset with
  | nil => exact .nil _ _
  | cons p ps ih =>
      cases p with
      | plain c =>
          have h : Placed (offset + byteSize [c])
              ((located (offset + c.utf8Size) ps).map Prod.fst) (ps.flatMap Piece.raw) := by
            simpa using ih (offset + c.utf8Size)
          exact h.prepend [c]
      | hit raw value =>
          have h := @Placed.cons offset [] raw _ _ (ih (offset + byteSize raw))
          simpa [located, Piece.raw] using h

theorem start_lt_stop_of_mem_located {ps : List (Piece α)} (hps : ∀ p ∈ ps, p.raw ≠ [])
    (offset : Nat) : ∀ span ∈ (located offset ps).map Prod.fst, span.start < span.stop := by
  induction ps generalizing offset with
  | nil => simp [located]
  | cons p ps ih =>
      have hmore := ih fun q hq => hps q (by simp [hq])
      cases p with
      | plain c => exact hmore _
      | hit raw value =>
          have hraw := byteSize_pos (hps (.hit raw value) (by simp))
          intro span hspan
          rcases List.mem_cons.mp hspan with rfl | hspan
          · simp only [Piece.raw] at hraw ⊢
            omega
          · exact hmore _ span hspan

section Found

variable {here : Text → Option (α × Text)} (hhere : TakesFront here) (t : Text)
include hhere

theorem placed_found : Placed 0 ((located 0 (pieces here t)).map Prod.fst) t := by
  have h := placed_located 0 (pieces here t)
  rwa [flatMap_raw_pieces hhere] at h

theorem wellPlaced_found : WellPlaced t ((located 0 (pieces here t)).map Prod.fst) :=
  (placed_found hhere t).wellPlaced
    (start_lt_stop_of_mem_located (fun _ hp => raw_ne_nil_of_mem_pieces hhere t hp) 0)

/-- What was found was read where its span says. -/
theorem exists_read_of_mem_located {p : Span × α} (hp : p ∈ located 0 (pieces here t)) :
    ∃ before raw rest, t = before ++ raw ++ rest ∧ here (raw ++ rest) = some (p.2, rest) ∧
      p.1 = ⟨byteSize before, byteSize (before ++ raw)⟩ := by
  have hall : ∀ front : Text, p ∈ located (byteSize front) (pieces here t) →
      ∃ before raw rest, front ++ t = before ++ raw ++ rest ∧
        here (raw ++ rest) = some (p.2, rest) ∧
        p.1 = ⟨byteSize before, byteSize (before ++ raw)⟩ := by
    refine pieces_induction hhere (motive := fun t ps => ∀ front : Text,
      p ∈ located (byteSize front) ps → ∃ before raw rest, front ++ t = before ++ raw ++ rest ∧
        here (raw ++ rest) = some (p.2, rest) ∧ p.1 = ⟨byteSize before, byteSize (before ++ raw)⟩)
      ?_ ?_ ?_ t
    · intro front hp
      simp [located] at hp
    · intro c t _ ih front hp
      simpa using ih (front ++ [c]) (by simpa [located] using hp)
    · intro raw value rest _ hread ih front hp
      rcases List.mem_cons.mp hp with rfl | hp
      · exact ⟨front, raw, rest, by simp, hread, by simp⟩
      · simpa using ih (front ++ raw) (by simpa using hp)
  simpa using hall [] (by simpa using hp)

end Found

/-! ### Replacing -/

/-- `Spliced offset replacements t out`: `out` is `t`, which starts at
`offset`, with the text at each span replaced, and with all between the spans
as it was. -/
inductive Spliced : Nat → List (Span × Text) → Text → Text → Prop
  | nil (offset : Nat) (t : Text) : Spliced offset [] t t
  | cons {offset : Nat} (gap old new : Text) {rest : List (Span × Text)} {t out : Text}
      (h : Spliced (offset + byteSize gap + byteSize old) rest t out) :
      Spliced offset
        ((⟨offset + byteSize gap, offset + byteSize gap + byteSize old⟩, new) :: rest)
        (gap ++ old ++ t) (gap ++ new ++ out)

theorem Spliced.spliceFrom_eq {offset : Nat} {replacements : List (Span × Text)} {t out : Text}
    (h : Spliced offset replacements t out) : spliceFrom offset t replacements = out := by
  induction h with
  | nil => rfl
  | @cons offset gap old new rest t out h ih =>
      have hgap : offset + byteSize gap - offset = byteSize gap := by omega
      have hold : offset + byteSize gap + byteSize old - offset = byteSize (gap ++ old) := by
        rw [byteSize_append]
        omega
      simp only [spliceFrom, hgap, hold]
      rw [dropBytes_byteSize, ih, List.append_assoc gap old t, takeBytes_byteSize]

theorem Placed.spliced {offset : Nat} {replacements : List (Span × Text)} {t : Text}
    (h : Placed offset (replacements.map Prod.fst) t) :
    Spliced offset replacements t (spliceFrom offset t replacements) := by
  -- any outcome will do, since splicing computes it
  suffices hex : ∃ out, Spliced offset replacements t out by
    obtain ⟨out, hout⟩ := hex
    rwa [hout.spliceFrom_eq]
  generalize hspans : replacements.map Prod.fst = spans at h
  induction h generalizing replacements with
  | nil offset t =>
      rw [List.map_eq_nil_iff.mp hspans]
      exact ⟨t, .nil _ _⟩
  | cons gap held h ih =>
      cases replacements with
      | nil => simp at hspans
      | cons r rest =>
          obtain ⟨span, new⟩ := r
          simp only [List.map_cons, List.cons.injEq] at hspans
          obtain ⟨rfl, hrest⟩ := hspans
          obtain ⟨out, hout⟩ := ih hrest
          exact ⟨gap ++ new ++ out, .cons gap held new hout⟩

/-- Splicing is the one way to replace spans that stand in a text. -/
theorem spliced_iff {replacements : List (Span × Text)} {t out : Text}
    (h : Placed 0 (replacements.map Prod.fst) t) :
    Spliced 0 replacements t out ↔ out = splice t replacements := by
  constructor
  · intro hout
    exact hout.spliceFrom_eq.symm
  · rintro rfl
    exact h.spliced

end Inlay.Text
