import Inlay.Proofs.Text.Splice

/-!
Replacing one span after the other. A replacement leaves all that stands in
front of its span where it was, so the byte offsets of the earlier spans hold
in the new text too. Made singly from the last to the first, replacements
therefore come to what splicing makes of them all at once.
-/

namespace Inlay.Text

/-- Spans from front to back that do not overlap and cut a text between its
characters only. They may touch, and they may be empty. -/
structure Fits (t : Text) (spans : List Span) : Prop where
  apart : spans.Pairwise fun a b => a.stop ≤ b.start
  onBoundaries : ∀ span ∈ spans, ∃ front held back, t = front ++ held ++ back ∧
    byteSize front = span.start ∧ byteSize (front ++ held) = span.stop

def replaceOne (r : Span × Text) (t : Text) : Text :=
  takeBytes r.1.start t ++ r.2 ++ dropBytes r.1.stop t

def held (t : Text) (span : Span) : Text :=
  takeBytes (span.stop - span.start) (dropBytes span.start t)

/-! ### Spans that fit stand in the text -/

theorem Placed.apart {offset : Nat} {spans : List Span} {t : Text} (h : Placed offset spans t) :
    spans.Pairwise fun a b => a.stop ≤ b.start := by
  induction h with
  | nil => exact .nil
  | cons gap held h ih => exact List.pairwise_cons.mpr ⟨h.le_start, ih⟩

theorem placed_of_fits {offset : Nat} {spans : List Span} {t : Text}
    (hapart : spans.Pairwise fun a b => a.stop ≤ b.start)
    (hbounds : ∀ span ∈ spans, ∃ front held back, t = front ++ held ++ back ∧
      offset + byteSize front = span.start ∧ offset + byteSize (front ++ held) = span.stop) :
    Placed offset spans t := by
  induction spans generalizing offset t with
  | nil => exact .nil offset t
  | cons span spans ih =>
      obtain ⟨gap, held, rest, rfl, hstart, hstop⟩ := hbounds span List.mem_cons_self
      obtain ⟨hfirst, hlater⟩ := List.pairwise_cons.mp hapart
      rw [byteSize_append, ← Nat.add_assoc] at hstop
      obtain ⟨start, stop⟩ := span
      obtain rfl : offset + byteSize gap = start := hstart
      obtain rfl : offset + byteSize gap + byteSize held = stop := hstop
      refine .cons gap held (ih hlater fun later hmem => ?_)
      -- a later span starts behind the first one, so what is in front of it starts with that
      obtain ⟨front, inner, back, heq, hfront, hinner⟩ :=
        hbounds later (List.mem_cons_of_mem _ hmem)
      have hle := hfirst later hmem
      rw [List.append_assoc front] at heq
      obtain ⟨more, rfl, rfl⟩ := eq_append_of_byteSize_le heq.symm (by
        simp only [byteSize_append] at hle ⊢
        omega)
      simp only [byteSize_append] at hfront hinner
      exact ⟨more, inner, back, by simp, by omega, by simp only [byteSize_append]; omega⟩

theorem placed_iff_fits {spans : List Span} {t : Text} : Placed 0 spans t ↔ Fits t spans := by
  constructor
  · intro h
    exact ⟨h.apart, by simpa using h.onBoundaries⟩
  · intro h
    exact placed_of_fits h.apart (by simpa using h.onBoundaries)

/-! ### Replacements leave what is in front of them -/

theorem Spliced.prepend {offset : Nat} {replacements : List (Span × Text)} {t out : Text}
    (front : Text) (h : Spliced (offset + byteSize front) replacements t out) :
    Spliced offset replacements (front ++ t) (front ++ out) := by
  generalize hoff : offset + byteSize front = there at h
  cases h with
  | nil => exact .nil _ _
  | cons gap old new h =>
      have hgap : offset + byteSize (front ++ gap) = there + byteSize gap := by
        rw [byteSize_append]
        omega
      have hcons := @Spliced.cons offset (front ++ gap) old new _ _ _ (hgap ▸ h)
      rw [hgap] at hcons
      simpa only [List.append_assoc] using hcons

theorem spliceFrom_append {offset : Nat} {replacements : List (Span × Text)} {front t : Text}
    (h : Placed (offset + byteSize front) (replacements.map Prod.fst) t) :
    spliceFrom offset (front ++ t) replacements =
      front ++ spliceFrom (offset + byteSize front) t replacements :=
  (h.spliced.prepend front).spliceFrom_eq

/-- The last replacement made first: the others still stand in what comes of it. -/
theorem splice_cons {r : Span × Text} {rest : List (Span × Text)} {t : Text}
    (h : Placed 0 ((r :: rest).map Prod.fst) t) :
    splice t (r :: rest) = replaceOne r (splice t rest) := by
  obtain ⟨span, new⟩ := r
  rw [List.map_cons] at h
  cases h with
  | @cons _ gap held _ t h =>
      simp only [Nat.zero_add] at h ⊢
      have hfront : byteSize (gap ++ held) = byteSize gap + byteSize held :=
        byteSize_append gap held
      have hrest : splice (gap ++ held ++ t) rest =
          gap ++ held ++ spliceFrom (byteSize gap + byteSize held) t rest := by
        have h' : Placed (0 + byteSize (gap ++ held)) (rest.map Prod.fst) t := by
          rwa [Nat.zero_add, hfront]
        rw [splice, spliceFrom_append h', Nat.zero_add, hfront]
      calc
        splice (gap ++ held ++ t)
            ((⟨byteSize gap, byteSize gap + byteSize held⟩, new) :: rest)
          = gap ++ new ++ spliceFrom (byteSize gap + byteSize held) t rest := by
            have hwhole := takeBytes_byteSize gap (held ++ t)
            have hleft := dropBytes_byteSize (gap ++ held) t
            rw [hfront] at hleft
            simp only [splice, spliceFrom, Nat.sub_zero]
            rw [hleft, List.append_assoc gap held, hwhole]
        _ = replaceOne (⟨byteSize gap, byteSize gap + byteSize held⟩, new)
            (gap ++ held ++ spliceFrom (byteSize gap + byteSize held) t rest) := by
            simp only [replaceOne]
            rw [← hfront, dropBytes_byteSize, List.append_assoc gap held, takeBytes_byteSize]
        _ = replaceOne (⟨byteSize gap, byteSize gap + byteSize held⟩, new)
            (splice (gap ++ held ++ t) rest) := by rw [hrest]

theorem splice_eq_foldr {replacements : List (Span × Text)} {t : Text}
    (h : Placed 0 (replacements.map Prod.fst) t) :
    splice t replacements = replacements.foldr replaceOne t := by
  induction replacements with
  | nil => rfl
  | cons r rest ih =>
      rw [splice_cons h, List.foldr_cons, ih (h.sublist (List.sublist_cons_self _ _))]

/-- What stands in front of a replacement stands there afterwards. -/
theorem Placed.splice_later {offset : Nat} {spans : List Span} {later : List (Span × Text)}
    {t : Text} (h : Placed offset (spans ++ later.map Prod.fst) t) :
    Placed offset spans (spliceFrom offset t later) := by
  induction spans generalizing offset t with
  | nil => exact .nil _ _
  | cons span spans ih =>
      rw [List.cons_append] at h
      cases h with
      | @cons _ gap held _ t h =>
          have h' : Placed (offset + byteSize (gap ++ held)) (spans ++ later.map Prod.fst) t := by
            rwa [byteSize_append, ← Nat.add_assoc]
          rw [spliceFrom_append (h'.sublist (List.sublist_append_right _ _)), byteSize_append,
            ← Nat.add_assoc]
          exact .cons gap held (ih h)

/-- A span that is replaced by what it holds stays as it is. -/
theorem replaceOne_held {t front inner back : Text} {span : Span}
    (ht : t = front ++ inner ++ back) (hstart : byteSize front = span.start)
    (hstop : byteSize (front ++ inner) = span.stop) :
    replaceOne (span, held t span) t = t := by
  have hsize : span.stop - span.start = byteSize inner := by
    rw [← hstart, ← hstop, byteSize_append]
    omega
  subst ht
  have hheld : held (front ++ inner ++ back) span = inner := by
    rw [held, hsize, ← hstart, List.append_assoc, dropBytes_byteSize, takeBytes_byteSize]
  simp only [replaceOne, hheld]
  rw [← hstop, dropBytes_byteSize, ← hstart, List.append_assoc front, takeBytes_byteSize,
    List.append_assoc]

theorem foldr_replaceOne_held {spans : List Span} {t : Text} (h : Fits t spans) :
    (spans.map fun span => (span, held t span)).foldr replaceOne t = t := by
  obtain ⟨-, hbounds⟩ := h
  induction spans with
  | nil => rfl
  | cons span spans ih =>
      obtain ⟨front, inner, back, ht, hstart, hstop⟩ := hbounds span List.mem_cons_self
      rw [List.map_cons, List.foldr_cons, ih fun other hother =>
        hbounds other (List.mem_cons_of_mem _ hother)]
      exact replaceOne_held ht hstart hstop

/-- Splicing comes to replacing the spans singly from the last to the first.
It may be done in two parts, the back first: the spans of the front fit the
text that comes of it. Spans that are replaced by what they hold give the text
back. -/
theorem splice_from_back (t : Text) (replacements : List (Span × Text))
    (h : Fits t (replacements.map Prod.fst)) :
    splice t replacements = replacements.foldr replaceOne t ∧
    (∀ front back, replacements = front ++ back →
      Fits (splice t back) (front.map Prod.fst) ∧
        splice (splice t back) front = splice t replacements) ∧
    splice t (replacements.map fun r => (r.1, held t r.1)) = t := by
  have hplaced := placed_iff_fits.mpr h
  refine ⟨splice_eq_foldr hplaced, ?_, ?_⟩
  · rintro front back rfl
    rw [List.map_append] at hplaced
    have hfront : Placed 0 (front.map Prod.fst) (splice t back) := hplaced.splice_later
    have hback : Placed 0 (back.map Prod.fst) t :=
      hplaced.sublist (List.sublist_append_right _ _)
    refine ⟨placed_iff_fits.mp hfront, ?_⟩
    calc
      splice (splice t back) front = front.foldr replaceOne (back.foldr replaceOne t) := by
        rw [splice_eq_foldr hfront, splice_eq_foldr hback]
      _ = splice t (front ++ back) := by
        rw [← List.foldr_append, splice_eq_foldr (List.map_append ▸ hplaced)]
  · have hspans : (replacements.map fun r => (r.1, held t r.1)) =
        (replacements.map Prod.fst).map fun span => (span, held t span) := by
      rw [List.map_map]
      rfl
    rw [hspans, splice_eq_foldr (by simpa [Function.comp_def] using hplaced),
      foldr_replaceOne_held h]

/-- Characters of several bytes, an empty span, and spans that touch. -/
theorem splice_from_back_touching :
    Fits "é€x".toList [⟨0, 2⟩, ⟨2, 2⟩, ⟨2, 5⟩] ∧
    splice "é€x".toList [(⟨0, 2⟩, "e".toList), (⟨2, 2⟩, "--".toList), (⟨2, 5⟩, [])] =
      "e--x".toList ∧
    [(⟨0, 2⟩, "e".toList), (⟨2, 2⟩, "--".toList), (⟨2, 5⟩, [])].foldr replaceOne "é€x".toList =
      "e--x".toList ∧
    splice (splice "é€x".toList [(⟨2, 5⟩, [])])
      [(⟨0, 2⟩, "e".toList), (⟨2, 2⟩, "--".toList)] = "e--x".toList := by
  have hfits : Fits "é€x".toList [⟨0, 2⟩, ⟨2, 2⟩, ⟨2, 5⟩] := by
    refine ⟨by decide, fun span hspan => ?_⟩
    simp only [List.mem_cons, List.not_mem_nil, or_false] at hspan
    rcases hspan with rfl | rfl | rfl
    · exact ⟨[], "é".toList, "€x".toList, by decide +kernel⟩
    · exact ⟨"é".toList, [], "€x".toList, by decide +kernel⟩
    · exact ⟨"é".toList, "€".toList, "x".toList, by decide +kernel⟩
  obtain ⟨hfoldr, hcut, -⟩ := splice_from_back "é€x".toList
    [(⟨0, 2⟩, "e".toList), (⟨2, 2⟩, "--".toList), (⟨2, 5⟩, [])] hfits
  have hout : splice "é€x".toList
      [(⟨0, 2⟩, "e".toList), (⟨2, 2⟩, "--".toList), (⟨2, 5⟩, [])] = "e--x".toList := by
    decide +kernel
  exact ⟨hfits, hout, hfoldr ▸ hout, ((hcut [_, _] [_] rfl).2).trans hout⟩

end Inlay.Text
