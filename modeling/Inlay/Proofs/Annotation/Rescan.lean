import Inlay.Proofs.Annotation.Readers

/-!
Searching again after a replacement. The same annotations are found where none
reaches into a part that was replaced, neither before nor after.
-/

namespace Inlay

def Span.Apart (a b : Span) : Prop := a.stop ≤ b.start ∨ b.stop ≤ a.start

instance (a b : Span) : Decidable (a.Apart b) := inferInstanceAs (Decidable (_ ∨ _))

namespace Text

/-- The places of the new texts in what comes of a replacement. What starts at
`offset` in the source starts at `out` there. -/
def insertedFrom (offset out : Nat) : List (Span × Text) → List Span
  | [] => []
  | (span, new) :: rest =>
    let start := out + (span.start - offset)
    ⟨start, start + byteSize new⟩ :: insertedFrom span.stop (start + byteSize new) rest

def inserted (replacements : List (Span × Text)) : List Span := insertedFrom 0 0 replacements

theorem located_append (offset : Nat) (ps qs : List (Piece α)) :
    located offset (ps ++ qs) =
      located offset ps ++ located (offset + byteSize (ps.flatMap Piece.raw)) qs := by
  induction ps generalizing offset with
  | nil => rfl
  | cons p ps ih =>
      cases p with
      | plain c => simp [located, ih, Piece.raw, Nat.add_assoc]
      | hit raw value => simp [located, ih, Piece.raw, Nat.add_assoc]

theorem map_snd_located (m n : Nat) (ps : List (Piece α)) :
    (located m ps).map Prod.snd = (located n ps).map Prod.snd := by
  induction ps generalizing m n with
  | nil => rfl
  | cons p ps ih =>
      cases p with
      | plain c => exact ih _ _
      | hit raw value => exact congrArg (value :: ·) (ih _ _)

end Text

namespace Annotation

open Text

section Rescan

variable {α : Type} {here : Text → Option (α × Text)} {Form : α → Text → Prop}
variable (hhere : Exact here Form) (hne : ∀ value raw, Form value raw → raw ≠ [])
include hhere hne

/-- A search of two texts side by side that finds nothing across their border
is a search of each. -/
theorem pieces_append (offset : Nat) (a b : Text)
    (hborder : ∀ p ∈ located offset (pieces here (a ++ b)),
      p.1.stop ≤ offset + byteSize a ∨ offset + byteSize a ≤ p.1.start) :
    pieces here (a ++ b) = pieces here a ++ pieces here b := by
  have hfront := hhere.takesFront hne
  revert offset
  refine pieces_induction hfront (motive := fun a ps => ∀ offset,
    (∀ p ∈ located offset (pieces here (a ++ b)),
      p.1.stop ≤ offset + byteSize a ∨ offset + byteSize a ≤ p.1.start) →
    pieces here (a ++ b) = ps ++ pieces here b) ?_ ?_ ?_ a
  · intro offset _
    rfl
  · intro c a hnone ih offset hborder
    -- what starts here in both texts would cross the border or be found in the first alone
    have hplain : here (c :: (a ++ b)) = none := by
      refine Option.eq_none_iff_forall_ne_some.mpr fun (value, rest) hread => ?_
      obtain ⟨raw, hraw, heq⟩ := (hhere _ _ _).mp hread
      rw [List.cons_append, heq, pieces_hit (hne value raw hraw) (heq ▸ hread)] at hborder
      have hraw' := byteSize_pos (hne value raw hraw)
      have hle := hborder _ List.mem_cons_self
      obtain ⟨more, hmore, -⟩ := eq_append_of_byteSize_le (a := c :: a) (b := b) heq (by
        have hc := c.utf8Size_pos
        simp only [byteSize_cons] at hle ⊢
        omega)
      have hread' := (hhere (c :: a) value more).mpr ⟨raw, hraw, hmore⟩
      rw [hnone] at hread'
      contradiction
    rw [List.cons_append, pieces_plain hplain, ih (offset + c.utf8Size)]
    · rfl
    · intro p hp
      have hp := hborder p (by
        rw [List.cons_append, pieces_plain hplain]
        exact hp)
      rw [byteSize_cons] at hp
      omega
  · intro raw value rest hraw hread ih offset hborder
    have hread' : here (raw ++ (rest ++ b)) = some (value, rest ++ b) :=
      (hhere _ _ _).mpr ⟨raw, hhere.form hread, rfl⟩
    rw [List.append_assoc, pieces_hit hraw hread', ih (offset + byteSize raw)]
    · rfl
    · intro p hp
      have hp := hborder p (by
        rw [List.append_assoc, pieces_hit hraw hread']
        exact List.mem_cons_of_mem _ hp)
      rw [byteSize_append] at hp
      omega

theorem located_pieces_append (offset : Nat) (a b : Text)
    (hborder : ∀ p ∈ located offset (pieces here (a ++ b)),
      p.1.stop ≤ offset + byteSize a ∨ offset + byteSize a ≤ p.1.start) :
    located offset (pieces here (a ++ b)) =
      located offset (pieces here a) ++ located (offset + byteSize a) (pieces here b) := by
  rw [pieces_append hhere hne offset a b hborder, located_append,
    flatMap_raw_pieces (hhere.takesFront hne)]

/-- Nothing is found in a text if all that is found stands apart from it. -/
theorem located_eq_nil_of_apart (offset : Nat) (t : Text)
    (hapart : ∀ p ∈ located offset (pieces here t), p.1.Apart ⟨offset, offset + byteSize t⟩) :
    located offset (pieces here t) = [] := by
  refine List.eq_nil_iff_forall_not_mem.mpr fun p hp => ?_
  have hfront := hhere.takesFront hne
  have hplaced := placed_located offset (pieces here t)
  rw [flatMap_raw_pieces hfront] at hplaced
  obtain ⟨front, held, back, rfl, hstart, hstop⟩ :=
    hplaced.onBoundaries p.1 (List.mem_map_of_mem hp)
  have hlt := start_lt_stop_of_mem_located (fun _ hp => raw_ne_nil_of_mem_pieces hfront _ hp)
    offset p.1 (List.mem_map_of_mem hp)
  have hp := hapart p hp
  simp only [Span.Apart, byteSize_append] at hp hstop
  omega

/-- What stands apart from a part is found in front of it or behind it. -/
theorem located_around (offset : Nat) (gap part t : Text)
    (hapart : ∀ p ∈ located offset (pieces here (gap ++ part ++ t)),
      p.1.Apart ⟨offset + byteSize gap, offset + byteSize gap + byteSize part⟩) :
    located offset (pieces here (gap ++ part ++ t)) =
      located offset (pieces here gap) ++
        located (offset + byteSize gap + byteSize part) (pieces here t) := by
  simp only [Span.Apart] at hapart
  have hgap := located_pieces_append hhere hne offset gap (part ++ t) (by
    intro p hp
    rw [← List.append_assoc] at hp
    have hp := hapart p hp
    omega)
  rw [List.append_assoc, hgap] at hapart ⊢
  have hpart := located_pieces_append hhere hne (offset + byteSize gap) part t (by
    intro p hp
    have hp := hapart p (List.mem_append_right _ hp)
    omega)
  rw [hpart] at hapart ⊢
  rw [located_eq_nil_of_apart hhere hne _ part, List.nil_append]
  intro p hp
  exact hapart p (List.mem_append_right _ (List.mem_append_left _ hp))

/-- A replacement does not change what is found if nothing that is found
reaches into a part that is replaced or into a new text. -/
theorem map_snd_located_of_spliced {offset out : Nat} {replacements : List (Span × Text)}
    {t styled : Text} (h : Spliced offset replacements t styled)
    (hold : ∀ p ∈ located offset (pieces here t), ∀ r ∈ replacements, p.1.Apart r.1)
    (hnew : ∀ p ∈ located out (pieces here styled),
      ∀ span ∈ insertedFrom offset out replacements, p.1.Apart span) :
    (located out (pieces here styled)).map Prod.snd =
      (located offset (pieces here t)).map Prod.snd := by
  induction h generalizing out with
  | nil offset t => exact map_snd_located _ _ _
  | @cons offset gap old new rest t styled h ih =>
      have hstart : out + (offset + byteSize gap - offset) = out + byteSize gap := by omega
      simp only [insertedFrom, hstart] at hnew
      have ht := located_around hhere hne offset gap old t fun p hp =>
        hold p hp _ List.mem_cons_self
      have hstyled := located_around hhere hne out gap new styled fun p hp =>
        hnew p hp _ List.mem_cons_self
      rw [ht] at hold ⊢
      rw [hstyled] at hnew ⊢
      rw [List.map_append, List.map_append, map_snd_located out offset, ih]
      · intro p hp r hr
        exact hold p (List.mem_append_right _ hp) r (List.mem_cons_of_mem _ hr)
      · intro p hp span hspan
        exact hnew p (List.mem_append_right _ hp) span (List.mem_cons_of_mem _ hspan)

end Rescan

end Annotation

end Inlay
