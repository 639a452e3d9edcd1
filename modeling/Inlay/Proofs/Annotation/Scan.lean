import Inlay.Proofs.Annotation.Readers

/-!
Where annotations are found. The reference scan looks for the first key that
is followed by what it needs, takes the longest opener in front of it, and goes
on behind the annotation; the search of the library finds the same.
-/

namespace Inlay.Annotation

open Text

/-- The reference scan of a text that stands behind `front`. -/
inductive Scan (Form : α → Text → Prop) (make : Text → α → β) :
    Text → Text → List (Span × β) → Prop
  | none (front t : Text)
      (hnone : ∀ before value raw rest, t = before ++ raw ++ rest → ¬Form value raw) :
      Scan Form make front t []
  | next (front gap opener raw rest : Text) (value : α) {found : List (Span × β)}
      (hform : Form value raw)
      (hfirst : ∀ before value' raw' rest', gap ++ opener ++ raw ++ rest = before ++ raw' ++ rest' →
        Form value' raw' → (gap ++ opener).length ≤ before.length)
      (hopener : opener = [] ∨ IsOpener opener)
      (hlongest : ∀ gap' opener', gap ++ opener = gap' ++ opener' → IsOpener opener' →
        opener'.length ≤ opener.length)
      (hmore : Scan Form make (front ++ gap ++ opener ++ raw) rest found) :
      Scan Form make front (gap ++ opener ++ raw ++ rest)
        ((⟨byteSize (front ++ gap), byteSize (front ++ gap ++ opener ++ raw)⟩,
          make opener value) :: found)

theorem located_plain_append (offset : Nat) (gap : Text) (ps : List (Piece α)) :
    located offset (gap.map Piece.plain ++ ps) = located (offset + byteSize gap) ps := by
  induction gap generalizing offset with
  | nil => rfl
  | cons c gap ih =>
      rw [List.map_cons, List.cons_append, located, ih, byteSize_cons, Nat.add_assoc]

theorem pieces_plain_append (here : Text → Option (α × Text)) (gap t : Text)
    (h : ∀ front c more, gap = front ++ c :: more → here (c :: more ++ t) = none) :
    pieces here (gap ++ t) = gap.map Piece.plain ++ pieces here t := by
  induction gap with
  | nil => rfl
  | cons c gap ih =>
      have hmore := ih fun front d more hgap =>
        h (c :: front) d more (by rw [hgap, List.cons_append])
      have hc : here (c :: (gap ++ t)) = none := h [] c gap rfl
      rw [List.cons_append, pieces_plain hc, hmore]
      rfl

variable {α β : Type} {Form : α → Text → Prop} {make : Text → α → β}

/-- No character of an opener starts a key. -/
theorem not_startsApart_of_mem_opener {opener : Text} (hopener : opener = [] ∨ IsOpener opener)
    {c : Char} (hc : c ∈ opener) : isMark c = true ∨ isBlank c = true := by
  rcases hopener with rfl | ⟨marks, blanks, -, hmarks, hblanks, rfl⟩
  · contradiction
  · exact (List.mem_append.mp hc).imp (hmarks c) (hblanks c)

/-- A text that starts a key does not start within an opener. -/
theorem length_le_of_opener_append_eq (hapart : StartsApart Form) (before : Text)
    {opener raw rest t : Text} {value : α} (hopener : opener = [] ∨ IsOpener opener)
    (hform : Form value raw)
    (heq : opener ++ t = before ++ (raw ++ rest)) : opener.length ≤ before.length := by
  rcases List.append_eq_append_iff.mp heq with ⟨more, rfl, -⟩ | ⟨more, rfl, hmore⟩
  · simp
  · cases more with
    | nil => simp
    | cons c more =>
        obtain ⟨d, inner, rfl, hmark, hblank⟩ := hapart value raw hform
        obtain ⟨rfl, -⟩ := List.cons.inj hmore
        have hc := not_startsApart_of_mem_opener hopener (c := d) (by simp)
        simp [hmark, hblank] at hc

/-- Wherever a key is followed by what it needs, an annotation is found that
has this key or reaches over it from an earlier one. -/
theorem Scan.exists_covering {front t : Text} {found : List (Span × β)}
    (h : Scan Form make front t found) (opener : β → Text)
    (hopener : ∀ o value, opener (make o value) = o) {before raw rest : Text} {value : α}
    (ht : t = before ++ raw ++ rest) (hform : Form value raw) :
    ∃ p ∈ found, p.1.start + byteSize (opener p.2) ≤ byteSize (front ++ before) ∧
      byteSize (front ++ before) < p.1.stop := by
  induction h generalizing before with
  | none front t hnone => exact absurd hform (hnone before value raw rest ht)
  | @next front gap o raw' rest' value' found _ hfirst _ _ hmore ih =>
      have hkey := hfirst before value raw rest ht hform
      rw [List.append_assoc, List.append_assoc before] at ht
      obtain ⟨more, rfl⟩ := List.prefix_of_prefix_length_le (List.prefix_append _ (raw' ++ rest'))
        ⟨raw ++ rest, ht.symm⟩ hkey
      rw [List.append_assoc _ more, List.append_cancel_left_eq] at ht
      rcases Nat.lt_or_ge more.length raw'.length with hlt | hge
      · -- the place is within the first annotation
        obtain ⟨later, rfl⟩ := List.prefix_of_prefix_length_le ⟨_, ht.symm⟩
          (List.prefix_append raw' rest') (Nat.le_of_lt hlt)
        have hlater : later ≠ [] := by
          rintro rfl
          simp at hlt
        have hpos := byteSize_pos hlater
        refine ⟨_, List.mem_cons_self, ?_, ?_⟩ <;> simp only [hopener, byteSize_append] <;> omega
      · obtain ⟨later, rfl⟩ := List.prefix_of_prefix_length_le (List.prefix_append raw' rest')
          ⟨_, ht.symm⟩ hge
        rw [List.append_assoc raw', List.append_cancel_left_eq] at ht
        obtain ⟨p, hp, hstart, hstop⟩ := @ih later (by rw [ht, List.append_assoc])
        simp only [List.append_assoc] at hstart hstop
        exact ⟨p, List.mem_cons_of_mem _ hp, by simpa using hstart, by simpa using hstop⟩

section Search

variable {here : Text → Option (β × Text)} (hhere : Exact here (Opened Form make))
include hhere

/-- A character at which nothing is found only makes the gap longer. -/
theorem Scan.cons {front t : Text} {c : Char} {found : List (Span × β)}
    (hc : here (c :: t) = Option.none) (h : Scan Form make (front ++ [c]) t found) :
    Scan Form make front (c :: t) found := by
  -- neither a key nor an opener with a key can start at the character
  have hkey : ∀ opener value raw rest, opener = [] ∨ IsOpener opener → Form value raw →
      c :: t ≠ opener ++ raw ++ rest := by
    intro opener value raw rest hopener hform heq
    have hread := (hhere (c :: t) (make opener value) rest).mpr
      ⟨_, ⟨opener, value, raw, hopener, hform, rfl, rfl⟩, heq⟩
    rw [hc] at hread
    contradiction
  cases h with
  | none _ _ hnone =>
      refine Scan.none front (c :: t) fun before value raw rest heq hform => ?_
      cases before with
      | nil => exact hkey [] value raw rest (.inl rfl) hform heq
      | cons d before => exact hnone before value raw rest (List.cons.inj heq).2 hform
  | next _ gap opener raw rest value hform hfirst hopener hlongest hmore =>
      have hnext := Scan.next front (c :: gap) opener raw rest value hform ?_ hopener ?_
        (by simpa only [List.append_assoc, List.cons_append, List.nil_append] using hmore)
      · simpa only [List.append_assoc, List.cons_append, List.nil_append] using hnext
      · intro before value' raw' rest' heq hform'
        cases before with
        | nil => exact absurd heq (hkey [] value' raw' rest' (.inl rfl) hform')
        | cons d before =>
            have hle := hfirst before value' raw' rest' (List.cons.inj heq).2 hform'
            simp only [List.cons_append, List.length_cons]
            omega
      · intro gap' opener' heq hopener'
        cases gap' with
        | nil =>
            refine absurd ?_ (hkey opener' value raw rest (.inr hopener') hform)
            rw [show opener' = c :: gap ++ opener from heq.symm]
            rfl
        | cons d gap' => exact hlongest gap' opener' (List.cons.inj heq).2 hopener'

variable (hapart : StartsApart Form)
include hapart

/-- What the reference scan finds is found. -/
theorem Scan.eq_located {front t : Text} {found : List (Span × β)}
    (h : Scan Form make front t found) : found = located (byteSize front) (pieces here t) := by
  induction h with
  | none front t hnone =>
      have hplain := pieces_plain_append here t [] fun before c more ht => by
        refine Option.eq_none_iff_forall_ne_some.mpr fun (made, rest) hread => ?_
        obtain ⟨_, ⟨opener, value, inner, -, hinner, -, rfl⟩, heq⟩ := (hhere _ _ _).mp hread
        refine hnone (before ++ opener) value inner rest ?_ hinner
        rw [ht, ← List.append_nil (c :: more), heq]
        simp
      rw [List.append_nil, pieces_nil, List.append_nil] at hplain
      have hnil := located_plain_append (byteSize front) t ([] : List (Piece β))
      rw [List.append_nil] at hnil
      rw [hplain, hnil]
      rfl
  | @next front gap opener raw rest value found hform hfirst hopener hlongest hmore ih =>
      have hread : here (opener ++ raw ++ rest) = some (make opener value, rest) :=
        (hhere _ _ _).mpr ⟨_, ⟨opener, value, raw, hopener, hform, rfl, rfl⟩, rfl⟩
      -- an annotation that starts earlier would have an earlier key or a longer opener
      have hplain := pieces_plain_append here gap (opener ++ raw ++ rest)
        fun before c more hgap => by
        refine Option.eq_none_iff_forall_ne_some.mpr fun (made, left) hfound => ?_
        obtain ⟨_, ⟨opener', value', inner, hopener', hinner, -, rfl⟩, heq⟩ :=
          (hhere _ _ _).mp hfound
        simp only [List.append_assoc, List.cons_append] at heq
        have hle := hfirst (before ++ opener') value' inner left (by
          simp only [hgap, List.append_assoc, List.cons_append, heq]) hinner
        have hge := length_le_of_opener_append_eq hapart (c :: more ++ opener) hopener' hform (by
            rw [← heq, List.append_assoc, List.cons_append])
        have hlength : opener'.length = (c :: more ++ opener).length := by
          rw [hgap] at hle
          simp only [List.length_append, List.length_cons] at hle hge ⊢
          omega
        have heq' : opener' ++ (inner ++ left) = c :: more ++ opener ++ (raw ++ rest) := by
          rw [← heq, List.append_assoc, List.cons_append]
        have hopener_eq : opener' = c :: more ++ opener := List.append_inj_left heq' hlength
        have hopener'' : IsOpener opener' := hopener'.resolve_left fun h => by
          simp [h] at hlength
        have hlong := hlongest before opener' (by rw [hgap, hopener_eq]; simp) hopener''
        simp only [hlength, List.length_append, List.length_cons] at hlong
        omega
      rw [List.append_assoc gap, List.append_assoc gap, hplain, located_plain_append,
        pieces_hit (by simp [hapart.ne_nil hform]) hread, located, ih]
      simp only [byteSize_append, Nat.add_assoc]

/-- What is found is what the reference scan finds. -/
theorem scan_located (front t : Text) :
    Scan Form make front t (located (byteSize front) (pieces here t)) := by
  refine pieces_induction (hhere.takesFront hapart.opened_ne_nil) (motive := fun t ps =>
    ∀ front, Scan Form make front t (located (byteSize front) ps)) ?_ ?_ ?_ t front
  · intro front
    refine Scan.none front [] fun before value raw rest heq hform => hapart.ne_nil hform ?_
    simp only [List.nil_eq, List.append_eq_nil_iff] at heq
    exact heq.1.2
  · intro c t hc ih front
    have hmore := ih (front ++ [c])
    rw [byteSize_append] at hmore
    exact Scan.cons hhere hc hmore
  · intro raw annotation rest hraw hread ih front
    obtain ⟨opener, value, inner, hopener, hinner, rfl, rfl⟩ := hhere.form hread
    have hnext := Scan.next front [] opener inner rest value hinner ?_ hopener ?_
      (by simpa only [List.append_nil, List.append_assoc] using ih (front ++ (opener ++ inner)))
    · simpa only [List.append_nil, List.nil_append, List.append_assoc, byteSize_append, located]
        using hnext
    · intro before value' raw' rest' heq hform'
      simp only [List.nil_append, List.append_assoc] at heq
      exact length_le_of_opener_append_eq hapart _ hopener hform' heq
    · intro gap' opener' heq _
      have hlength := congrArg List.length heq
      simp only [List.nil_append, List.length_append] at hlength
      omega

theorem scan_iff_eq_located (front t : Text) (found : List (Span × β)) :
    Scan Form make front t found ↔ found = located (byteSize front) (pieces here t) := by
  constructor
  · exact Scan.eq_located hhere hapart
  · rintro rfl
    exact scan_located hhere hapart front t

end Search

/-! ### Commented out -/

theorem mem_dropWhile {p : Char → Bool} {c : Char} {t : Text} (hc : c ∈ t) (hp : p c = false) :
    c ∈ t.dropWhile p := by
  rw [← List.takeWhile_append_dropWhile (p := p) (l := t)] at hc
  refine (List.mem_append.mp hc).resolve_left fun h => ?_
  simp [List.all_eq_true.mp List.all_takeWhile c h] at hp

theorem trim_ne_nil {t : Text} {c : Char} (hc : c ∈ t) (hblank : isBlank c = false) :
    trim t ≠ [] := by
  have hstart : c ∈ (trimStart t).reverse := List.mem_reverse.mpr (mem_dropWhile hc hblank)
  exact List.ne_nil_of_mem (List.mem_reverse.mpr (mem_dropWhile hstart hblank))

theorem commentsOut_iff {opener : Text} (h : opener = [] ∨ IsOpener opener) :
    commentsOut opener = true ↔ opener ≠ [] := by
  rcases h with rfl | ⟨marks, blanks, hne, hmarks, -, rfl⟩
  · simp [commentsOut, trim, trimStart, trimEnd]
  · obtain ⟨c, marks, rfl⟩ := List.exists_cons_of_ne_nil hne
    have hc := isBlank_of_isMark (hmarks c List.mem_cons_self)
    simpa [commentsOut] using trim_ne_nil (t := c :: marks ++ blanks) (by simp) hc

/-- The lists of style sheets of a text are those of the reference scan. One
is commented out if anything opens a comment in front of it. -/
theorem styleUrls_eq_iff_scan (t : Text) :
    (∀ found, styleUrls t = found ↔ Scan (Keyed styleKey IsList) StyleUrls.mk [] t found) ∧
    ∀ p ∈ styleUrls t, p.2.isCommentedOut = true ↔ p.2.opener ≠ [] := by
  constructor
  · intro found
    rw [scan_iff_eq_located exact_styleUrls? startsApart_styleKey]
    exact eq_comm
  · intro p hp
    obtain ⟨raw, ⟨opener, list, inner, hopener, -, heq, -⟩, -⟩ :=
      exact_styleUrls?.form_of_mem_located startsApart_styleKey.opened_ne_nil t hp
    rw [StyleUrls.isCommentedOut, heq]
    exact commentsOut_iff hopener

/-- The templates of a text are those of the reference scan. A key that lacks
what it needs hides no other: each place where a key is followed by that has
been found, or stands within what was found for an earlier key. -/
theorem templateUrls_eq_iff_scan (t : Text) :
    (∀ found, templateUrls t = found ↔ Scan (Keyed templateKey IsAddress)
      (fun opener address => TemplateUrl.mk opener address.1 address.2) [] t found) ∧
    (∀ before address raw rest, t = before ++ raw ++ rest →
      Keyed templateKey IsAddress address raw → ∃ p ∈ templateUrls t,
        p.1.start + byteSize p.2.opener ≤ byteSize before ∧ byteSize before < p.1.stop) ∧
    ∀ p ∈ templateUrls t, p.2.isCommentedOut = true ↔ p.2.opener ≠ [] := by
  have hscan : ∀ found, templateUrls t = found ↔ Scan (Keyed templateKey IsAddress)
      (fun opener address => TemplateUrl.mk opener address.1 address.2) [] t found := by
    intro found
    rw [scan_iff_eq_located exact_templateUrl? startsApart_templateKey]
    exact eq_comm
  refine ⟨hscan, fun before address raw rest ht hform => ?_, fun p hp => ?_⟩
  · exact ((hscan _).mp rfl).exists_covering TemplateUrl.opener (fun _ _ => rfl) ht hform
  · obtain ⟨raw, ⟨opener, address, inner, hopener, -, heq, -⟩, -⟩ :=
      exact_templateUrl?.form_of_mem_located startsApart_templateKey.opened_ne_nil t hp
    rw [TemplateUrl.isCommentedOut, heq]
    exact commentsOut_iff hopener

/-- A key with an empty address in front of a commented-out one. -/
theorem templateUrls_eq_iff_scan_behind_empty :
    "templateUrl: '' /*\n templateUrl:\"a\"".toList =
        "templateUrl: '' /*\n ".toList ++ "templateUrl:\"a\"".toList ++ [] ∧
      Keyed templateKey IsAddress (['a'], '"') "templateUrl:\"a\"".toList ∧
      ∃ p ∈ templateUrls "templateUrl: '' /*\n templateUrl:\"a\"".toList,
        p.1.start + byteSize p.2.opener ≤ byteSize "templateUrl: '' /*\n ".toList ∧
          byteSize "templateUrl: '' /*\n ".toList < p.1.stop := by
  have hform : Keyed templateKey IsAddress (['a'], '"') "templateUrl:\"a\"".toList :=
    ⟨[], [], "\"a\"".toList, by simp [Blank], by simp [Blank],
      ⟨.inl rfl, by decide, by decide, rfl⟩, rfl⟩
  exact ⟨rfl, hform, (templateUrls_eq_iff_scan _).2.1 _ _ _ [] rfl hform⟩

end Inlay.Annotation
