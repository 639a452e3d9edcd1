import Inlay.Proofs.Html.Attributes
import Inlay.Proofs.Html.Tokens

/-!
The white space of a tag. Collapsing goes by quotes alone, wherever in the tag
they stand. A tag keeps its attributes exactly if no white space that changes is
part of a value, be it that a stray quote put a quoted value outside of the
quotes that were counted, or that the slash of the tag's end joins a value
without quotes.
-/

namespace Inlay.Html

open Text

/-! ### Gaps -/

/-- A white space run outside the quotes that collapsing counts: where a reader
of attributes is in front of it, and what stands behind it. -/
structure Gap where
  place : Place
  space : Text
  behind : Text
  deriving DecidableEq, Repr

def endsTag : Text → Bool
  | [] => false
  | c :: t => c == '>' || (c == '/' && t.head? == some '>')

def spaceBefore (behind : Text) : Text := if behind = [] ∨ endsTag behind then [] else [' ']

/-- White space in a quoted value stays as it is, and white space that ends a
value without quotes is not in front of a slash that ends the tag. -/
def Gap.Harmless (g : Gap) : Prop :=
  (g.place.isQuoted = true → spaceBefore g.behind = g.space) ∧
    (g.place.isBare = true → g.behind.take 2 ≠ ['/', '>'])

instance (g : Gap) : Decidable g.Harmless := inferInstanceAs (Decidable (_ ∧ _))

/-- The gaps of a text; `quote` is the quote that is open, `inRun` says whether
white space was just passed. -/
def gapsFrom : Place → Option Char → Bool → Text → List Gap
  | _, _, _, [] => []
  | p, some q, _, c :: t => gapsFrom (p.read c).2 (if c = q then none else some q) false t
  | p, none, inRun, c :: t =>
    if isBlank c then
      (if inRun then [] else [⟨p, c :: t.takeWhile isBlank, t.dropWhile isBlank⟩]) ++
        gapsFrom (p.read c).2 none true t
    else gapsFrom (p.read c).2 (if c = '"' ∨ c = '\'' then some c else none) false t

def gaps (tag : Text) : List Gap :=
  gapsFrom .element none false (tag.drop (opening tag).length)

theorem gapsFrom_inRun (p : Place) (t : Text) :
    gapsFrom p none true t =
      gapsFrom (p.readAll (t.takeWhile isBlank)).2 none false (t.dropWhile isBlank) := by
  induction t generalizing p with
  | nil => rfl
  | cons c t ih =>
      by_cases hc : isBlank c = true
      · simp only [gapsFrom, hc, if_true, List.takeWhile_cons, List.dropWhile_cons]
        exact ih (p.read c).2
      · simp [gapsFrom, hc, Place.readAll]

theorem gapsFrom_blank (p : Place) {c : Char} (hc : isBlank c = true) (t : Text) :
    gapsFrom p none false (c :: t) = ⟨p, c :: t.takeWhile isBlank, t.dropWhile isBlank⟩ ::
      gapsFrom (p.readAll (c :: t.takeWhile isBlank)).2 none false (t.dropWhile isBlank) := by
  simp only [gapsFrom, hc, if_true, Bool.false_eq_true, if_false, List.singleton_append]
  rw [gapsFrom_inRun]
  rfl

theorem spaceBefore_cases (t : Text) : spaceBefore t = [] ∨ spaceBefore t = [' '] := by
  unfold spaceBefore
  split
  · exact .inl rfl
  · exact .inr rfl

theorem head?_of_spaceBefore_eq_nil {t : Text} (h : spaceBefore t = []) :
    ∀ c ∈ t.head?, c = '>' ∨ c = '/' ∧ t.take 2 = ['/', '>'] := by
  cases t with
  | nil => simp
  | cons c t =>
      intro d hd
      obtain rfl : c = d := Option.some.inj hd
      have hends : endsTag (c :: t) = true := by simpa [spaceBefore] using h
      simp only [endsTag, Bool.or_eq_true, Bool.and_eq_true, beq_iff_eq] at hends
      rcases hends with hclose | ⟨rfl, hnext⟩
      · exact .inl hclose
      · obtain ⟨rest, rfl⟩ := List.head?_eq_some_iff.mp hnext
        exact .inr ⟨rfl, rfl⟩

/-! ### Collapsing -/

theorem collapseTagFrom_cons {c : Char} (hc : isBlank c = false) (t : Text) :
    collapseTagFrom none false (c :: t) =
      c :: collapseTagFrom (if c = '"' ∨ c = '\'' then some c else none) false t := by
  simp [collapseTagFrom, hc]

theorem collapseTagFrom_pending {t : Text} (ht : markerOpen ∉ t) :
    collapseTagFrom none true t =
      spaceBefore (t.dropWhile isBlank) ++ collapseTagFrom none false (t.dropWhile isBlank) := by
  induction t with
  | nil => rfl
  | cons c t ih =>
      rw [List.mem_cons, not_or] at ht
      by_cases hc : isBlank c = true
      · rw [List.dropWhile_cons_of_pos hc, ← ih ht.2]
        simp [collapseTagFrom, hc]
      · rw [List.dropWhile_cons_of_neg hc]
        have hmarker : (c != markerOpen) = true := by simpa using Ne.symm ht.1
        cases hend : endsTag (c :: t) with
        | true =>
            have hcloses : (c == '>' || (c == '/' && t.head? == some '>')) = true := hend
            simp [collapseTagFrom, hc, hcloses, spaceBefore, hend]
        | false =>
            have hcloses : (c == '>' || (c == '/' && t.head? == some '>')) = false := hend
            simp [collapseTagFrom, hc, hcloses, hmarker, spaceBefore, hend]

theorem collapseTagFrom_blank {c : Char} (hc : isBlank c = true) {t : Text}
    (ht : markerOpen ∉ t) :
    collapseTagFrom none false (c :: t) =
      spaceBefore (t.dropWhile isBlank) ++ collapseTagFrom none false (t.dropWhile isBlank) := by
  rw [← collapseTagFrom_pending ht]
  simp [collapseTagFrom, hc]

/-- What starts with no white space keeps its first character. -/
theorem head?_collapseTagFrom {t : Text} (ht : Stops isBlank t) :
    (collapseTagFrom none false t).head? = t.head? := by
  cases t with
  | nil => rfl
  | cons c t =>
      rw [collapseTagFrom_cons (ht c rfl)]
      rfl

/-- A name stays as it is. -/
theorem takeWhile_collapseTagFrom {p : Char → Bool} (hblank : ∀ c, isBlank c = true → p c = false)
    (hend : p '>' = false) (hslash : p '/' = false) (quote : Option Char) {t : Text}
    (ht : markerOpen ∉ t) : (collapseTagFrom quote false t).takeWhile p = t.takeWhile p := by
  induction t generalizing quote with
  | nil => cases quote <;> rfl
  | cons c t ih =>
      have htail : markerOpen ∉ t := fun h => ht (List.mem_cons_of_mem c h)
      cases quote with
      | some q => rw [collapseTagFrom, List.takeWhile_cons, List.takeWhile_cons, ih _ htail]
      | none =>
          cases hc : isBlank c with
          | false =>
              rw [collapseTagFrom_cons hc, List.takeWhile_cons, List.takeWhile_cons, ih _ htail]
          | true =>
              have hstops : Stops p (collapseTagFrom none false (c :: t)) := by
                rw [collapseTagFrom_blank hc htail]
                intro d hd
                rcases spaceBefore_cases (t.dropWhile isBlank) with hspace | hspace
                · rw [hspace, List.nil_append,
                    head?_collapseTagFrom (stops_dropWhile isBlank t)] at hd
                  rcases head?_of_spaceBefore_eq_nil hspace d hd with rfl | ⟨rfl, -⟩
                  · exact hend
                  · exact hslash
                · rw [hspace] at hd
                  exact hblank d (Option.some.inj hd ▸ rfl)
              rw [List.takeWhile_cons_of_neg (by simp [hblank c hc])]
              have hnone : ∀ d ∈ ([] : Text), p d = true := by simp
              exact takeWhile_append hnone hstops

/-! ### Reading on behind a gap -/

variable {p : Place} {c : Char} {space b : Text}

theorem exists_rest_of_take_eq (h : b.take 2 = ['/', '>']) : ∃ rest, b = '/' :: '>' :: rest :=
  ⟨b.drop 2, by rw [← List.take_append_drop 2 b, h]; rfl⟩

theorem stops_takeWhile (hb : Stops isBlank b) (p : Char → Bool) :
    Stops isBlank (b.takeWhile p) := by
  cases b with
  | nil => exact hb
  | cons d b =>
      rw [List.takeWhile_cons]
      split
      · exact stops_cons (hb d rfl) _
      · simp [Stops]

/-- What white space is written for is not told by anything behind it. -/
theorem spaceBefore_eq_of_append_eq {t u : Text} (hspace : Blank (c :: space))
    (ht : Stops isBlank t) (h : spaceBefore b ++ t = c :: space ++ u) :
    spaceBefore b = c :: space := by
  rcases spaceBefore_cases b with hnone | hone
  · rw [hnone] at h
    have hc := ht c (by rw [show t = c :: space ++ u from h]; rfl)
    simp [hspace c List.mem_cons_self] at hc
  · rw [hone] at h ⊢
    obtain ⟨rfl, htail⟩ := List.cons.inj h
    cases space with
    | nil => rfl
    | cons d space =>
        have hd := ht d (by rw [show t = d :: space ++ u from htail]; rfl)
        simp [hspace d (by simp)] at hd

/-- In a quoted value white space is kept or the value is another one. -/
theorem attributesFrom_gap_iff_of_isQuoted {name value : Text} {quote : Char}
    (hquote : isBlank quote = false) (hspace : Blank (c :: space))
    (hb : Stops isBlank b) :
    attributesFrom (.quoted name quote value)
          (spaceBefore b ++ collapseTagFrom none false b) =
        attributesFrom (.quoted name quote value) (c :: space ++ b) ↔
      Gap.Harmless ⟨.quoted name quote value, c :: space, b⟩ ∧
        attributesFrom (Place.readAll (.quoted name quote value) (c :: space)).2
            (collapseTagFrom none false b) =
          attributesFrom (Place.readAll (.quoted name quote value) (c :: space)).2 b := by
  have hharmless : Gap.Harmless ⟨.quoted name quote value, c :: space, b⟩ ↔
      spaceBefore b = c :: space := by
    simp [Gap.Harmless, Place.isQuoted, Place.isBare]
  rw [hharmless]
  constructor
  · intro h
    have hsame : spaceBefore b = c :: space := by
      have hinside : ∀ d, isBlank d = true → decide (d ≠ quote) = true :=
        fun d hd => decide_eq_true (isBlank_ne hd hquote)
      have hwritten : ∀ d ∈ spaceBefore b, decide (d ≠ quote) = true := by
        intro d hd
        rcases spaceBefore_cases b with hnone | hone
        · simp [hnone] at hd
        · rw [hone, List.mem_singleton] at hd
          exact hinside d (hd ▸ rfl)
      have hstops : Stops isBlank (collapseTagFrom none false b) := by
        intro d hd
        exact hb d (head?_collapseTagFrom hb ▸ hd)
      -- the value that is read first is another one
      obtain ⟨_, hleft⟩ := exists_attributesFrom_quoted name quote value
        (spaceBefore b ++ collapseTagFrom none false b)
      obtain ⟨_, hright⟩ := exists_attributesFrom_quoted name quote value (c :: space ++ b)
      rw [hleft, hright, List.takeWhile_append_of_pos hwritten,
        List.takeWhile_append_of_pos fun d hd => hinside d (hspace d hd)] at h
      have hvalue := Option.some.inj (congrArg Attribute.value (List.cons.inj h).1)
      exact spaceBefore_eq_of_append_eq hspace (stops_takeWhile hstops _)
        (List.append_cancel_left hvalue)
    rw [hsame, attributesFrom_append, attributesFrom_append] at h
    exact ⟨hsame, List.append_cancel_left h⟩
  · rintro ⟨hsame, h⟩
    rw [hsame, attributesFrom_append, attributesFrom_append, h]

/-- A slash behind a value without quotes becomes part of it. -/
theorem attributesFrom_bare_slash_ne {name value rest : Text} {attributes : List Attribute} :
    attributesFrom (.bare name value) ('/' :: '>' :: rest) ≠
      ⟨name, some value⟩ :: attributes := by
  have hblank : isBlank '/' = false := rfl
  simp [attributesFrom_cons, Place.read, hblank]

/-- Elsewhere white space is as good as a space, and as nothing at the tag's end,
unless it keeps the tag's slash from a value without quotes. -/
theorem attributesFrom_gap_iff (hp : p.isQuoted = false)
    (hspace : Blank (c :: space)) (hb : Stops isBlank b) :
    attributesFrom p (spaceBefore b ++ collapseTagFrom none false b) =
        attributesFrom p (c :: space ++ b) ↔
      Gap.Harmless ⟨p, c :: space, b⟩ ∧
        attributesFrom (p.readAll (c :: space)).2 (collapseTagFrom none false b) =
          attributesFrom (p.readAll (c :: space)).2 b := by
  have hharmless : Gap.Harmless ⟨p, c :: space, b⟩ ↔
      (p.isBare = true → b.take 2 ≠ ['/', '>']) := by
    simp [Gap.Harmless, hp]
  rw [hharmless, attributesFrom_append p (c :: space), p.readAll_blank hp hspace]
  rcases spaceBefore_cases b with hnone | hone
  · rw [hnone, List.nil_append]
    by_cases hslash : p.isBare = true ∧ b.take 2 = ['/', '>']
    · obtain ⟨hbare, htake⟩ := hslash
      obtain ⟨rest, rfl⟩ := exists_rest_of_take_eq htake
      cases p with
      | bare name value =>
          have hne : attributesFrom (.bare name value)
              (collapseTagFrom none false ('/' :: '>' :: rest)) ≠
                ((Place.bare name value).read ' ').1 ++
                  attributesFrom ((Place.bare name value).read ' ').2 ('/' :: '>' :: rest) :=
            attributesFrom_bare_slash_ne
          exact iff_of_false hne fun h => h.1 hbare htake
      | _ => simp [Place.isBare] at hbare
    · have hhead : ∀ d ∈ (collapseTagFrom none false b).head?,
          d = '>' ∨ d = '/' ∧ p.isBare = false := by
        intro d hd
        rw [head?_collapseTagFrom hb] at hd
        rcases head?_of_spaceBefore_eq_nil hnone d hd with hclose | ⟨hd, htake⟩
        · exact .inl hclose
        · exact .inr ⟨hd, by simpa [htake] using hslash⟩
      rw [attributesFrom_space hp hhead, List.append_cancel_left_eq]
      exact (and_iff_right fun hbare htake => hslash ⟨hbare, htake⟩).symm
  · rw [hone, List.singleton_append, attributesFrom_cons, List.append_cancel_left_eq]
    refine (and_iff_right fun _ htake => ?_).symm
    obtain ⟨rest, rfl⟩ := exists_rest_of_take_eq htake
    simp [spaceBefore, endsTag] at hone

theorem Place.Proper.attributesFrom_gap_iff (hp : p.Proper)
    (hspace : Blank (c :: space)) (hb : Stops isBlank b) :
    attributesFrom p (spaceBefore b ++ collapseTagFrom none false b) =
        attributesFrom p (c :: space ++ b) ↔
      Gap.Harmless ⟨p, c :: space, b⟩ ∧
        attributesFrom (p.readAll (c :: space)).2 (collapseTagFrom none false b) =
          attributesFrom (p.readAll (c :: space)).2 b := by
  cases p with
  | quoted name quote value => exact attributesFrom_gap_iff_of_isQuoted hp hspace hb
  | _ => exact Html.attributesFrom_gap_iff rfl hspace hb

/-! ### Whole tags -/

/-- Collapsing and reading go side by side: between gaps both take the same
characters. -/
theorem attributesFrom_collapseTagFrom_iff (hp : p.Proper) (quote : Option Char) {t : Text}
    (ht : markerOpen ∉ t) :
    attributesFrom p (collapseTagFrom quote false t) = attributesFrom p t ↔
      ∀ g ∈ gapsFrom p quote false t, g.Harmless := by
  -- on the length, since a gap is passed at once
  induction hn : t.length using Nat.strongRecOn generalizing p quote t with
  | _ n ih =>
      cases t with
      | nil => cases quote <;> simp [collapseTagFrom, gapsFrom]
      | cons c t =>
          have htail : markerOpen ∉ t := fun h => ht (List.mem_cons_of_mem c h)
          have hshort : t.length < n := hn ▸ Nat.lt_succ_self _
          cases quote with
          | some q =>
              rw [collapseTagFrom, attributesFrom_cons, attributesFrom_cons,
                List.append_cancel_left_eq, gapsFrom]
              exact ih t.length hshort (hp.read c) _ htail rfl
          | none =>
              cases hc : isBlank c with
              | false =>
                  have hgaps : gapsFrom p none false (c :: t) = gapsFrom (p.read c).2
                      (if c = '"' ∨ c = '\'' then some c else none) false t := by
                    simp [gapsFrom, hc]
                  rw [collapseTagFrom_cons hc, attributesFrom_cons, attributesFrom_cons,
                    List.append_cancel_left_eq, hgaps]
                  exact ih t.length hshort (hp.read c) _ htail rfl
              | true =>
                  have hspace : ∀ d ∈ c :: t.takeWhile isBlank, isBlank d = true := by
                    intro d hd
                    rcases List.mem_cons.mp hd with rfl | hd
                    · exact hc
                    · exact List.mem_takeWhile_imp hd
                  have hsplit : c :: t.takeWhile isBlank ++ t.dropWhile isBlank = c :: t := by
                    rw [List.cons_append, List.takeWhile_append_dropWhile]
                  have hrest := ih (t.dropWhile isBlank).length
                    (Nat.lt_of_le_of_lt (List.dropWhile_sublist _).length_le hshort)
                    (hp.readAll (c :: t.takeWhile isBlank)) none
                    (fun h => htail ((List.dropWhile_sublist _).subset h)) rfl
                  rw [collapseTagFrom_blank hc htail, gapsFrom_blank p hc, List.forall_mem_cons,
                    ← hrest, ← hp.attributesFrom_gap_iff hspace (stops_dropWhile isBlank t), hsplit]

theorem isBlank_of_isNamePart {c : Char} (h : isNamePart c = true) : isBlank c = false := by
  simp only [isNamePart, Bool.or_eq_true, beq_iff_eq] at h
  rcases h with (((h | rfl) | rfl) | rfl) | rfl
  · exact isBlank_of_isAlphanum h
  all_goals rfl

/-- A tag starts with `<` and a character that is no white space. -/
theorem exists_of_opens {c : Char} {t : Text} (h : opens (c :: t) = true) :
    c = '<' ∧ ∃ d rest, t = d :: rest ∧ isBlank d = false := by
  unfold opens at h
  split at h
  · rename_i heq
    obtain ⟨rfl, rfl⟩ := List.cons.inj heq
    exact ⟨rfl, _, _, rfl, rfl⟩
  · rename_i d rest _ heq
    obtain ⟨rfl, rfl⟩ := List.cons.inj heq
    refine ⟨rfl, d, rest, rfl, ?_⟩
    simp only [Bool.or_eq_true, beq_iff_eq] at h
    rcases h with (rfl | rfl) | h
    · rfl
    · rfl
    · exact isBlank_of_isAlphanum (by simp [Char.isAlphanum, h])
  · contradiction

/-- What stands behind a tag's opening is collapsed on its own. -/
theorem exists_body_of_opens {raw text : Text} (hne : raw ≠ [])
    (hopens : opens (raw ++ text) = true) :
    ∃ front body, raw = front ++ body ∧ opening raw = front ∧
      collapseTag raw = front ++ collapseTagFrom none false body ∧
      opening (collapseTag raw) = front := by
  obtain ⟨c, raw, rfl⟩ := List.exists_cons_of_ne_nil hne
  obtain ⟨rfl, d, rest, hrest, hd⟩ := exists_of_opens hopens
  have hless : isBlank '<' = false := rfl
  cases raw with
  | nil => exact ⟨['<'], [], rfl, rfl, rfl, rfl⟩
  | cons e raw =>
      obtain rfl : e = d := (List.cons.inj hrest).1
      have hcollapsed : collapseTag ('<' :: e :: raw) =
          '<' :: collapseTagFrom none false (e :: raw) := by
        rw [collapseTag, collapseTagFrom_cons hless]
        rfl
      by_cases hslash : e = '/'
      · subst hslash
        have hbody : collapseTagFrom none false ('/' :: raw) =
            '/' :: collapseTagFrom none false raw := by
          rw [collapseTagFrom_cons hd]
          rfl
        rw [hbody] at hcollapsed
        exact ⟨['<', '/'], raw, rfl, rfl, hcollapsed, by rw [hcollapsed]; rfl⟩
      · have hopening : ∀ t, opening ('<' :: e :: t) = ['<'] := by
          intro t
          simp [opening, Text.startsWith, after?, Ne.symm hslash]
        refine ⟨['<'], e :: raw, rfl, hopening raw, hcollapsed, ?_⟩
        rw [hcollapsed, collapseTagFrom_cons hd, hopening]

/-- The names of a tag stay. Its attributes stay exactly if no gap does harm:
white space in a quoted value, wherever the quotes that collapsing counts leave
it outside, is a single space that is not in front of the tag's end, and no white
space stands between a value without quotes and the slash of the tag's end. -/
theorem collapseTag_keeps_attributes_iff {t raw : Text} (htag : .tag raw ∈ tokenize t)
    (hmarker : markerOpen ∉ raw) :
    tagName (collapseTag raw) = tagName raw ∧ elementName (collapseTag raw) = elementName raw ∧
    (attributes (collapseTag raw) = attributes raw ↔ ∀ g ∈ gaps raw, g.Harmless) := by
  obtain ⟨before, behind, htokens⟩ := List.append_of_mem htag
  obtain ⟨text, rest, -, hopens, hend, -, -⟩ := exists_rest_of_tokenize htokens
  have hne : raw ≠ [] := List.length_pos_iff.mp (tagEnd?_pos hend)
  obtain ⟨front, body, rfl, hopening, hcollapsed, hopeningCollapsed⟩ :=
    exists_body_of_opens hne hopens
  have hbody : markerOpen ∉ body := fun h => hmarker (List.mem_append_right _ h)
  have hdrop : (front ++ body).drop (opening (front ++ body)).length = body := by
    rw [hopening, List.drop_left]
  have hdropCollapsed : (collapseTag (front ++ body)).drop
      (opening (collapseTag (front ++ body))).length = collapseTagFrom none false body := by
    rw [hopeningCollapsed, hcollapsed, List.drop_left]
  refine ⟨?_, ?_, ?_⟩
  · rw [tagName, tagName, writtenName, writtenName, hdrop, hdropCollapsed,
      takeWhile_collapseTagFrom _ rfl rfl none hbody]
    intro c hc
    exact Bool.eq_false_iff.mpr fun hname => by simp [isBlank_of_isNamePart hname] at hc
  · rw [elementName, elementName, hdrop, hdropCollapsed,
      takeWhile_collapseTagFrom _ rfl rfl none hbody]
    intro c hc
    simp [hc]
  · rw [attributes, attributes, gaps, hdrop, hdropCollapsed]
    exact attributesFrom_collapseTagFrom_iff (p := .element) trivial none hbody

/-- White space around an equals sign, in a quoted value and in front of the
tag's end. -/
theorem collapseTag_keeps_attributes_iff_spaced :
    .tag "<input  title = \"a  b\"\n v=c  checked  />".toList ∈
      tokenize "<input  title = \"a  b\"\n v=c  checked  />".toList ∧
    markerOpen ∉ "<input  title = \"a  b\"\n v=c  checked  />".toList ∧
    attributes (collapseTag "<input  title = \"a  b\"\n v=c  checked  />".toList) =
      attributes "<input  title = \"a  b\"\n v=c  checked  />".toList := by
  have htag : .tag "<input  title = \"a  b\"\n v=c  checked  />".toList ∈
      tokenize "<input  title = \"a  b\"\n v=c  checked  />".toList := by decide +kernel
  have hmarker : markerOpen ∉ "<input  title = \"a  b\"\n v=c  checked  />".toList := by
    decide +kernel
  have hiff := (collapseTag_keeps_attributes_iff htag hmarker).2.2
  exact ⟨htag, hmarker, hiff.mpr (by decide +kernel)⟩

/-- The slash of the tag's end joins a value without quotes, and a quote that
belongs to such a value turns the quotes of the next one around. -/
theorem collapseTag_changes_values :
    (.tag "<input value=a />".toList ∈ tokenize "<input value=a />".toList ∧
      markerOpen ∉ "<input value=a />".toList ∧
      attributes "<input value=a />".toList = [⟨"value".toList, some "a".toList⟩] ∧
      attributes (collapseTag "<input value=a />".toList) =
        [⟨"value".toList, some "a/".toList⟩]) ∧
    .tag "<img width=5\" alt=\"a  b\" height=6\">".toList ∈
      tokenize "<img width=5\" alt=\"a  b\" height=6\">".toList ∧
    markerOpen ∉ "<img width=5\" alt=\"a  b\" height=6\">".toList ∧
    attributes "<img width=5\" alt=\"a  b\" height=6\">".toList =
      [⟨"width".toList, some "5\"".toList⟩, ⟨"alt".toList, some "a  b".toList⟩,
        ⟨"height".toList, some "6\"".toList⟩] ∧
    attributes (collapseTag "<img width=5\" alt=\"a  b\" height=6\">".toList) =
      [⟨"width".toList, some "5\"".toList⟩, ⟨"alt".toList, some "a b".toList⟩,
        ⟨"height".toList, some "6\"".toList⟩] := by
  decide +kernel

end Inlay.Html
