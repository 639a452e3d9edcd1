import Inlay.Json.Record
import Inlay.Proofs.Json.Passing

/-!
Values that are read. A reader of a field sees all that is left of a text, but
what it makes of a value depends on the value alone: it takes exactly this
value, or it refuses it, whatever stands around.
-/

namespace Inlay.Json

open Text

variable {α β : Type}

def valueOf? (read : Text → Except Fault (α × Text)) (v : Text) : Option α :=
  (read v).toOption.map Prod.fst

/-- The reader takes a value as what it makes of the value alone. -/
def ReadsAlone (read : Text → Except Fault (α × Text)) : Prop :=
  ∀ v ws rest, IsValue v → Spaces ws → Delimited rest →
    (read (ws ++ (v ++ rest))).toOption = (valueOf? read v).map (·, rest)

theorem ReadsAlone.item {read : Text → Except Fault (α × Text)} (h : ReadsAlone read) {i : Item}
    (hspaced : i.Spaced) (hvalue : IsValue i.value) {rest : Text} (hrest : Delimited rest) :
    (read (i.text ++ rest)).toOption = (valueOf? read i.value).map (·, i.back ++ rest) := by
  rw [Item.text, List.append_assoc, List.append_assoc]
  exact h _ _ _ hvalue hspaced.1 (hspaced.2.delimited_append hrest)

theorem spaces_nil : Spaces [] := by simp [Spaces]

theorem valueOf?_eq {read : Text → Except Fault (α × Text)} {v : Text} {outcome : Option α}
    (h : ∀ ws rest, Spaces ws → Delimited rest →
      (read (ws ++ (v ++ rest))).toOption = outcome.map (·, rest)) : valueOf? read v = outcome := by
  have hread := h [] [] spaces_nil delimited_nil
  rw [List.nil_append, List.append_nil] at hread
  rw [valueOf?, hread, Option.map_map]
  exact Option.map_id'

theorem readsAlone_of_outcomes {read : Text → Except Fault (α × Text)}
    (h : ∀ v, IsValue v → ∃ outcome : Option α, ∀ ws rest, Spaces ws → Delimited rest →
      (read (ws ++ (v ++ rest))).toOption = outcome.map (·, rest)) : ReadsAlone read := by
  intro v ws rest hv hws hrest
  obtain ⟨outcome, houtcome⟩ := h v hv
  rw [valueOf?_eq houtcome]
  exact houtcome ws rest hws hrest

/-! ### Whole texts -/

theorem toOption_parse (read : Text → Except Fault (α × Text)) (t : Text) :
    (parse read t).toOption =
      (read t).toOption.bind fun (a, rest) => if skipSpace rest = [] then some a else none := by
  unfold parse
  split
  · rename_i hread
    rw [hread]
    rfl
  · rename_i hread
    rw [hread, apply_ite Except.toOption]
    rfl

/-- Around the only value of a text white space may stand. -/
theorem ReadsAlone.toOption_parse {read : Text → Except Fault (α × Text)} (h : ReadsAlone read)
    {lead v trail : Text} (hlead : Spaces lead) (hv : IsValue v) (htrail : Spaces trail) :
    (parse read (lead ++ (v ++ trail))).toOption = valueOf? read v := by
  have hrest : Delimited trail := by
    rw [← List.append_nil trail]
    exact htrail.delimited_append delimited_nil
  rw [Json.toOption_parse, h v lead trail hv hlead hrest]
  cases valueOf? read v with
  | none => rfl
  | some a => simp [htrail.skipSpace_eq_nil]

/-! ### What readers look at first -/

section Heads

variable {ws t : Text} {c : Char} (hws : Spaces ws) (hc : isSpace c = false)
include hws hc

theorem toValue_append : toValue (ws ++ c :: t) = .ok (c :: t) := by
  have hskip : skipSpace (ws ++ c :: t) = c :: t := by
    rw [skipSpace_append hws, skipSpace_cons hc]
  simp [toValue, hskip]

theorem toOption_readBehind (opening : Char) (expected : Expected)
    (inner : Text → Except Fault (α × Text)) :
    (readBehind opening expected inner (ws ++ c :: t)).toOption =
      if c = opening then (inner t).toOption else none := by
  simp only [readBehind, toValue_append hws hc, List.head?_cons, Option.some.injEq,
    List.tail_cons]
  split <;> rfl

theorem toOption_readBoolean :
    (readBoolean (ws ++ c :: t)).toOption =
      if c = 't' then (readIdent "rue".toList t).toOption.map (true, ·)
      else if c = 'f' then (readIdent "alse".toList t).toOption.map (false, ·) else none := by
  simp only [readBoolean, toValue_append hws hc]
  split
  · contradiction
  · rename_i heq
    obtain ⟨rfl, rfl⟩ := List.cons.inj (Except.ok.inj heq)
    exact toOption_map _ _
  · rename_i heq
    obtain ⟨rfl, rfl⟩ := List.cons.inj (Except.ok.inj heq)
    exact toOption_map _ _
  · rename_i htrue hfalse heq
    obtain rfl := Except.ok.inj heq
    rw [if_neg fun h => htrue t (by rw [h]), if_neg fun h => hfalse t (by rw [h])]
    rfl

theorem toOption_readOptional (read : Text → Except Fault (α × Text)) :
    (readOptional read (ws ++ c :: t)).toOption =
      if c = 'n' then (readIdent "ull".toList t).toOption.map (none, ·)
      else (read (c :: t)).toOption.map fun (a, rest) => (some a, rest) := by
  have hskip : skipSpace (ws ++ c :: t) = c :: t := by
    rw [skipSpace_append hws, skipSpace_cons hc]
  simp only [readOptional, hskip]
  split
  · rename_i heq
    obtain ⟨rfl, rfl⟩ := List.cons.inj heq
    exact toOption_map _ _
  · rename_i hother
    rw [if_neg fun hnull => hother t (by rw [hnull])]
    exact toOption_map _ _

end Heads

/-- A reader of values that start with a certain character takes a value alone if
what is behind that character is taken so. Any other value is refused. -/
theorem readsAlone_readBehind {opening : Char} {expected : Expected}
    {inner : Text → Except Fault (α × Text)}
    (h : ∀ t, IsValue (opening :: t) → ∃ outcome : Option α, ∀ rest, Delimited rest →
      (inner (t ++ rest)).toOption = outcome.map (·, rest)) :
    ReadsAlone (readBehind opening expected inner) := by
  refine readsAlone_of_outcomes fun v hv => ?_
  obtain ⟨c, t, rfl, hc⟩ := hv.exists_head
  have hread : ∀ ws rest, Spaces ws → (readBehind opening expected inner
      (ws ++ (c :: t ++ rest))).toOption =
        if c = opening then (inner (t ++ rest)).toOption else none :=
    fun ws rest hws => toOption_readBehind hws (isSpace_of_startsValue hc) _ _ _
  by_cases hopening : c = opening
  · subst hopening
    obtain ⟨outcome, houtcome⟩ := h t hv
    refine ⟨outcome, fun ws rest hws hrest => ?_⟩
    rw [hread ws rest hws, if_pos rfl, houtcome rest hrest]
  · refine ⟨none, fun ws rest hws _ => ?_⟩
    rw [hread ws rest hws, if_neg hopening]
    rfl

theorem readIdent_append (word rest : Text) : readIdent word (word ++ rest) = .ok rest := by
  induction word with
  | nil => rfl
  | cons c word ih => simp [readIdent, ih]

/-! ### Strings and booleans -/

theorem readsAlone_readText : ReadsAlone readText := by
  refine readsAlone_readBehind fun t hv => ?_
  obtain ⟨body, hbody, rfl⟩ := hv.exists_body
  refine ⟨spelled? body, fun rest _ => ?_⟩
  rw [List.append_assoc]
  exact readString_body hbody rest

theorem valueOf?_text {body : Text} (hbody : IsBody body) :
    valueOf? readText ('"' :: body ++ ['"']) = spelled? body := by
  have hread := toOption_readBehind spaces_nil (c := '"') (t := body ++ ['"']) (by decide) '"'
    .text readString
  rw [List.nil_append, if_pos rfl, readString_body hbody] at hread
  rw [valueOf?, readText, List.cons_append, hread, Option.map_map]
  exact Option.map_id'

theorem readsAlone_readBoolean : ReadsAlone readBoolean := by
  refine readsAlone_of_outcomes fun v hv => ?_
  obtain ⟨c, t, rfl, hc⟩ := hv.exists_head
  have hread : ∀ ws rest, Spaces ws → (readBoolean (ws ++ (c :: t ++ rest))).toOption =
      if c = 't' then (readIdent "rue".toList (t ++ rest)).toOption.map (true, ·)
      else if c = 'f' then (readIdent "alse".toList (t ++ rest)).toOption.map (false, ·)
      else none :=
    fun ws rest hws => toOption_readBoolean hws (isSpace_of_startsValue hc)
  by_cases htrue : c = 't'
  · subst htrue
    obtain rfl : t = "rue".toList := by
      simpa [words, null] using hv.mem_words_of_letter (by decide)
    refine ⟨some true, fun ws rest hws _ => ?_⟩
    rw [hread ws rest hws, if_pos rfl, readIdent_append]
    rfl
  · by_cases hfalse : c = 'f'
    · subst hfalse
      obtain rfl : t = "alse".toList := by
        simpa [words, null] using hv.mem_words_of_letter (by decide)
      refine ⟨some false, fun ws rest hws _ => ?_⟩
      rw [hread ws rest hws, if_neg htrue, if_pos rfl, readIdent_append]
      rfl
    · refine ⟨none, fun ws rest hws _ => ?_⟩
      rw [hread ws rest hws, if_neg htrue, if_neg hfalse]
      rfl

/-! ### Lists of strings -/

theorem readText_skipSpace (t : Text) : readText (skipSpace t) = readText t := by
  simp only [readText, readBehind, toValue, skipSpace_skipSpace]

theorem readTexts_spaces (first : Bool) {ws : Text} (h : Spaces ws) (t : Text) :
    readTexts first (ws ++ t) = readTexts first t := by
  rw [readTexts_eq, readTexts_eq first t]
  simp only [nextElement, skipSpace_append h]

theorem readTexts_closing (first : Bool) (rest : Text) :
    readTexts first (']' :: rest) = .ok ([], rest) := by
  have hskip : skipSpace (']' :: rest) = ']' :: rest := skipSpace_cons (by decide) rest
  rw [readTexts_eq]
  simp [nextElement, hskip]

/-- In front of the first element nothing stands where in front of the others
there is a comma. -/
theorem nextElement_first {i : Item} (hspaced : i.Spaced) (hvalue : IsValue i.value)
    (rest : Text) :
    nextElement true (i.text ++ rest) = .ok (some (skipSpace (i.text ++ rest)), []) ∧
      nextElement false (',' :: (i.text ++ rest)) =
        .ok (some (skipSpace (i.text ++ rest)), []) := by
  obtain ⟨c, more, hskip, hc⟩ := i.skipSpace_text hspaced hvalue rest
  have hclose : c ≠ ']' := by
    rintro rfl
    exact absurd hc (by decide)
  have hcomma : skipSpace (',' :: (i.text ++ rest)) = ',' :: (i.text ++ rest) :=
    skipSpace_cons (by decide) _
  constructor
  · simp [nextElement, hskip, hclose]
  · simp [nextElement, hcomma, hskip, hclose]

theorem readTexts_first {i : Item} (hspaced : i.Spaced) (hvalue : IsValue i.value) (rest : Text) :
    readTexts true (i.text ++ rest) = readTexts false (',' :: (i.text ++ rest)) := by
  obtain ⟨hfirst, hother⟩ := nextElement_first hspaced hvalue rest
  rw [readTexts_eq, hfirst, readTexts_eq, hother]

/-- An element is read as it is read alone, and then what is behind it. -/
theorem readTexts_item {i : Item} (hspaced : i.Spaced) (hvalue : IsValue i.value) {rest : Text}
    (hrest : Delimited rest) :
    (readTexts false (',' :: (i.text ++ rest))).toOption =
      (valueOf? readText i.value).bind fun s =>
        (readTexts false rest).toOption.map fun (ss, left) => (s :: ss, left) := by
  have hread : (readText (skipSpace (i.text ++ rest))).toOption =
      (valueOf? readText i.value).map (·, i.back ++ rest) := by
    rw [readText_skipSpace]
    exact readsAlone_readText.item hspaced hvalue hrest
  rw [readTexts_eq, (nextElement_first hspaced hvalue rest).2]
  dsimp only
  cases htext : readText (skipSpace (i.text ++ rest)) with
  | error fault =>
      rw [htext] at hread
      rw [Option.map_eq_none_iff.mp hread.symm]
      rfl
  | ok p =>
      rw [htext] at hread
      obtain ⟨s, hs, hp⟩ := Option.map_eq_some_iff.mp hread.symm
      rw [hs, ← hp]
      dsimp only
      rw [readTexts_spaces false hspaced.2, toOption_map]
      rfl

/-- Elements are read one by one, each as it is read alone. -/
theorem readTexts_items {items : List Item} (hspaced : ∀ i ∈ items, i.Spaced)
    (hvalues : ∀ i ∈ items, IsValue i.value) (rest : Text) :
    (readTexts false ((items.map Item.text).flatMap (',' :: ·) ++ ']' :: rest)).toOption =
      (items.mapM fun i => valueOf? readText i.value).map (·, rest) := by
  induction items with
  | nil =>
      rw [List.map_nil, List.flatMap_nil, List.nil_append, readTexts_closing]
      rfl
  | cons i items ih =>
      have ih := ih (fun j hj => hspaced j (List.mem_cons_of_mem _ hj))
        (fun j hj => hvalues j (List.mem_cons_of_mem _ hj))
      rw [List.map_cons, List.flatMap_cons, List.append_assoc, List.cons_append,
        readTexts_item (hspaced i List.mem_cons_self) (hvalues i List.mem_cons_self)
          (delimited_flatMap (.inl rfl) _ _), ih, List.mapM_cons]
      cases valueOf? readText i.value with
      | none => rfl
      | some s => cases items.mapM fun i => valueOf? readText i.value <;> rfl

theorem readTexts_list {gap : Text} {items : List Item} (hgap : Spaces gap)
    (hspaced : ∀ i ∈ items, i.Spaced) (hvalues : ∀ i ∈ items, IsValue i.value) (rest : Text) :
    (readTexts true (gap ++ (join [','] (items.map Item.text) ++ ']' :: rest))).toOption =
      (items.mapM fun i => valueOf? readText i.value).map (·, rest) := by
  rw [readTexts_spaces true hgap]
  cases items with
  | nil =>
      have hempty : join [','] (List.map Item.text []) ++ ']' :: rest = ']' :: rest := rfl
      rw [hempty, readTexts_closing]
      rfl
  | cons i items =>
      rw [List.map_cons, join_cons, List.append_assoc,
        readTexts_first (hspaced i List.mem_cons_self) (hvalues i List.mem_cons_self),
        ← readTexts_items hspaced hvalues rest, List.map_cons, List.flatMap_cons,
        List.append_assoc, List.cons_append]

theorem readsAlone_readTextList : ReadsAlone readTextList := by
  refine readsAlone_readBehind fun t hv => ?_
  obtain ⟨gap, items, hgap, hspaced, hvalues, rfl⟩ := hv.exists_items
  refine ⟨items.mapM fun i => valueOf? readText i.value, fun rest _ => ?_⟩
  simp only [List.append_assoc, List.singleton_append]
  exact readTexts_list hgap hspaced hvalues rest

theorem valueOf?_list {gap : Text} {items : List Item} (hgap : Spaces gap)
    (hspaced : ∀ i ∈ items, i.Spaced) (hvalues : ∀ i ∈ items, IsValue i.value) :
    valueOf? readTextList ('[' :: gap ++ join [','] (items.map Item.text) ++ [']']) =
      items.mapM fun i => valueOf? readText i.value := by
  have hread := toOption_readBehind spaces_nil (c := '[')
    (t := gap ++ (join [','] (items.map Item.text) ++ [']'])) (by decide) '[' .sequence
    (readTexts true)
  rw [List.nil_append, if_pos rfl, readTexts_list hgap hspaced hvalues] at hread
  rw [valueOf?, readTextList, List.cons_append, List.cons_append, List.append_assoc, hread,
    Option.map_map]
  exact Option.map_id'

theorem Item.IsText.isValue {i : Item} {s : Text} (h : i.IsText s) : IsValue i.value := by
  obtain ⟨body, hspells, hvalue⟩ := h
  rw [hvalue]
  exact .text hspells.isBody

theorem Item.IsText.valueOf? {i : Item} {s : Text} (h : i.IsText s) :
    valueOf? readText i.value = some s := by
  obtain ⟨body, hspells, hvalue⟩ := h
  rw [hvalue, valueOf?_text hspells.isBody, spelled?_eq_some_iff.mpr hspells]

theorem mapM_valueOf?_of_texts {items : List (Item × Text)}
    (htexts : ∀ i ∈ items, i.1.IsText i.2) :
    (items.map Prod.fst).mapM (fun i => valueOf? readText i.value) =
      some (items.map Prod.snd) := by
  induction items with
  | nil => rfl
  | cons i items ih =>
      rw [List.forall_mem_cons] at htexts
      rw [List.map_cons, List.mapM_cons, htexts.1.valueOf?, ih htexts.2]
      rfl

/-- The library's own reader takes every list of strings. -/
theorem parse_readTextList {t : Text} {texts : List Text} (h : IsTextList t texts) :
    parse readTextList t = .ok texts := by
  cases h with
  | @items lead gap trail items hspaces hspaced htexts =>
      obtain ⟨hlead, hgap, htrail⟩ := hspaces
      have hspaced : ∀ i ∈ items.map Prod.fst, i.Spaced := List.forall_mem_map.mpr hspaced
      have hvalues : ∀ i ∈ items.map Prod.fst, IsValue i.value :=
        List.forall_mem_map.mpr fun i hi => (htexts i hi).isValue
      have hread := readsAlone_readTextList.toOption_parse hlead
        (.list hgap hspaced hvalues) htrail
      rw [valueOf?_list hgap hspaced hvalues, mapM_valueOf?_of_texts htexts,
        toOption_eq_some_iff] at hread
      simpa [Function.comp_def] using hread

/-! ### Readers made from others -/

theorem valueOf?_map (f : α → β) (r : Reader α) (v : Text) :
    valueOf? (r.map f).read v = (valueOf? r.read v).map f := by
  simp only [valueOf?, Reader.map, toOption_map, Option.map_map]
  rfl

theorem ReadsAlone.map {r : Reader α} (h : ReadsAlone r.read) (f : α → β) :
    ReadsAlone (r.map f).read := by
  intro v ws rest hv hws hrest
  rw [valueOf?_map]
  simp only [Reader.map, toOption_map, h v ws rest hv hws hrest, Option.map_map]
  rfl

theorem IsValue.null_or_head_ne {v : Text} (h : IsValue v) :
    v = null ∨ ∃ c t, v = c :: t ∧ isSpace c = false ∧ c ≠ 'n' := by
  obtain ⟨c, t, rfl, hc⟩ := h.exists_head
  by_cases hnull : c = 'n'
  · subst hnull
    have hword := h.mem_words_of_letter (by decide)
    exact .inl (by simpa [words, null] using hword)
  · exact .inr ⟨c, t, rfl, isSpace_of_startsValue hc, hnull⟩

/-- A null is read as nothing. -/
theorem readOptional_null (read : Text → Except Fault (α × Text)) {ws : Text} (hws : Spaces ws)
    (rest : Text) : (readOptional read (ws ++ (null ++ rest))).toOption = some (none, rest) := by
  have hread : (readOptional read (ws ++ 'n' :: ("ull".toList ++ rest))).toOption =
      some (none, rest) := by
    rw [toOption_readOptional hws (by decide), if_pos rfl, readIdent_append]
    rfl
  exact hread

theorem readOptional_value {r : Reader α} (h : ReadsAlone r.read) {v ws rest : Text}
    (hv : IsValue v) (hnull : v ≠ null) (hws : Spaces ws) (hrest : Delimited rest) :
    (readOptional r.read (ws ++ (v ++ rest))).toOption =
      ((valueOf? r.read v).map some).map (·, rest) := by
  have halone := h v [] rest hv spaces_nil hrest
  obtain ⟨c, t, rfl, hspace, hc⟩ := hv.null_or_head_ne.resolve_left hnull
  rw [List.nil_append] at halone
  rw [List.cons_append] at halone ⊢
  rw [toOption_readOptional hws hspace, if_neg hc, halone, Option.map_map, Option.map_map]
  rfl

theorem valueOf?_optional_null (r : Reader α) : valueOf? r.optional.read null = some none :=
  valueOf?_eq fun _ rest hws _ => readOptional_null r.read hws rest

theorem valueOf?_optional {r : Reader α} (h : ReadsAlone r.read) {v : Text} (hv : IsValue v)
    (hnull : v ≠ null) : valueOf? r.optional.read v = (valueOf? r.read v).map some :=
  valueOf?_eq fun _ _ hws hrest => readOptional_value h hv hnull hws hrest

theorem ReadsAlone.optional {r : Reader α} (h : ReadsAlone r.read) :
    ReadsAlone r.optional.read := by
  refine readsAlone_of_outcomes fun v hv => ?_
  by_cases hnull : v = null
  · subst hnull
    exact ⟨some none, fun ws rest hws _ => readOptional_null r.read hws rest⟩
  · exact ⟨(valueOf? r.read v).map some,
      fun ws rest hws hrest => readOptional_value h hv hnull hws hrest⟩

end Inlay.Json
