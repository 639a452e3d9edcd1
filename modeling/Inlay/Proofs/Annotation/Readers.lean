import Inlay.Annotation
import Inlay.Proofs.Text.Splice

/-!
What the readers of annotations read. Each accepts exactly the texts of a form
and leaves what stands behind them, so that annotations stand one behind the
other in a source.
-/

namespace Inlay.Annotation

open Text

/-! ### Forms -/

/-- The reader accepts exactly the texts of a form, whatever follows them. -/
def Exact (here : Text → Option (α × Text)) (Form : α → Text → Prop) : Prop :=
  ∀ t value rest, here t = some (value, rest) ↔ ∃ raw, Form value raw ∧ t = raw ++ rest

def StartsApart (Form : α → Text → Prop) : Prop :=
  ∀ value raw, Form value raw → ∃ c more, raw = c :: more ∧ isMark c = false ∧ isBlank c = false

def Blank (t : Text) : Prop := ∀ c ∈ t, isBlank c = true

def IsOpener (t : Text) : Prop :=
  ∃ marks blanks, marks ≠ [] ∧ (∀ c ∈ marks, isMark c = true) ∧ Blank blanks ∧ t = marks ++ blanks

def Keyed (key : Text) (Form : α → Text → Prop) (value : α) (raw : Text) : Prop :=
  ∃ before behind body, Blank before ∧ Blank behind ∧ Form value body ∧
    raw = key ++ before ++ ':' :: behind ++ body

def Opened (Form : α → Text → Prop) (make : Text → α → β) (made : β) (raw : Text) : Prop :=
  ∃ opener value inner, (opener = [] ∨ IsOpener opener) ∧ Form value inner ∧
    made = make opener value ∧ raw = opener ++ inner

/-- An opening bracket, a character, another one that is no newline, and all
up to the first closing bracket behind them. -/
def IsList (list raw : Text) : Prop :=
  raw = list ∧ ∃ first second inner, second ≠ '\n' ∧ ']' ∉ inner ∧
    list = '[' :: first :: second :: inner ++ [']']

def IsAddress (address : Text × Char) (raw : Text) : Prop :=
  (address.2 = '"' ∨ address.2 = '\'') ∧ address.1 ≠ [] ∧ address.2 ∉ address.1 ∧
    raw = address.2 :: address.1 ++ [address.2]

theorem Exact.takesFront {here : Text → Option (α × Text)} {Form : α → Text → Prop}
    (h : Exact here Form) (hne : ∀ value raw, Form value raw → raw ≠ []) : TakesFront here := by
  intro t value rest hread
  obtain ⟨raw, hraw, ht⟩ := (h t value rest).mp hread
  exact ⟨raw, hne value raw hraw, ht⟩

theorem Exact.form {here : Text → Option (α × Text)} {Form : α → Text → Prop}
    (h : Exact here Form) {raw rest : Text} {value : α}
    (hread : here (raw ++ rest) = some (value, rest)) : Form value raw := by
  obtain ⟨raw', hraw, heq⟩ := (h _ value rest).mp hread
  rwa [List.append_cancel_right heq]

/-- What was found is of the form, and its span is as long as the text that was
read. -/
theorem Exact.form_of_mem_located {here : Text → Option (α × Text)} {Form : α → Text → Prop}
    (h : Exact here Form) (hne : ∀ value raw, Form value raw → raw ≠ []) {p : Span × α} (t : Text)
    (hp : p ∈ located 0 (pieces here t)) :
    ∃ raw, Form p.2 raw ∧ p.1.stop = p.1.start + byteSize raw := by
  obtain ⟨before, raw, rest, -, hread, hspan⟩ :=
    exists_read_of_mem_located (h.takesFront hne) t hp
  exact ⟨raw, h.form hread, by rw [hspan, byteSize_append]⟩

theorem StartsApart.stops {Form : α → Text → Prop} (h : StartsApart Form) {value : α}
    {raw : Text} (hraw : Form value raw) (rest : Text) :
    Stops isMark (raw ++ rest) ∧ Stops isBlank (raw ++ rest) := by
  obtain ⟨c, more, rfl, hmark, hblank⟩ := h value raw hraw
  simp [Stops, hmark, hblank]

theorem StartsApart.ne_nil {Form : α → Text → Prop} (h : StartsApart Form) {value : α}
    {raw : Text} (hraw : Form value raw) : raw ≠ [] := by
  obtain ⟨c, more, rfl, -⟩ := h value raw hraw
  simp

theorem StartsApart.opened_ne_nil {Form : α → Text → Prop} (h : StartsApart Form)
    {make : Text → α → β} (made : β) (raw : Text) (hraw : Opened Form make made raw) :
    raw ≠ [] := by
  obtain ⟨opener, value, inner, -, hinner, -, rfl⟩ := hraw
  simp [h.ne_nil hinner]

/-! ### Readers -/

theorem key?_eq_some_iff {key t rest : Text} :
    key? key t = some rest ↔ Stops isBlank rest ∧
      ∃ before behind, Blank before ∧ Blank behind ∧
        t = key ++ before ++ ':' :: behind ++ rest := by
  simp only [key?, Option.bind_eq_bind, Option.bind_eq_some_iff]
  constructor
  · rintro ⟨behindKey, hkey, h⟩
    have hbefore : behindKey = behindKey.takeWhile isBlank ++ trimStart behindKey :=
      List.takeWhile_append_dropWhile.symm
    split at h
    · rename_i more hmore
      obtain rfl := Option.some.inj h
      refine ⟨stops_dropWhile isBlank more, behindKey.takeWhile isBlank, more.takeWhile isBlank,
        List.all_eq_true.mp List.all_takeWhile, List.all_eq_true.mp List.all_takeWhile, ?_⟩
      rw [hmore] at hbefore
      rw [eq_of_after? hkey, trimStart, List.append_assoc, List.append_assoc, List.cons_append,
        List.takeWhile_append_dropWhile, ← hbefore]
    · contradiction
  · rintro ⟨hrest, before, behind, hbefore, hbehind, rfl⟩
    have hcolon : Stops isBlank (':' :: (behind ++ rest)) := stops_cons rfl _
    refine ⟨before ++ ':' :: (behind ++ rest), ?_, ?_⟩
    · simpa using after?_append key (before ++ ':' :: (behind ++ rest))
    · simp only [trimStart, dropWhile_append hbefore hcolon,
        dropWhile_append hbehind hrest]

theorem exact_keyed {body : Text → Option (α × Text)} {Form : α → Text → Prop} (key : Text)
    (hbody : Exact body Form) (hapart : StartsApart Form) :
    Exact (fun t => (key? key t).bind body) (Keyed key Form) := by
  intro t value rest
  simp only [Option.bind_eq_some_iff, key?_eq_some_iff, hbody _ _ _]
  constructor
  · rintro ⟨_, ⟨-, before, behind, hbefore, hbehind, rfl⟩, raw, hraw, rfl⟩
    exact ⟨key ++ before ++ ':' :: behind ++ raw,
      ⟨before, behind, raw, hbefore, hbehind, hraw, rfl⟩, by simp⟩
  · rintro ⟨_, ⟨before, behind, raw, hbefore, hbehind, hraw, rfl⟩, rfl⟩
    exact ⟨raw ++ rest, ⟨(hapart.stops hraw rest).2, before, behind, hbefore, hbehind, by simp⟩,
      raw, hraw, rfl⟩

theorem startsApart_keyed {key : Text} {c : Char} {more : Text} (hkey : key = c :: more)
    (hmark : isMark c = false) (hblank : isBlank c = false) (Form : α → Text → Prop) :
    StartsApart (Keyed key Form) := by
  rintro value raw ⟨before, behind, body, -, -, -, rfl⟩
  exact ⟨c, more ++ before ++ ':' :: behind ++ body, by simp [hkey], hmark, hblank⟩

theorem isBlank_of_isMark {c : Char} (h : isMark c = true) : isBlank c = false := by
  simp only [isMark, Bool.or_eq_true, beq_iff_eq] at h
  rcases h with rfl | rfl <;> rfl

theorem exact_opened {body : Text → Option (α × Text)} {Form : α → Text → Prop}
    (hbody : Exact body Form) (hapart : StartsApart Form) :
    Exact (opened? body) (Opened Form Prod.mk) := by
  intro t ⟨opener, value⟩ rest
  constructor
  · intro h
    have hmarks : t = t.takeWhile isMark ++ t.dropWhile isMark :=
      List.takeWhile_append_dropWhile.symm
    have hall : ∀ c ∈ t.takeWhile isMark, isMark c = true := List.all_eq_true.mp List.all_takeWhile
    simp only [opened?] at h
    split at h
    · rename_i inner left hinner
      simp only [Option.some.injEq, Prod.mk.injEq] at h
      obtain ⟨⟨rfl, rfl⟩, rfl⟩ := h
      obtain ⟨raw, hraw, heq⟩ := (hbody _ _ _).mp hinner
      refine ⟨t.takeWhile isMark ++ raw, ⟨_, _, raw, ?_, hraw, rfl, rfl⟩, ?_⟩
      · by_cases hnone : t.takeWhile isMark = []
        · exact .inl hnone
        · exact .inr ⟨_, [], hnone, hall, by simp [Blank], by simp⟩
      · rw [List.append_assoc, ← heq, ← hmarks]
    · split at h
      · contradiction
      · rename_i hnone
        obtain ⟨⟨inner, left⟩, hinner, heq⟩ := Option.map_eq_some_iff.mp h
        simp only [Prod.mk.injEq] at heq
        obtain ⟨⟨rfl, rfl⟩, rfl⟩ := heq
        obtain ⟨raw, hraw, heq⟩ := (hbody _ _ _).mp hinner
        refine ⟨_, ⟨_, _, raw, .inr ⟨t.takeWhile isMark, (t.dropWhile isMark).takeWhile isBlank,
          hnone, hall, List.all_eq_true.mp List.all_takeWhile, rfl⟩, hraw, rfl, rfl⟩, ?_⟩
        rw [List.append_assoc, List.append_assoc, ← heq, trimStart,
          List.takeWhile_append_dropWhile, ← hmarks]
  · rintro ⟨_, ⟨opener', value', inner, hopener, hinner, heq, rfl⟩, rfl⟩
    simp only [Prod.mk.injEq] at heq
    obtain ⟨rfl, rfl⟩ := heq
    obtain ⟨hmark, hblank⟩ := hapart.stops hinner rest
    have hread : body (inner ++ rest) = some (value, rest) := (hbody _ _ _).mpr ⟨inner, hinner, rfl⟩
    rcases hopener with rfl | ⟨marks, blanks, hmarks, hmarksAll, hblanks, rfl⟩
    · have hnone : ∀ c ∈ ([] : Text), isMark c = true := by simp
      have htake := takeWhile_append hnone hmark
      have hdrop := dropWhile_append hnone hmark
      simp only [List.nil_append] at htake hdrop ⊢
      simp only [opened?, htake, hdrop, hread]
    · cases blanks with
      | nil =>
          have htake := takeWhile_append hmarksAll hmark
          have hdrop := dropWhile_append hmarksAll hmark
          simp only [List.append_nil, List.append_assoc] at htake hdrop ⊢
          simp only [opened?, htake, hdrop, hread]
      | cons c blanks =>
          have hc : isBlank c = true := hblanks c List.mem_cons_self
          have hstops : Stops isMark (c :: blanks ++ (inner ++ rest)) := by
            intro d hd
            obtain rfl := Option.some.inj hd
            exact Bool.eq_false_iff.mpr fun h => by simp [isBlank_of_isMark h] at hc
          -- the body does not read white space
          have hnone : body (c :: blanks ++ (inner ++ rest)) = none := by
            refine Option.eq_none_iff_forall_ne_some.mpr fun (found, left) hfound => ?_
            obtain ⟨raw, hraw, heq⟩ := (hbody _ _ _).mp hfound
            have hraw := (hapart.stops hraw left).2 c (by rw [← heq]; rfl)
            simp [hraw] at hc
          have htake := takeWhile_append hmarksAll hstops
          have hdrop := dropWhile_append hmarksAll hstops
          have htrim : trimStart (c :: blanks ++ (inner ++ rest)) = inner ++ rest :=
            dropWhile_append hblanks hblank
          have hrun := takeWhile_append hblanks hblank
          simp only [List.append_assoc] at htake hdrop ⊢
          simp only [opened?, htake, hdrop, hnone, hmarks, if_false, htrim, hrun, hread,
            Option.map_some]

theorem exact_map_opened {body : Text → Option (α × Text)} {Form : α → Text → Prop}
    (hbody : Exact body Form) (hapart : StartsApart Form) (make : Text → α → β) :
    Exact (fun t => (opened? body t).map fun ((opener, value), left) => (make opener value, left))
      (Opened Form make) := by
  intro t made rest
  rw [Option.map_eq_some_iff]
  constructor
  · rintro ⟨⟨⟨opener, value⟩, left⟩, hread, heq⟩
    simp only [Prod.mk.injEq] at heq
    obtain ⟨rfl, rfl⟩ := heq
    obtain ⟨raw, ⟨opener', value', inner, hopener, hinner, heq, rfl⟩, rfl⟩ :=
      (exact_opened hbody hapart _ _ _).mp hread
    simp only [Prod.mk.injEq] at heq
    obtain ⟨rfl, rfl⟩ := heq
    exact ⟨_, ⟨opener, value, inner, hopener, hinner, rfl, rfl⟩, rfl⟩
  · rintro ⟨raw, ⟨opener, value, inner, hopener, hinner, rfl, rfl⟩, rfl⟩
    exact ⟨((opener, value), rest), (exact_opened hbody hapart _ _ _).mpr
      ⟨_, ⟨opener, value, inner, hopener, hinner, rfl, rfl⟩, rfl⟩, rfl⟩

theorem exact_list? : Exact list? IsList := by
  intro t list rest
  constructor
  · intro h
    unfold list? at h
    split at h
    · rename_i first second t
      split at h
      · rename_i close left hleft
        obtain ⟨rfl, hclose⟩ := eq_append_of_dropWhile_ne hleft
        split at h
        · contradiction
        · rename_i hsecond
          simp only [Option.some.injEq, Prod.mk.injEq] at h
          obtain ⟨rfl, rfl⟩ := h
          refine ⟨_, ⟨rfl, first, second, _, hsecond, ?_, rfl⟩, by simpa using hclose⟩
          intro hmem
          simpa using List.all_eq_true.mp List.all_takeWhile _ hmem
      · contradiction
    · contradiction
  · rintro ⟨raw, ⟨rfl, first, second, inner, hsecond, hinner, rfl⟩, rfl⟩
    obtain ⟨htake, hdrop⟩ := reads_up_to hinner rest
    simp only [List.cons_append, List.append_assoc, List.nil_append, list?, htake, hdrop, hsecond,
      if_false]

theorem exact_url? : Exact url? IsAddress := by
  intro t ⟨url, quote⟩ rest
  constructor
  · intro h
    unfold url? at h
    split at h
    · contradiction
    · rename_i q t
      simp only at h
      split at h
      · rename_i close left hleft
        obtain ⟨rfl, hclose⟩ := eq_append_of_dropWhile_ne hleft
        split at h
        · rename_i hq
          simp only [Option.some.injEq, Prod.mk.injEq] at h
          obtain ⟨⟨rfl, rfl⟩, rfl⟩ := h
          refine ⟨_, ⟨hq.1, hq.2, ?_, rfl⟩, by simpa using hclose⟩
          intro hmem
          simpa using List.all_eq_true.mp List.all_takeWhile _ hmem
        · contradiction
      · contradiction
  · rintro ⟨_, ⟨hquote, hne, hurl, rfl⟩, rfl⟩
    obtain ⟨htake, hdrop⟩ := reads_up_to hurl rest
    simp only [List.cons_append, List.append_assoc, List.nil_append, url?, htake, hdrop]
    exact if_pos ⟨hquote, hne⟩

theorem startsApart_isList : StartsApart IsList := by
  rintro list raw ⟨rfl, first, second, inner, -, -, rfl⟩
  exact ⟨'[', first :: second :: inner ++ [']'], rfl, rfl, rfl⟩

theorem startsApart_isAddress : StartsApart IsAddress := by
  rintro ⟨url, quote⟩ raw ⟨hquote, -, -, rfl⟩
  refine ⟨quote, url ++ [quote], rfl, ?_⟩
  rcases hquote with rfl | rfl <;> exact ⟨rfl, rfl⟩

/-! ### Annotations -/

theorem startsApart_styleKey : StartsApart (Keyed styleKey IsList) :=
  startsApart_keyed (c := 's') rfl rfl rfl IsList

theorem startsApart_templateKey : StartsApart (Keyed templateKey IsAddress) :=
  startsApart_keyed (c := 't') rfl rfl rfl IsAddress

theorem exact_styleUrls? : Exact styleUrls? (Opened (Keyed styleKey IsList) StyleUrls.mk) :=
  exact_map_opened (exact_keyed styleKey exact_list? startsApart_isList) startsApart_styleKey _

theorem exact_templateUrl? :
    Exact templateUrl? (Opened (Keyed templateKey IsAddress)
      fun opener address => TemplateUrl.mk opener address.1 address.2) :=
  exact_map_opened (exact_keyed templateKey exact_url? startsApart_isAddress)
    startsApart_templateKey fun opener address => TemplateUrl.mk opener address.1 address.2

theorem takesFront_styleUrls? : TakesFront styleUrls? :=
  exact_styleUrls?.takesFront startsApart_styleKey.opened_ne_nil

theorem takesFront_templateUrl? : TakesFront templateUrl? :=
  exact_templateUrl?.takesFront startsApart_templateKey.opened_ne_nil

theorem placed_styleUrls (t : Text) : Placed 0 ((styleUrls t).map Prod.fst) t :=
  placed_found takesFront_styleUrls? t

theorem placed_templateUrls (t : Text) : Placed 0 ((templateUrls t).map Prod.fst) t :=
  placed_found takesFront_templateUrl? t

/-- A list stands in the text right in front of the end of its annotation. -/
theorem exists_list_of_mem_styleUrls {t : Text} {p : Span × StyleUrls} (hp : p ∈ styleUrls t) :
    ∃ before first second inner rest, second ≠ '\n' ∧ ']' ∉ inner ∧
      p.2.list = '[' :: first :: second :: inner ++ [']'] ∧
      t = before ++ p.2.list ++ rest ∧ p.1.stop = byteSize (before ++ p.2.list) := by
  obtain ⟨before, raw, rest, rfl, hread, hspan⟩ :=
    exists_read_of_mem_located takesFront_styleUrls? t hp
  obtain ⟨opener, list, _, -, ⟨blanks, blanks', body, -, -, hlist, rfl⟩, hp2, rfl⟩ :=
    exact_styleUrls?.form hread
  obtain ⟨rfl, first, second, inner, hsecond, hinner, heq⟩ := hlist
  rw [hspan, hp2]
  exact ⟨before ++ opener ++ (styleKey ++ blanks ++ ':' :: blanks'), first, second, inner, rest,
    hsecond, hinner, heq, by simp, by simp⟩

end Inlay.Annotation
