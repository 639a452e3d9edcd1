import Inlay.Proofs.Text.Pieces
import Inlay.Stylesheet.Reference
import Mathlib.Data.List.TakeWhile

/-!
The dialect and the stem of an address. The dots and slashes in front are taken
off as far as an extension is left, so the dot of the extension is given back
where nothing but dots and slashes stands in front of it. What comes of this is
the address without its suffix and then without its leading run of dots and
slashes.
-/

namespace Inlay.Stylesheet

open Text

def isLead (c : Char) : Bool := c == '.' || c == '/'

def suffixes : List (Text × Dialect) :=
  [(".css".toList, .css), (".less".toList, .less), (".scss".toList, .scss)]

theorem mem_suffixes_iff {suffix : Text} {dialect : Dialect} :
    (suffix, dialect) ∈ suffixes ↔
      ∃ extension, (extension, dialect) ∈ Dialect.extensions ∧ suffix = '.' :: extension := by
  constructor
  · intro h
    simp only [suffixes, List.mem_cons, Prod.mk.injEq, List.not_mem_nil, or_false] at h
    rcases h with ⟨rfl, rfl⟩ | ⟨rfl, rfl⟩ | ⟨rfl, rfl⟩
    · exact ⟨"css".toList, by decide, rfl⟩
    · exact ⟨"less".toList, by decide, rfl⟩
    · exact ⟨"scss".toList, by decide, rfl⟩
  · rintro ⟨extension, h, rfl⟩
    simp only [Dialect.extensions, List.mem_cons, Prod.mk.injEq, List.not_mem_nil, or_false] at h
    rcases h with ⟨rfl, rfl⟩ | ⟨rfl, rfl⟩ | ⟨rfl, rfl⟩ <;> decide

theorem dot_notMem_of_mem_extensions {extension : Text} {dialect : Dialect}
    (h : (extension, dialect) ∈ Dialect.extensions) : '.' ∉ extension := by
  have hall : ∀ p ∈ Dialect.extensions, '.' ∉ p.1 := by decide
  exact hall _ h

theorem eq_of_mem_extensions {extension : Text} {dialect other : Dialect}
    (h : (extension, dialect) ∈ Dialect.extensions)
    (hother : (extension, other) ∈ Dialect.extensions) : dialect = other := by
  have hall : ∀ p ∈ Dialect.extensions, ∀ q ∈ Dialect.extensions, p.1 = q.1 → p.2 = q.2 := by
    decide
  exact hall _ h _ hother rfl

theorem ofExtension_of_mem {extension : Text} {dialect : Dialect}
    (h : (extension, dialect) ∈ Dialect.extensions) :
    Dialect.ofExtension extension = dialect := by
  have hall : ∀ p ∈ Dialect.extensions, Dialect.ofExtension p.1 = p.2 := by decide
  exact hall _ h

/-- A text is cut at its last dot in one way only. -/
theorem eq_of_dotted_eq {a b x y : Text} (hx : '.' ∉ x) (hy : '.' ∉ y)
    (h : a ++ '.' :: x = b ++ '.' :: y) : a = b ∧ x = y := by
  have hlast : ∀ {a x : Text}, '.' ∉ x →
      (a ++ '.' :: x).reverse.takeWhile (· ≠ '.') = x.reverse := by
    intro a x hx
    have hreverse : (a ++ '.' :: x).reverse = x.reverse ++ '.' :: a.reverse := by simp
    rw [hreverse]
    exact (reads_up_to (by simpa using hx) _).1
  have hxy : x = y := List.reverse_inj.mp (by rw [← hlast hx, h, hlast hy])
  subst hxy
  exact ⟨List.append_cancel_right h, rfl⟩

/-! ### What is read -/

theorem suffixed?_eq_some {t stem : Text} {dialect : Dialect}
    (h : suffixed? t = some (stem, dialect)) :
    ∃ extension, (extension, dialect) ∈ Dialect.extensions ∧ t = stem ++ '.' :: extension := by
  obtain ⟨⟨extension, found⟩, hmem, hfound⟩ := List.exists_of_findSome?_eq_some h
  obtain ⟨rest, hrest, heq⟩ := Option.map_eq_some_iff.mp hfound
  obtain ⟨rfl, rfl⟩ := Prod.mk.inj heq
  rw [ofExtension_of_mem hmem]
  exact ⟨extension, hmem, eq_of_before? hrest⟩

theorem suffixed?_append {extension : Text} {dialect : Dialect}
    (h : (extension, dialect) ∈ Dialect.extensions) (body : Text) :
    suffixed? (body ++ '.' :: extension) = some (body, dialect) := by
  cases hread : suffixed? (body ++ '.' :: extension) with
  | none =>
      have hnone := List.findSome?_eq_none_iff.mp hread _ h
      simp [before?_append] at hnone
  | some found =>
      obtain ⟨stem, other⟩ := found
      obtain ⟨extension', hmem, heq⟩ := suffixed?_eq_some hread
      obtain ⟨rfl, rfl⟩ := eq_of_dotted_eq (dot_notMem_of_mem_extensions h)
        (dot_notMem_of_mem_extensions hmem) heq
      rw [eq_of_mem_extensions hmem h]

theorem stripped_eq_some {t stem : Text} {dialect : Dialect}
    (h : stripped t = some (stem, dialect)) :
    ∃ front extension, (extension, dialect) ∈ Dialect.extensions ∧
      t = front ++ (stem ++ '.' :: extension) := by
  induction t with
  | nil => contradiction
  | cons c t ih =>
      rw [stripped] at h
      split at h
      · rename_i found hfound
        obtain rfl := Option.some.inj h
        split at hfound
        · obtain ⟨front, extension, hmem, rfl⟩ := ih hfound
          exact ⟨c :: front, extension, hmem, rfl⟩
        · contradiction
      · obtain ⟨extension, hmem, ht⟩ := suffixed?_eq_some h
        exact ⟨[], extension, hmem, ht⟩

theorem stripped_of_dot_notMem {t : Text} (h : '.' ∉ t) : stripped t = none := by
  cases hread : stripped t with
  | none => rfl
  | some found =>
      obtain ⟨stem, dialect⟩ := found
      obtain ⟨front, extension, -, rfl⟩ := stripped_eq_some hread
      simp at h

/-- The run in front goes as far as it is part of the body: its last dot is
given back where it belongs to the suffix. -/
theorem stripped_append {extension : Text} {dialect : Dialect}
    (h : (extension, dialect) ∈ Dialect.extensions) (body : Text) :
    stripped (body ++ '.' :: extension) = some (body.dropWhile isLead, dialect) := by
  induction body with
  | nil =>
      have hnone := stripped_of_dot_notMem (dot_notMem_of_mem_extensions h)
      simpa [stripped, hnone] using suffixed?_append h []
  | cons c body ih =>
      rw [List.cons_append, stripped]
      by_cases hc : c = '.' ∨ c = '/'
      · have hlead : isLead c = true := by simpa [isLead] using hc
        rw [if_pos hc, ih, List.dropWhile_cons_of_pos hlead]
      · rw [if_neg hc, List.dropWhile_cons_of_neg (by simpa [isLead] using hc)]
        exact suffixed?_append h (c :: body)

/-! ### Classification -/

theorem classify_append {suffix : Text} {dialect : Dialect} (h : (suffix, dialect) ∈ suffixes)
    (body : Text) : classify (body ++ suffix) = (body.dropWhile isLead, dialect) := by
  obtain ⟨extension, hmem, rfl⟩ := mem_suffixes_iff.mp h
  rw [classify, stripped_append hmem, Option.getD_some]

theorem classify_of_no_suffix {url : Text} (h : ∀ p ∈ suffixes, ¬p.1 <:+ url) :
    classify url = (url, .unsupported) := by
  cases hread : stripped url with
  | none => rw [classify, hread, Option.getD_none]
  | some found =>
      obtain ⟨stem, dialect⟩ := found
      obtain ⟨front, extension, hmem, rfl⟩ := stripped_eq_some hread
      refine (h _ (mem_suffixes_iff.mpr ⟨extension, hmem, rfl⟩) ⟨front ++ stem, ?_⟩).elim
      rw [List.append_assoc]

theorem exists_body_or_no_suffix (url : Text) :
    (∃ body suffix dialect, (suffix, dialect) ∈ suffixes ∧ url = body ++ suffix) ∨
      ∀ p ∈ suffixes, ¬p.1 <:+ url := by
  by_cases h : ∃ p ∈ suffixes, p.1 <:+ url
  · obtain ⟨⟨suffix, dialect⟩, hmem, body, hbody⟩ := h
    exact .inl ⟨body, suffix, dialect, hmem, hbody.symm⟩
  · exact .inr fun p hp hsuffix => h ⟨p, hp, hsuffix⟩

/-- The dialect is that of the suffix, of which an address has one at most, and
the stem is what is left in front of the suffix without its leading run of dots
and slashes; it is empty if there is nothing else. An address with no such
suffix is not supported and is its own stem. -/
theorem classify_by_suffix (url : Text) :
    (∀ p ∈ suffixes, (classify url).2 = p.2 ↔ p.1 <:+ url) ∧
    (∀ p ∈ suffixes, ∀ q ∈ suffixes, p.1 <:+ url → q.1 <:+ url → p = q) ∧
    ((classify url).2 = .unsupported ↔ ∀ p ∈ suffixes, ¬p.1 <:+ url) ∧
    (∀ p ∈ suffixes, ∀ body, url = body ++ p.1 →
      (classify url).1 = body.dropWhile isLead ∧
        ((classify url).1 = [] ↔ ∀ c ∈ body, c = '.' ∨ c = '/')) ∧
    ((classify url).2 = .unsupported → (classify url).1 = url) := by
  have hdialect : ∀ p ∈ suffixes, p.1 <:+ url → (classify url).2 = p.2 := by
    rintro p hp ⟨body, rfl⟩
    rw [classify_append hp]
  have hinjective : ∀ p ∈ suffixes, ∀ q ∈ suffixes, p.2 = q.2 → p = q := by decide
  have hsupported : ∀ p ∈ suffixes, p.2 ≠ .unsupported := by decide
  refine ⟨fun p hp => ⟨fun h => ?_, hdialect p hp⟩, fun p hp q hq hpurl hqurl => ?_,
    ⟨fun h p hp hurl => ?_, fun h => ?_⟩, fun p hp body hbody => ?_, fun h => ?_⟩
  · rcases exists_body_or_no_suffix url with ⟨body, suffix, dialect, hmem, rfl⟩ | hnone
    · rw [classify_append hmem] at h
      rw [hinjective p hp _ hmem h.symm]
      exact List.suffix_append body suffix
    · rw [classify_of_no_suffix hnone] at h
      exact (hsupported p hp h.symm).elim
  · exact hinjective p hp q hq (by rw [← hdialect p hp hpurl, hdialect q hq hqurl])
  · exact hsupported p hp (by rw [← hdialect p hp hurl, h])
  · rw [classify_of_no_suffix h]
  · have hstem : (classify url).1 = body.dropWhile isLead := by rw [hbody, classify_append hp]
    refine ⟨hstem, ?_⟩
    rw [hstem, List.dropWhile_eq_nil_iff]
    simp [isLead]
  · rcases exists_body_or_no_suffix url with ⟨body, suffix, dialect, hmem, rfl⟩ | hnone
    · rw [classify_append hmem] at h
      exact (hsupported _ hmem h).elim
    · rw [classify_of_no_suffix hnone]

/-- An extension behind another one, and one behind nothing but dots and
slashes. -/
example : classify "../.css.less".toList = ("css".toList, .less) ∧
    classify "./...scss".toList = ([], .scss) := by decide +kernel

end Inlay.Stylesheet
