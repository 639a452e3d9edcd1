import Inlay.Annotation.UrlList
import Inlay.Proofs.Json.Values

/-!
Lists of addresses that are written and read back. Each address stands in
quotes of either kind, and white space may stand wherever JSON lets it. With
its quotes doubled such a list is a JSON list of strings, each of which stands
for itself.
-/

namespace Inlay.Annotation

open Text

/-- An address in quotes, with the white space around it. -/
structure Written where
  url : Text
  quote : Char
  front : Text
  back : Text
  plain : ∀ c ∈ url, c ≠ '\'' ∧ c ≠ '"' ∧ c ≠ '\\' ∧ 0x20 ≤ c.toNat
  quotes : quote = '\'' ∨ quote = '"'
  spaced : Json.Spaces front ∧ Json.Spaces back

def Written.text (w : Written) : Text :=
  w.front ++ w.quote :: w.url ++ w.quote :: w.back

/-- A list of addresses in brackets. The white space behind the opening bracket
is that of the empty list too. -/
structure Layout where
  lead : Text
  gap : Text
  addresses : List Written
  trail : Text
  spaced : Json.Spaces lead ∧ Json.Spaces gap ∧ Json.Spaces trail

namespace Layout

def text (l : Layout) : Text :=
  l.lead ++ '[' :: l.gap ++ join [','] (l.addresses.map Written.text) ++ ']' :: l.trail

def urls (l : Layout) : List Text := l.addresses.map Written.url

end Layout

/-! ### Doubled quotes -/

theorem doubleQuoted_append (t u : Text) :
    doubleQuoted (t ++ u) = doubleQuoted t ++ doubleQuoted u :=
  List.map_append

theorem doubleQuoted_cons {c : Char} (h : c ≠ '\'') (t : Text) :
    doubleQuoted (c :: t) = c :: doubleQuoted t := by
  rw [doubleQuoted, List.map_cons, if_neg h]
  rfl

theorem doubleQuoted_of_notMem {t : Text} (h : '\'' ∉ t) : doubleQuoted t = t := by
  induction t with
  | nil => rfl
  | cons c t ih =>
      rw [List.mem_cons, not_or] at h
      rw [doubleQuoted_cons (Ne.symm h.1), ih h.2]

theorem doubleQuoted_spaces {ws : Text} (h : Json.Spaces ws) : doubleQuoted ws = ws :=
  doubleQuoted_of_notMem fun hmem => absurd (h _ hmem) (by decide)

theorem doubleQuoted_join (parts : List Text) :
    doubleQuoted (join [','] parts) = join [','] (parts.map doubleQuoted) := by
  cases parts with
  | nil => rfl
  | cons part parts =>
      have hrest : doubleQuoted (parts.flatMap (',' :: ·)) =
          (parts.map doubleQuoted).flatMap (',' :: ·) := by
        rw [doubleQuoted, List.map_flatMap, List.flatMap_map]
        rfl
      rw [List.map_cons, Json.join_cons, Json.join_cons, doubleQuoted_append, hrest]

/-! ### The JSON form -/

namespace Written

def item (w : Written) : Json.Item where
  front := w.front
  value := '"' :: w.url ++ ['"']
  back := w.back

theorem doubleQuoted_text (w : Written) : doubleQuoted w.text = w.item.text := by
  have hquote : ∀ t, doubleQuoted (w.quote :: t) = '"' :: doubleQuoted t := by
    intro t
    rcases w.quotes with h | h <;> rw [h] <;> rfl
  have hurl : doubleQuoted w.url = w.url :=
    doubleQuoted_of_notMem fun hmem => (w.plain _ hmem).1 rfl
  rw [text, doubleQuoted_append, doubleQuoted_append, hquote, hquote, hurl,
    doubleQuoted_spaces w.spaced.1, doubleQuoted_spaces w.spaced.2]
  simp [Json.Item.text, item]

theorem isText_item (w : Written) : w.item.IsText w.url :=
  ⟨w.url, Json.spells_of_plain fun c hc => (w.plain c hc).2, rfl⟩

end Written

namespace Layout

/-- With its quotes doubled the list is JSON. -/
theorem isTextList (l : Layout) : Json.IsTextList (doubleQuoted l.text) l.urls := by
  let items := l.addresses.map fun w => (w.item, w.url)
  obtain ⟨hlead, hgap, htrail⟩ := l.spaced
  have hitems : doubleQuoted (join [','] (l.addresses.map Written.text)) =
      join [','] (items.map (·.1.text)) := by
    rw [doubleQuoted_join, List.map_map, List.map_map]
    exact congrArg _ (List.map_congr_left fun w _ => w.doubleQuoted_text)
  have htext : doubleQuoted l.text =
      l.lead ++ '[' :: l.gap ++ join [','] (items.map (·.1.text)) ++ ']' :: l.trail := by
    rw [text, doubleQuoted_append, doubleQuoted_append, doubleQuoted_append,
      doubleQuoted_cons (by decide), doubleQuoted_cons (by decide), hitems,
      doubleQuoted_spaces hlead, doubleQuoted_spaces hgap, doubleQuoted_spaces htrail]
  have hurls : l.urls = items.map Prod.snd := by
    rw [urls, List.map_map]
    rfl
  rw [htext, hurls]
  exact .items l.spaced (List.forall_mem_map.mpr fun w _ => w.spaced)
    (List.forall_mem_map.mpr fun w _ => w.isText_item)

end Layout

/-! ### Reading back -/

/-- Whatever the quotes and the white space, a list is read as the addresses
that were written, in their order, by any parser that takes JSON lists of
strings. -/
theorem urlList_reads_written {parse : Text → Except Json.Complaint (List Text)}
    (hparse : ∀ t texts, Json.IsTextList t texts → parse t = .ok texts) (l : Layout) :
    urlListWith parse l.text = .ok l.urls := by
  rw [urlListWith, hparse _ _ l.isTextList]
  rfl

def twoLines : Layout where
  lead := []
  gap := []
  addresses := [
    { url := "a.css".toList, quote := '\'', front := "\r\n  ".toList, back := [' ']
      plain := by simp, quotes := by decide, spaced := by decide },
    { url := "/ü, b.less".toList, quote := '"', front := "\n\t".toList, back := "\n".toList
      plain := by simp, quotes := by decide, spaced := by decide }]
  trail := [' ']
  spaced := by decide

theorem urlList_reads_written_twoLines :
    urlList "[\r\n  'a.css' ,\n\t\"/ü, b.less\"\n] ".toList =
      .ok ["a.css".toList, "/ü, b.less".toList] :=
  urlList_reads_written (fun _ _ h => Json.parse_readTextList h) twoLines

end Inlay.Annotation
