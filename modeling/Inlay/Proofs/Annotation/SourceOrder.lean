import Inlay.Proofs.Annotation.Report
import Mathlib.Data.List.Permutation

/-!
Reports and the order of the source. A report lists each annotation once, with
the line of its key, and goes by these lines. It goes by the keys themselves
only if on each line the lists of style sheets stand in front of the templates.
-/

namespace Inlay.Report

open Text Annotation

/-! ### Entries and the places of their keys -/

def keyedStyles (t : Text) : List (Nat × Entry) :=
  (styleUrls t).map fun p => (keyOffset p.1 p.2.opener, listEntry t p)

def keyedTemplates (t : Text) : List (Nat × Entry) :=
  (templateUrls t).map fun p => (keyOffset p.1 p.2.opener, templateEntry t p.1 p.2)

def keyed (t : Text) : List (Nat × Entry) := keyedStyles t ++ keyedTemplates t

/-- The report lists the annotations of the source, each once, by the lines of
their keys. -/
structure Lists (t : Text) (r : Report) : Prop where
  perm : r.Perm ((keyed t).map Prod.snd)
  urls : ∀ p ∈ styleUrls t, p.2.urls = .ok p.2.listed
  atKeys : ∀ x ∈ keyed t, ∃ before rest, t = before ++ x.2.kind.key ++ rest ∧
    byteSize before = x.1 ∧ x.2.line = before.count '\n' + 1
  rising : r.Pairwise fun a b => a.line ≤ b.line

/-- The report lists the annotations of the source as their keys follow each
other in it. -/
def InSourceOrder (t : Text) (r : Report) : Prop :=
  ∃ entries : List (Nat × Entry), entries.Perm (keyed t) ∧
    entries.Pairwise (fun x y => x.1 < y.1) ∧ entries.map Prod.snd = r

theorem forall_mem_keyed {t : Text} {motive : Nat × Entry → Prop}
    (styles : ∀ p ∈ styleUrls t, motive (keyOffset p.1 p.2.opener, listEntry t p))
    (templates : ∀ p ∈ templateUrls t,
      motive (keyOffset p.1 p.2.opener, templateEntry t p.1 p.2)) :
    ∀ x ∈ keyed t, motive x := by
  intro x hx
  rcases List.mem_append.mp hx with hx | hx
  · obtain ⟨p, hp, rfl⟩ := List.mem_map.mp hx
    exact styles p hp
  · obtain ⟨p, hp, rfl⟩ := List.mem_map.mp hx
    exact templates p hp

theorem line_eq_of_mem_keyed {t : Text} : ∀ x ∈ keyed t, x.2.line = lineAt t x.1 :=
  forall_mem_keyed (fun _ _ => rfl) fun _ _ => rfl

/-- The key of an annotation stands where its opener ends. -/
theorem exists_key_of_mem_located {here : Text → Option (β × Text)} {key : Text}
    {Form : α → Text → Prop} {make : Text → α → β}
    (hhere : Exact here (Opened (Keyed key Form) make)) (hapart : StartsApart (Keyed key Form))
    (opener : β → Text) (hopener : ∀ o value, opener (make o value) = o) (t : Text)
    {p : Span × β} (hp : p ∈ located 0 (pieces here t)) :
    ∃ before rest, t = before ++ key ++ rest ∧ byteSize before = keyOffset p.1 (opener p.2) := by
  obtain ⟨before, raw, rest, rfl, hread, hspan⟩ :=
    exists_read_of_mem_located (hhere.takesFront hapart.opened_ne_nil) t hp
  obtain ⟨o, value, _, -, ⟨blanks, blanks', body, -, -, -, rfl⟩, hp2, rfl⟩ := hhere.form hread
  refine ⟨before ++ o, blanks ++ ':' :: blanks' ++ body ++ rest, by simp, ?_⟩
  rw [keyOffset, hspan, hp2, hopener, byteSize_append]

theorem exists_key_of_mem_keyed {t : Text} : ∀ x ∈ keyed t,
    ∃ before rest, t = before ++ x.2.kind.key ++ rest ∧ byteSize before = x.1 := by
  refine forall_mem_keyed ?_ ?_
  · intro p hp
    have hkey := exists_key_of_mem_located exact_styleUrls? startsApart_styleKey
      StyleUrls.opener (fun _ _ => rfl) t hp
    exact hkey
  · intro p hp
    have hkey := exists_key_of_mem_located exact_templateUrl? startsApart_templateKey
      TemplateUrl.opener (fun _ _ => rfl) t hp
    exact hkey

/-- The two keys do not start alike, so they do not stand at one place. -/
theorem kind_eq_of_key_append_eq {a b : Kind} {rest rest' : Text}
    (h : a.key ++ rest = b.key ++ rest') : a = b := by
  have hstyle : ∀ rest : Text, (Kind.styleUrls.key ++ rest).head? = some 's' := fun _ => rfl
  have htemplate : ∀ rest : Text, (Kind.templateUrl.key ++ rest).head? = some 't' := fun _ => rfl
  have hhead := congrArg List.head? h
  cases a <;> cases b
  · rfl
  · rw [hstyle, htemplate] at hhead
    contradiction
  · rw [hstyle, htemplate] at hhead
    contradiction
  · rfl

theorem kind_eq_of_fst_eq {t : Text} {x y : Nat × Entry} (hx : x ∈ keyed t) (hy : y ∈ keyed t)
    (h : x.1 = y.1) : x.2.kind = y.2.kind := by
  obtain ⟨before, rest, ht, hsize⟩ := exists_key_of_mem_keyed x hx
  obtain ⟨before', rest', ht', hsize'⟩ := exists_key_of_mem_keyed y hy
  have hdrop : dropBytes x.1 t = x.2.kind.key ++ rest := by
    rw [ht, ← hsize, List.append_assoc, dropBytes_byteSize]
  have hdrop' : dropBytes x.1 t = y.2.kind.key ++ rest' := by
    rw [ht', h, ← hsize', List.append_assoc, dropBytes_byteSize]
  exact kind_eq_of_key_append_eq (hdrop.symm.trans hdrop')

/-! ### The order of a report -/

theorem scan_eq_ok_iff_keyed {t : Text} {r : Report} :
    scan t = .ok r ↔ (∀ p ∈ styleUrls t, ∃ urls, p.2.urls = .ok urls) ∧
      r = ((keyed t).map Prod.snd).mergeSort fun a b => a.line ≤ b.line := by
  rw [scan_eq_ok_iff, keyed, keyedStyles, keyedTemplates, List.map_append, List.map_map,
    List.map_map]
  rfl

/-- A report comes of the entries by sorting them once all lists are read. -/
theorem scan_eq_ok_of_keyed {t : Text} {entries r : Report}
    (hurls : ((styleUrls t).all fun p => p.2.urls.isOk) = true)
    (hentries : (keyed t).map Prod.snd = entries)
    (hr : (entries.mergeSort fun a b => a.line ≤ b.line) = r) : scan t = .ok r := by
  refine scan_eq_ok_iff_keyed.mpr ⟨fun p hp => ?_, by rw [hentries, hr]⟩
  have hok := List.all_eq_true.mp hurls p hp
  cases hread : p.2.urls with
  | ok urls => exact ⟨urls, rfl⟩
  | error e => simp [hread, Except.isOk, Except.toBool] at hok

theorem lists_of_scan {t : Text} {r : Report} (h : scan t = .ok r) : Lists t r := by
  obtain ⟨hurls, rfl⟩ := scan_eq_ok_iff_keyed.mp h
  refine ⟨List.mergeSort_perm _ _, fun p hp => ?_, fun x hx => ?_, ?_⟩
  · obtain ⟨urls, hp⟩ := hurls p hp
    rw [hp, StyleUrls.listed_eq hp]
  · obtain ⟨before, rest, ht, hsize⟩ := exists_key_of_mem_keyed x hx
    refine ⟨before, rest, ht, hsize, ?_⟩
    rw [line_eq_of_mem_keyed x hx, lineAt, ← hsize, ht, List.append_assoc, takeBytes_byteSize]
  · simpa using List.pairwise_mergeSort (Sorting.key_trans Entry.line)
      (Sorting.key_total Entry.line) ((keyed t).map Prod.snd)

def StylesFirst (t : Text) : Prop :=
  ∀ p ∈ styleUrls t, ∀ q ∈ templateUrls t,
    keyLine t p.1 p.2.opener = keyLine t q.1 q.2.opener →
      keyOffset p.1 p.2.opener < keyOffset q.1 q.2.opener

/-- Of two entries on one line a list of style sheets comes first. -/
theorem styles_first_of_scan {t : Text} {r : Report} (h : scan t = .ok r) :
    r.Pairwise fun a b => a.line = b.line → a.kind = .templateUrl → b.kind = .templateUrl := by
  obtain ⟨-, rfl⟩ := scan_eq_ok_iff_keyed.mp h
  refine Sorting.pairwise_mergeSort Entry.line ?_ ?_
  · intro a _ b _ hlt heq
    omega
  · rw [List.pairwise_map, keyed, List.pairwise_append, keyedStyles, keyedTemplates,
      List.pairwise_map, List.pairwise_map]
    refine ⟨?_, ?_, ?_⟩
    · refine List.pairwise_of_forall fun p q _ _ hkind => ?_
      simp [listEntry] at hkind
    · exact List.pairwise_of_forall fun p q _ _ _ => rfl
    · intro x _ y hy _ _ _
      obtain ⟨q, -, rfl⟩ := List.mem_map.mp hy
      rfl

theorem keyed_pairwise {t : Text} (h : StylesFirst t) :
    (keyed t).Pairwise fun x y => x.2.line = y.2.line → x.1 < y.1 := by
  rw [keyed, List.pairwise_append, keyedStyles, keyedTemplates, List.pairwise_map,
    List.pairwise_map]
  have hstyles := keyOffset_pairwise exact_styleUrls? startsApart_styleKey
    StyleUrls.opener (fun _ _ => rfl) t
  have htemplates := keyOffset_pairwise exact_templateUrl? startsApart_templateKey
    TemplateUrl.opener (fun _ _ => rfl) t
  refine ⟨List.Pairwise.imp ?_ hstyles, List.Pairwise.imp ?_ htemplates, ?_⟩
  · exact fun hlt _ => hlt
  · exact fun hlt _ => hlt
  · intro x hx y hy hline
    obtain ⟨p, hp, rfl⟩ := List.mem_map.mp hx
    obtain ⟨q, hq, rfl⟩ := List.mem_map.mp hy
    exact h p hp q hq hline

theorem inSourceOrder_iff {t : Text} {r : Report} (h : scan t = .ok r) :
    InSourceOrder t r ↔ StylesFirst t := by
  constructor
  · rintro ⟨entries, hperm, hrising, rfl⟩ p hp q hq hline
    have hx : (keyOffset p.1 p.2.opener, listEntry t p) ∈ keyed t :=
      List.mem_append_left _ (List.mem_map_of_mem hp)
    have hy : (keyOffset q.1 q.2.opener, templateEntry t q.1 q.2) ∈ keyed t :=
      List.mem_append_right _ (List.mem_map_of_mem hq)
    -- the two are apart, and the template is not the one in front
    refine Nat.lt_of_le_of_ne (Nat.le_of_not_lt fun hlt => ?_) fun heq => ?_
    · obtain ⟨front, back, rfl⟩ := List.append_of_mem (hperm.mem_iff.mpr hx)
      have hfront : (keyOffset q.1 q.2.opener, templateEntry t q.1 q.2) ∈ front := by
        rcases List.mem_append.mp (hperm.mem_iff.mpr hy) with hfront | hback
        · exact hfront
        · have hle : keyOffset p.1 p.2.opener ≤ keyOffset q.1 q.2.opener := by
            rcases List.mem_cons.mp hback with heq | hback
            · exact Nat.le_of_eq (congrArg Prod.fst heq).symm
            · exact Nat.le_of_lt
                ((List.pairwise_cons.mp (List.pairwise_append.mp hrising).2.1).1 _ hback)
          omega
      have hfirst := styles_first_of_scan h
      rw [List.map_append, List.map_cons, List.pairwise_append] at hfirst
      have hkind := hfirst.2.2 _ (List.mem_map_of_mem hfront) _ List.mem_cons_self hline.symm rfl
      simp [listEntry] at hkind
    · have hkind := kind_eq_of_fst_eq hx hy heq
      simp [listEntry, templateEntry] at hkind
  · intro hfirst
    obtain ⟨-, rfl⟩ := scan_eq_ok_iff_keyed.mp h
    refine ⟨(keyed t).mergeSort fun x y => x.2.line ≤ y.2.line, List.mergeSort_perm _ _, ?_,
      List.map_mergeSort fun _ _ _ _ => rfl⟩
    refine Sorting.pairwise_mergeSort (fun x : Nat × Entry => x.2.line) ?_ (keyed_pairwise hfirst)
    intro x hx y hy hlt
    rw [line_eq_of_mem_keyed x hx, line_eq_of_mem_keyed y hy] at hlt
    exact Nat.lt_of_not_le fun hle => Nat.not_lt.mpr (lineAt_mono hle t) hlt

/-- A report lists each annotation of a source once, with the line of its key,
and goes by the lines. Within a line the lists of style sheets come first, so
it goes by the places of the keys exactly if they do so in the source. -/
theorem scan_in_source_order_iff {t : Text} {r : Report} (h : scan t = .ok r) :
    Lists t r ∧ (InSourceOrder t r ↔ StylesFirst t) :=
  ⟨lists_of_scan h, inSourceOrder_iff h⟩

/-- A list and a template on one line, behind a template on the line before. -/
def orderedSource : Text :=
  "// templateUrl: \"a.html\"\nstyleUrls: ['b.css', \"c.css\"], templateUrl: 'd.html'".toList

def orderedReport : Report := [
  ⟨.templateUrl, 1, ["a.html".toList], true⟩,
  ⟨.styleUrls, 2, ["b.css".toList, "c.css".toList], false⟩,
  ⟨.templateUrl, 2, ["d.html".toList], false⟩]

theorem scan_orderedSource : scan orderedSource = .ok orderedReport :=
  scan_eq_ok_of_keyed (by decide +kernel)
    (show (keyed orderedSource).map Prod.snd = [
      ⟨.styleUrls, 2, ["b.css".toList, "c.css".toList], false⟩,
      ⟨.templateUrl, 1, ["a.html".toList], true⟩,
      ⟨.templateUrl, 2, ["d.html".toList], false⟩] by decide +kernel)
    (by cbv)

theorem scan_in_source_order_iff_two_lines :
    scan orderedSource = .ok orderedReport ∧ Lists orderedSource orderedReport ∧
      (InSourceOrder orderedSource orderedReport ↔ StylesFirst orderedSource) :=
  ⟨scan_orderedSource, scan_in_source_order_iff scan_orderedSource⟩

def disorderedSource : Text := "templateUrl: 'a.html', styleUrls: ['b.css']".toList

def disorderedReport : Report := [
  ⟨.styleUrls, 1, ["b.css".toList], false⟩,
  ⟨.templateUrl, 1, ["a.html".toList], false⟩]

/-- A template in front of a list of style sheets on one line is listed behind
it. -/
theorem scan_moves_template_back :
    scan disorderedSource = .ok disorderedReport ∧
      ¬InSourceOrder disorderedSource disorderedReport := by
  have hscan : scan disorderedSource = .ok disorderedReport :=
    scan_eq_ok_of_keyed (by decide +kernel)
      (show (keyed disorderedSource).map Prod.snd = disorderedReport by decide +kernel) (by cbv)
  refine ⟨hscan, fun horder => ?_⟩
  have hlt := (inSourceOrder_iff hscan).mp horder (⟨23, 43⟩, ⟨[], "['b.css']".toList⟩)
    (by decide +kernel) (⟨0, 21⟩, ⟨[], "a.html".toList, '\''⟩) (by decide +kernel)
    (by decide +kernel)
  revert hlt
  decide +kernel

end Inlay.Report
