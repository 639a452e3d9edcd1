import Inlay.Annotation.Report
import Inlay.Proofs.Annotation.Scan
import Inlay.Proofs.Sorting
import Mathlib.Data.List.Forall2

/-!
What a report says. The entries of each kind are the annotations of that kind
in the order of the source, since sorting by lines does not move them against
each other; a report fails at the first malformed list.
-/

namespace Inlay

/-! ### Loops that may fail -/

theorem mapM_eq_ok_iff {f : α → Except ε β} {xs : List α} {ys : List β} :
    xs.mapM f = .ok ys ↔ List.Forall₂ (fun x y => f x = .ok y) xs ys := by
  induction xs generalizing ys with
  | nil => cases ys <;> simp [pure, Except.pure]
  | cons x xs ih =>
      rw [List.mapM_cons, List.forall₂_cons_left_iff]
      cases hx : f x with
      | error e => simp [bind, Except.bind]
      | ok y =>
          cases hxs : xs.mapM f with
          | error e =>
              have hnone : ∀ zs, ¬List.Forall₂ (fun x y => f x = .ok y) xs zs := by
                simp [← ih, hxs]
              simp [bind, Except.bind, hnone]
          | ok zs =>
              have hsome : ∀ zs', List.Forall₂ (fun x y => f x = .ok y) xs zs' ↔ zs = zs' := by
                simp [← ih, hxs]
              simp [bind, Except.bind, pure, Except.pure, hsome, eq_comm]

/-- A loop fails as the first member does that fails. -/
theorem mapM_eq_error_iff {f : α → Except ε β} {xs : List α} {e : ε} :
    xs.mapM f = .error e ↔ ∃ front x back, xs = front ++ x :: back ∧
      (∀ y ∈ front, ∃ b, f y = .ok b) ∧ f x = .error e := by
  induction xs with
  | nil => simp [pure, Except.pure]
  | cons x xs ih =>
      rw [List.mapM_cons]
      constructor
      · intro h
        cases hx : f x with
        | error e' =>
            simp only [hx, bind, Except.bind, Except.error.injEq] at h
            exact ⟨[], x, xs, rfl, by simp, by rw [hx, h]⟩
        | ok y =>
            cases hxs : xs.mapM f with
            | error e' =>
                simp only [hx, hxs, bind, Except.bind, Except.error.injEq] at h
                obtain ⟨front, z, back, rfl, hfront, hz⟩ := ih.mp (h ▸ hxs)
                refine ⟨x :: front, z, back, rfl, fun w hw => ?_, hz⟩
                rcases List.mem_cons.mp hw with rfl | hw
                · exact ⟨y, hx⟩
                · exact hfront w hw
            | ok ys => simp [hx, hxs, bind, Except.bind, pure, Except.pure] at h
      · rintro ⟨front, z, back, heq, hfront, hz⟩
        cases front with
        | nil =>
            obtain ⟨rfl, rfl⟩ := List.cons.inj heq
            simp [hz, bind, Except.bind]
        | cons w front =>
            obtain ⟨rfl, rfl⟩ := List.cons.inj heq
            obtain ⟨y, hy⟩ := hfront x List.mem_cons_self
            have hxs : (front ++ z :: back).mapM f = .error e :=
              ih.mpr ⟨front, z, back, rfl, fun v hv => hfront v (by simp [hv]), hz⟩
            simp only [hy, hxs, bind, Except.bind, List.append_eq]

namespace Text

/-! ### Lines -/

theorem takeBytes_isPrefix {m n : Nat} (h : m ≤ n) (t : Text) :
    takeBytes m t <+: takeBytes n t := by
  induction t generalizing m n with
  | nil => simp [takeBytes]
  | cons c t ih =>
      by_cases hm : m = 0
      · simp [takeBytes, hm]
      · simp only [takeBytes, if_neg hm, if_neg (show n ≠ 0 by omega)]
        exact (List.prefix_cons_inj c).mpr (ih (by omega))

theorem lineAt_mono {m n : Nat} (h : m ≤ n) (t : Text) : lineAt t m ≤ lineAt t n :=
  Nat.succ_le_succ ((takeBytes_isPrefix h t).sublist.count_le '\n')

end Text

open Text Annotation

def Annotation.StyleUrls.listed (a : StyleUrls) : List Text := a.urls.toOption.getD []

theorem Annotation.StyleUrls.listed_eq {a : StyleUrls} {urls : List Text} (h : a.urls = .ok urls) :
    a.listed = urls := by
  rw [listed, h]
  rfl

theorem Annotation.exists_of_urls_eq_error {a : StyleUrls} {e : Error} (h : a.urls = .error e) :
    ∃ complaint, e = .malformedList a.list complaint := by
  rw [StyleUrls.urls, urlList, urlListWith] at h
  cases hparse : Json.parse Json.readTextList (doubleQuoted a.list) with
  | ok urls => simp [hparse, Except.mapError] at h
  | error complaint =>
      simp only [hparse, Except.mapError, Except.error.injEq] at h
      exact ⟨complaint, h.symm⟩

namespace Report

def ofKind (kind : Kind) (r : Report) : Report := r.filter fun entry => entry.kind = kind

def keyOffset (span : Span) (opener : Text) : Nat := span.start + byteSize opener

/-- Keys rise along a source, since a key stands within the span of its
annotation. -/
theorem keyOffset_pairwise {here : Text → Option (β × Text)} {Form : α → Text → Prop}
    {make : Text → α → β} (hhere : Exact here (Opened Form make)) (hapart : StartsApart Form)
    (opener : β → Text) (hopener : ∀ o value, opener (make o value) = o) (t : Text) :
    (located 0 (pieces here t)).Pairwise fun p q =>
      keyOffset p.1 (opener p.2) < keyOffset q.1 (opener q.2) := by
  have hrising := (wellPlaced_found (hhere.takesFront hapart.opened_ne_nil) t).rising
  rw [List.pairwise_map] at hrising
  refine hrising.imp_of_mem fun {p q} hp _ ⟨_, hstop⟩ => ?_
  obtain ⟨raw, ⟨o, value, inner, -, hinner, hp2, rfl⟩, hsize⟩ :=
    hhere.form_of_mem_located hapart.opened_ne_nil t hp
  have hpos := byteSize_pos (hapart.ne_nil hinner)
  rw [byteSize_append] at hsize
  rw [keyOffset, keyOffset, hp2, hopener]
  omega

theorem keyLine_pairwise {here : Text → Option (β × Text)} {Form : α → Text → Prop}
    {make : Text → α → β} (hhere : Exact here (Opened Form make)) (hapart : StartsApart Form)
    (opener : β → Text) (hopener : ∀ o value, opener (make o value) = o) (t : Text) :
    (located 0 (pieces here t)).Pairwise fun p q =>
      keyLine t p.1 (opener p.2) ≤ keyLine t q.1 (opener q.2) :=
  (keyOffset_pairwise hhere hapart opener hopener t).imp fun hlt =>
    lineAt_mono (Nat.le_of_lt hlt) t

def listEntry (t : Text) (p : Span × StyleUrls) : Entry :=
  ⟨.styleUrls, keyLine t p.1 p.2.opener, p.2.listed, p.2.isCommentedOut⟩

theorem styleEntry_eq_ok_iff {t : Text} {p : Span × StyleUrls} {entry : Entry} :
    styleEntry t p.1 p.2 = .ok entry ↔ (∃ urls, p.2.urls = .ok urls) ∧ listEntry t p = entry := by
  unfold styleEntry listEntry StyleUrls.listed
  cases p.2.urls with
  | error e => simp [bind, Except.bind]
  | ok urls => simp [bind, Except.bind, Except.toOption]

theorem styleEntry_eq_error_iff {t : Text} {p : Span × StyleUrls} {e : Error} :
    styleEntry t p.1 p.2 = .error e ↔ p.2.urls = .error e := by
  unfold styleEntry
  cases p.2.urls <;> simp [bind, Except.bind]

def FirstMalformed (t : Text) (e : Error) : Prop :=
  ∃ front p back, styleUrls t = front ++ p :: back ∧
    (∀ q ∈ front, ∃ urls, q.2.urls = .ok urls) ∧ p.2.urls = .error e

theorem scan_eq_error_iff {t : Text} {e : Error} : scan t = .error e ↔ FirstMalformed t e := by
  have hloop : scan t = .error e ↔
      ((styleUrls t).mapM fun p => styleEntry t p.1 p.2) = .error e := by
    unfold scan
    cases hfirst : (styleUrls t).mapM fun p => styleEntry t p.1 p.2 <;>
      simp [hfirst, bind, Except.bind]
  rw [hloop, mapM_eq_error_iff, FirstMalformed]
  simp only [styleEntry_eq_error_iff, styleEntry_eq_ok_iff, exists_and_left, exists_eq', and_true]

theorem scan_eq_ok_iff {t : Text} {r : Report} :
    scan t = .ok r ↔ (∀ p ∈ styleUrls t, ∃ urls, p.2.urls = .ok urls) ∧
      r = ((styleUrls t).map (listEntry t) ++
        (templateUrls t).map fun p => templateEntry t p.1 p.2).mergeSort
          fun a b => a.line ≤ b.line := by
  have hentries : ∀ first, ((styleUrls t).mapM fun p => styleEntry t p.1 p.2) = .ok first ↔
      (∀ p ∈ styleUrls t, ∃ urls, p.2.urls = .ok urls) ∧
        (styleUrls t).map (listEntry t) = first := by
    intro first
    simp only [mapM_eq_ok_iff, styleEntry_eq_ok_iff, List.forall₂_and_left]
    rw [← List.forall₂_map_left_iff (R := Eq), List.forall₂_eq_eq_eq]
  have hloop : scan t = .ok r ↔
      ∃ first, ((styleUrls t).mapM fun p => styleEntry t p.1 p.2) = .ok first ∧
        r = (first ++ (templateUrls t).map fun p => templateEntry t p.1 p.2).mergeSort
          fun a b => a.line ≤ b.line := by
    unfold scan
    cases hfirst : (styleUrls t).mapM fun p => styleEntry t p.1 p.2 <;>
      simp [hfirst, bind, Except.bind, eq_comm]
  rw [hloop]
  simp only [hentries, and_assoc, exists_and_left, exists_eq_left']

/-- The entries of each kind are the annotations of this kind in the order of
the source. -/
theorem ofKind_scan {t : Text} {r : Report} (h : scan t = .ok r) :
    r.ofKind .styleUrls = (styleUrls t).map (listEntry t) ∧
      r.ofKind .templateUrl = (templateUrls t).map fun p => templateEntry t p.1 p.2 := by
  obtain ⟨-, rfl⟩ := scan_eq_ok_iff.mp h
  have hfirst := keyLine_pairwise exact_styleUrls? startsApart_styleKey
    StyleUrls.opener (fun _ _ => rfl) t
  have hsecond := keyLine_pairwise exact_templateUrl? startsApart_templateKey
    TemplateUrl.opener (fun _ _ => rfl) t
  have hstyles : ((styleUrls t).map (listEntry t) ++
      (templateUrls t).map fun p => templateEntry t p.1 p.2).filter
        (fun entry => decide (entry.kind = .styleUrls)) = (styleUrls t).map (listEntry t) := by
    rw [List.filter_append, List.filter_map, List.filter_map]
    simp [Function.comp_def, listEntry, templateEntry]
  have htemplates : ((styleUrls t).map (listEntry t) ++
      (templateUrls t).map fun p => templateEntry t p.1 p.2).filter
        (fun entry => decide (entry.kind = .templateUrl)) =
          (templateUrls t).map fun p => templateEntry t p.1 p.2 := by
    rw [List.filter_append, List.filter_map, List.filter_map]
    simp [Function.comp_def, listEntry, templateEntry]
  constructor
  · rw [ofKind, Sorting.filter_mergeSort Entry.line, hstyles]
    rw [hstyles, List.pairwise_map]
    exact hfirst
  · rw [ofKind, Sorting.filter_mergeSort Entry.line, htemplates]
    rw [htemplates, List.pairwise_map]
    exact hsecond

end Report

end Inlay
