import Inlay.Annotation.UrlList
import Inlay.Proofs.Annotation.Rescan
import Inlay.Proofs.Annotation.Scan
import Inlay.Proofs.Json.LineEnds
import Mathlib.Data.List.Forall2

/-!
Style sheets in texts with either way to end lines. The second character of a
list may not be a newline, so a list that starts with a line's end is only
found where that is a single character, and one with a line's end behind its
first character only where it is two. All other annotations are found in both
forms of a text, with the same addresses.
-/

namespace Inlay.Annotation

open Text

def StyleUrls.crlf (a : StyleUrls) : StyleUrls := ⟨Text.crlf a.opener, Text.crlf a.list⟩

abbrev IsStyleUrls : StyleUrls → Text → Prop := Opened (Keyed styleKey IsList) StyleUrls.mk

/-! ### Parts of an annotation -/

theorem blank_crlf {t : Text} (h : Blank t) : Blank (Text.crlf t) := by
  intro c hc
  by_cases hreturn : c = '\r'
  · rw [hreturn]
    rfl
  · exact h c (mem_of_mem_crlf hc hreturn)

theorem blank_of_crlf {t : Text} (h : Blank (Text.crlf t)) : Blank t :=
  fun c hc => h c (mem_crlf_of_mem hc)

theorem notMem_of_isMark {marks : Text} (h : ∀ c ∈ marks, isMark c = true) {c : Char}
    (hc : isMark c = false) : c ∉ marks := by
  intro hmem
  simp [h c hmem] at hc

theorem opener_crlf {opener : Text} (h : opener = [] ∨ IsOpener opener) :
    Text.crlf opener = [] ∨ IsOpener (Text.crlf opener) := by
  refine h.imp (fun h => by rw [h]; rfl) ?_
  rintro ⟨marks, blanks, hne, hmarks, hblanks, rfl⟩
  refine ⟨marks, Text.crlf blanks, hne, hmarks, blank_crlf hblanks, ?_⟩
  rw [crlf_append, crlf_of_newline_notMem (notMem_of_isMark hmarks rfl)]

theorem opener_of_crlf {opener : Text} (h : Text.crlf opener = [] ∨ IsOpener (Text.crlf opener)) :
    opener = [] ∨ IsOpener opener := by
  refine h.imp (fun h => by_contra fun hne => crlf_ne_nil hne h) ?_
  rintro ⟨marks, blanks, hne, hmarks, hblanks, heq⟩
  obtain ⟨-, back, rfl, rfl⟩ := crlf_eq_append_left (notMem_of_isMark hmarks rfl) heq
  exact ⟨marks, back, hne, hmarks, blank_of_crlf hblanks, rfl⟩

/-! ### Lists -/

theorem isList_crlf {list raw : Text} (h : IsList list raw) (hfirst : list[1]? ≠ some '\n') :
    IsList (Text.crlf list) (Text.crlf raw) := by
  obtain ⟨rfl, first, second, inner, hsecond, hinner, rfl⟩ := h
  have hfirst : first ≠ '\n' := by simpa using hfirst
  refine ⟨rfl, first, second, Text.crlf inner, hsecond, fun hmem =>
    hinner (mem_of_mem_crlf hmem (by decide)), ?_⟩
  rw [crlf_append, crlf_cons (by decide), crlf_cons hfirst, crlf_cons hsecond]
  rfl

theorem isList_of_crlf {t list raw rest : Text} (ht : Text.crlf t = raw ++ rest)
    (h : IsList list raw) (hsecond : list[2]? ≠ some '\r') :
    ∃ list' rest', t = list' ++ rest' ∧ list = Text.crlf list' ∧ rest = Text.crlf rest' ∧
      IsList list' list' := by
  obtain ⟨rfl, first, second, inner, hnewline, hinner, rfl⟩ := h
  have hreturn : second ≠ '\r' := by simpa using hsecond
  simp only [List.cons_append, List.append_assoc, List.nil_append] at ht
  obtain ⟨-, left, rfl, hleft⟩ := crlf_eq_cons (by decide) ht
  cases left with
  | nil => simp at hleft
  | cons c left =>
      -- a carriage return here would bring its newline to the second place
      have hc : c ≠ '\n' := by
        rintro rfl
        simp only [crlf_newline, List.cons.injEq] at hleft
        exact hnewline hleft.2.1
      rw [crlf_cons hc, List.cons.injEq] at hleft
      obtain ⟨rfl, hbehind⟩ := hleft
      obtain ⟨-, left, rfl, hinside⟩ := crlf_eq_cons hreturn hbehind.symm
      obtain ⟨inner', left, rfl, rfl, hclose⟩ :=
        crlf_eq_append (b := ']' :: rest) hinside.symm (stops_cons rfl _)
      obtain ⟨-, rest', rfl, rfl⟩ := crlf_eq_cons (by decide) hclose.symm
      refine ⟨'[' :: first :: second :: inner' ++ [']'], rest', by simp, ?_, rfl, rfl, first,
        second, inner', hnewline, fun hmem => hinner (mem_crlf_of_mem hmem), rfl⟩
      rw [crlf_append, crlf_cons (by decide), crlf_cons hc, crlf_cons hnewline]
      rfl

/-! ### Annotations -/

theorem isStyleUrls_crlf {a : StyleUrls} {raw : Text} (h : IsStyleUrls a raw)
    (hfirst : a.list[1]? ≠ some '\n') : IsStyleUrls a.crlf (Text.crlf raw) := by
  obtain ⟨opener, list, _, hopener, ⟨before, behind, body, hbefore, hbehind, hlist, rfl⟩, rfl,
    rfl⟩ := h
  refine ⟨_, _, _, opener_crlf hopener, ⟨_, _, _, blank_crlf hbefore, blank_crlf hbehind,
    isList_crlf hlist hfirst, rfl⟩, rfl, ?_⟩
  have hkey : Text.crlf styleKey = styleKey := rfl
  simp [hkey, crlf_cons (show ':' ≠ '\n' by decide)]

theorem isStyleUrls_of_crlf {t raw rest : Text} {a : StyleUrls} (ht : Text.crlf t = raw ++ rest)
    (h : IsStyleUrls a raw) (hsecond : a.list[2]? ≠ some '\r') :
    ∃ a' raw' rest', t = raw' ++ rest' ∧ IsStyleUrls a' raw' := by
  obtain ⟨opener, list, _, hopener, ⟨before, behind, body, hbefore, hbehind, hlist, rfl⟩, rfl,
    rfl⟩ := h
  have hbody : Stops (· == '\n') (body ++ rest) := by
    obtain ⟨rfl, first, second, inner, -, -, rfl⟩ := hlist
    exact stops_cons rfl _
  -- from the front: the opener, the key, the colon, the list
  simp only [List.append_assoc, List.cons_append] at ht
  obtain ⟨opener', t₁, rfl, rfl, ht₁⟩ := crlf_eq_append ht (stops_cons (c := 's') rfl _)
  obtain ⟨-, t₂, rfl, ht₂⟩ := crlf_eq_append_left (a := styleKey) (by decide) ht₁.symm
  obtain ⟨before', t₃, rfl, rfl, ht₃⟩ := crlf_eq_append ht₂.symm (stops_cons rfl _)
  obtain ⟨-, t₄, rfl, ht₄⟩ := crlf_eq_cons (by decide) ht₃.symm
  obtain ⟨behind', t₅, rfl, rfl, ht₅⟩ := crlf_eq_append ht₄.symm hbody
  obtain ⟨list', rest', rfl, -, -, hlist'⟩ := isList_of_crlf ht₅.symm hlist hsecond
  exact ⟨⟨opener', list'⟩, opener' ++ (styleKey ++ before' ++ ':' :: behind' ++ list'), rest',
    by simp, opener', list', _, opener_of_crlf hopener, ⟨before', behind', list',
      blank_of_crlf hbefore, blank_of_crlf hbehind, hlist', rfl⟩, rfl, rfl⟩

theorem isStyleUrls_ne_nil : ∀ a raw, IsStyleUrls a raw → raw ≠ [] :=
  startsApart_styleKey.opened_ne_nil

/-- No annotation starts with white space. -/
theorem styleUrls?_eq_none_of_isBlank {c : Char} (hc : isBlank c = true) (t : Text) :
    styleUrls? (c :: t) = none := by
  refine Option.eq_none_iff_forall_ne_some.mpr fun (a, rest) hread => ?_
  obtain ⟨raw, ⟨opener, list, inner, hopener, hinner, -, rfl⟩, heq⟩ :=
    (exact_styleUrls? _ _ _).mp hread
  rcases hopener with rfl | ⟨marks, blanks, hne, hmarks, -, rfl⟩
  · have hstops := (startsApart_styleKey.stops hinner rest).2 c
      (by rw [← List.nil_append inner, ← heq]; rfl)
    simp [hc] at hstops
  · obtain ⟨d, marks, rfl⟩ := List.exists_cons_of_ne_nil hne
    simp only [List.cons_append, List.cons.injEq] at heq
    obtain ⟨rfl, -⟩ := heq
    simp [isBlank_of_isMark (hmarks c List.mem_cons_self)] at hc

/-! ### Whole texts -/

/-- Where no list is told by its line ends, the same annotations are found. -/
theorem map_snd_located_crlf (m n : Nat) (t : Text)
    (hfirst : ∀ p ∈ located m (pieces styleUrls? t), p.2.list[1]? ≠ some '\n')
    (hsecond : ∀ p ∈ located n (pieces styleUrls? (Text.crlf t)), p.2.list[2]? ≠ some '\r') :
    (located n (pieces styleUrls? (Text.crlf t))).map Prod.snd =
      (located m (pieces styleUrls? t)).map (·.2.crlf) := by
  revert m n
  refine pieces_induction takesFront_styleUrls? (motive := fun t ps => ∀ m n,
    (∀ p ∈ located m ps, p.2.list[1]? ≠ some '\n') →
    (∀ p ∈ located n (pieces styleUrls? (Text.crlf t)), p.2.list[2]? ≠ some '\r') →
    (located n (pieces styleUrls? (Text.crlf t))).map Prod.snd =
      (located m ps).map (·.2.crlf)) ?_ ?_ ?_ t
  · intro m n _ _
    rfl
  · intro c t hc ih m n hfirst hsecond
    by_cases hnewline : c = '\n'
    · subst hnewline
      rw [crlf_newline, pieces_plain (styleUrls?_eq_none_of_isBlank rfl _),
        pieces_plain (styleUrls?_eq_none_of_isBlank rfl _)] at hsecond ⊢
      exact ih _ _ hfirst hsecond
    · rw [crlf_cons hnewline] at hsecond ⊢
      have hnone : styleUrls? (c :: Text.crlf t) = none := by
        refine Option.eq_none_iff_forall_ne_some.mpr fun (a, rest) hread => ?_
        obtain ⟨raw, hraw, heq⟩ := (exact_styleUrls? _ _ _).mp hread
        have hmem : (⟨n, n + byteSize raw⟩, a) ∈
            located n (pieces styleUrls? (c :: Text.crlf t)) := by
          rw [heq, pieces_hit (isStyleUrls_ne_nil a raw hraw) (heq ▸ hread)]
          exact List.mem_cons_self
        rw [← crlf_cons hnewline] at heq
        obtain ⟨a', raw', rest', heq', hraw'⟩ := isStyleUrls_of_crlf heq hraw (hsecond _ hmem)
        have hread' := (exact_styleUrls? _ a' rest').mpr ⟨raw', hraw', heq'⟩
        simp [hc] at hread'
      rw [pieces_plain hnone] at hsecond ⊢
      exact ih _ _ hfirst hsecond
  · intro raw a rest hraw hread ih m n hfirst hsecond
    have hform := isStyleUrls_crlf (exact_styleUrls?.form hread) (hfirst _ List.mem_cons_self)
    have hread' : styleUrls? (Text.crlf raw ++ Text.crlf rest) = some (a.crlf, Text.crlf rest) :=
      (exact_styleUrls? _ _ _).mpr ⟨_, hform, rfl⟩
    rw [crlf_append, pieces_hit (crlf_ne_nil hraw) hread'] at hsecond ⊢
    have hmore := ih (m + byteSize raw) _ (fun p hp => hfirst p (List.mem_cons_of_mem _ hp))
      fun p hp => hsecond p (List.mem_cons_of_mem _ hp)
    simp only [located, List.map_cons, hmore]

/-! ### What an annotation says -/

def StyleUrls.Alike (a b : StyleUrls) : Prop :=
  a.isCommentedOut = b.isCommentedOut ∧ ∀ urls, a.urls = .ok urls ↔ b.urls = .ok urls

theorem isCommentedOut_crlf {a : StyleUrls} (h : a.opener = [] ∨ IsOpener a.opener) :
    a.isCommentedOut = a.crlf.isCommentedOut := by
  rw [Bool.eq_iff_iff]
  refine (commentsOut_iff h).trans (Iff.trans ?_ (commentsOut_iff (opener_crlf h)).symm)
  refine ⟨crlf_ne_nil, fun hne heq => hne ?_⟩
  rw [heq]
  rfl

theorem doubleQuoted_crlf (list : Text) :
    doubleQuoted (Text.crlf list) = Text.crlf (doubleQuoted list) := by
  induction list with
  | nil => rfl
  | cons c list ih =>
      by_cases hc : c = '\n'
      · subst hc
        exact congrArg ('\r' :: '\n' :: ·) ih
      · have hquoted : (if c = '\'' then '"' else c) ≠ '\n' := by
          split
          · decide
          · exact hc
        simp only [doubleQuoted, List.map_cons, crlf_cons hc] at ih ⊢
        rw [crlf_cons hquoted, ih]

theorem urls_crlf (a : StyleUrls) (urls : List Text) :
    a.urls = .ok urls ↔ a.crlf.urls = .ok urls := by
  have hmap : ∀ list, urlList list = .ok urls ↔
      (Json.parse Json.readTextList (doubleQuoted list)).toOption = some urls := by
    intro list
    rw [urlList, urlListWith]
    cases Json.parse Json.readTextList (doubleQuoted list) <;>
      simp [Except.mapError, Except.toOption]
  simp only [StyleUrls.urls, StyleUrls.crlf, hmap, doubleQuoted_crlf,
    Json.parse_crlf Json.ignoresLineEnds_readTextList]

theorem alike_crlf {a : StyleUrls} {raw : Text} (h : IsStyleUrls a raw) : a.Alike a.crlf := by
  obtain ⟨opener, list, inner, hopener, -, rfl, -⟩ := h
  exact ⟨isCommentedOut_crlf hopener, urls_crlf _⟩

/-- The annotations of a text are those of its form with carriage returns,
line ends apart, exactly if no list of the one starts with a line's end and no
list of the other has a line's end behind its first character. They then say
the same. -/
theorem styleUrls_crlf_iff (t : Text) (ht : '\r' ∉ t) :
    ((styleUrls (Text.crlf t)).map Prod.snd = (styleUrls t).map (·.2.crlf) ↔
      (∀ p ∈ styleUrls t, p.2.list[1]? ≠ some '\n') ∧
        ∀ p ∈ styleUrls (Text.crlf t), p.2.list[2]? ≠ some '\r') ∧
    ((∀ p ∈ styleUrls t, p.2.list[1]? ≠ some '\n') →
      (∀ p ∈ styleUrls (Text.crlf t), p.2.list[2]? ≠ some '\r') →
      List.Forall₂ StyleUrls.Alike ((styleUrls t).map Prod.snd)
        ((styleUrls (Text.crlf t)).map Prod.snd)) := by
  have hcorrespond : (∀ p ∈ styleUrls t, p.2.list[1]? ≠ some '\n') →
      (∀ p ∈ styleUrls (Text.crlf t), p.2.list[2]? ≠ some '\r') →
      (styleUrls (Text.crlf t)).map Prod.snd = (styleUrls t).map (·.2.crlf) :=
    map_snd_located_crlf 0 0 t
  refine ⟨⟨fun heq => ?_, fun ⟨hfirst, hsecond⟩ => hcorrespond hfirst hsecond⟩,
    fun hfirst hsecond => ?_⟩
  · have hfirst : ∀ p ∈ styleUrls t, p.2.list[1]? ≠ some '\n' := by
      intro p hp hnewline
      have hmem : p.2.crlf ∈ (styleUrls (Text.crlf t)).map Prod.snd := by
        rw [heq]
        exact List.mem_map_of_mem hp
      obtain ⟨q, hq, hqp⟩ := List.mem_map.mp hmem
      obtain ⟨-, first, second, inner, -, -, -, hlist, -⟩ := exists_list_of_mem_styleUrls hp
      obtain ⟨-, first', second', inner', -, hsecond', -, hlist', -⟩ :=
        exists_list_of_mem_styleUrls hq
      obtain rfl : first = '\n' := by simpa [hlist] using hnewline
      rw [hqp, StyleUrls.crlf, hlist, crlf_append, crlf_cons (by decide), crlf_newline] at hlist'
      simp only [List.cons_append, List.cons.injEq] at hlist'
      exact hsecond' hlist'.2.2.1.symm
    refine ⟨hfirst, fun q hq hreturn => ht ?_⟩
    have hmem : q.2 ∈ (styleUrls t).map (·.2.crlf) := by
      rw [← heq]
      exact List.mem_map_of_mem hq
    obtain ⟨p, hp, hpq⟩ := List.mem_map.mp hmem
    obtain ⟨before, first, second, inner, rest, hsecond, -, hlist, ht, -⟩ :=
      exists_list_of_mem_styleUrls hp
    have hnewline : first ≠ '\n' := by simpa [hlist] using hfirst p hp
    rw [← hpq, StyleUrls.crlf, hlist, crlf_append, crlf_cons (by decide), crlf_cons hnewline,
      crlf_cons hsecond] at hreturn
    obtain rfl : second = '\r' := by simpa using hreturn
    rw [ht, hlist]
    simp
  · rw [hcorrespond hfirst hsecond, List.forall₂_map_left_iff, List.forall₂_map_right_iff,
      List.forall₂_same]
    intro p hp
    obtain ⟨raw, hraw, -⟩ := exact_styleUrls?.form_of_mem_located isStyleUrls_ne_nil t hp
    exact alike_crlf hraw

/-- A list whose lines end behind its addresses. -/
theorem styleUrls_crlf_iff_broken_list :
    '\r' ∉ "/* styleUrls: ['a.css',\n\"b\"\n]".toList ∧
      (styleUrls (Text.crlf "/* styleUrls: ['a.css',\n\"b\"\n]".toList)).map Prod.snd =
        (styleUrls "/* styleUrls: ['a.css',\n\"b\"\n]".toList).map (·.2.crlf) ∧
      List.Forall₂ StyleUrls.Alike
        ((styleUrls "/* styleUrls: ['a.css',\n\"b\"\n]".toList).map Prod.snd)
        ((styleUrls (Text.crlf "/* styleUrls: ['a.css',\n\"b\"\n]".toList)).map Prod.snd) := by
  have ht : '\r' ∉ "/* styleUrls: ['a.css',\n\"b\"\n]".toList := by decide
  have hfirst : ∀ p ∈ styleUrls "/* styleUrls: ['a.css',\n\"b\"\n]".toList,
      p.2.list[1]? ≠ some '\n' := by decide +kernel
  have hsecond : ∀ p ∈ styleUrls (Text.crlf "/* styleUrls: ['a.css',\n\"b\"\n]".toList),
      p.2.list[2]? ≠ some '\r' := by decide +kernel
  exact ⟨ht, (styleUrls_crlf_iff _ ht).1.mpr ⟨hfirst, hsecond⟩,
    (styleUrls_crlf_iff _ ht).2 hfirst hsecond⟩

/-- A list that starts on the line behind its bracket is only found where
lines end in a single character. -/
theorem styleUrls_crlf_hides_list :
    '\r' ∉ "styleUrls: [\n'a.css'\n]".toList ∧
      ¬List.Forall₂ StyleUrls.Alike ((styleUrls "styleUrls: [\n'a.css'\n]".toList).map Prod.snd)
        ((styleUrls (Text.crlf "styleUrls: [\n'a.css'\n]".toList)).map Prod.snd) := by
  refine ⟨by decide, fun h => ?_⟩
  have hlength := h.length_eq
  revert hlength
  decide +kernel

end Inlay.Annotation
