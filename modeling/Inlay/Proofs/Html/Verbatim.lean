import Inlay.Proofs.Html.Written

/-!
Contents that are copied as they stand. What is copied goes from the opening
tag to the first place where the element's name follows `</`. That is the whole
content unless a longer name stands there: then the rest of the content is
taken for markup.
-/

namespace Inlay.Html

open Text

/-! ### The content of an element -/

def endsName (c : Char) : Bool := isBlank c || c == '/' || c == '>'

/-- Whether the name follows `</` here, in any case. A longer name may stand
there. -/
def namesElement (name t : Text) : Bool := Text.startsWith ('<' :: '/' :: name) (lowered t)

/-- Whether the closing tag of an element starts here, and not that of an
element with a longer name. -/
def closesElement (name t : Text) : Bool :=
  namesElement name t && (t.drop (name.length + 2)).head?.all endsName

/-- The text up to the closing tag of an element; without one it goes on to the
end. -/
def elementContent (name : Text) : Text → Text
  | [] => []
  | c :: t => if closesElement name (c :: t) then [] else c :: elementContent name t

theorem elementContent_eq_nil_iff {name t : Text} :
    elementContent name t = [] ↔ t = [] ∨ closesElement name t = true := by
  cases t with
  | nil => simp [elementContent]
  | cons c t => simp [elementContent]

/-! ### What is copied -/

theorem take_contentSize_cons (name : Text) (c : Char) (t : Text) :
    (c :: t).take (contentSize name (c :: t)) =
      if namesElement name (c :: t) then [] else c :: t.take (contentSize name t) := by
  have hlowered : lowered (c :: t) = c.toLower :: lowered t := rfl
  unfold contentSize namesElement
  rw [hlowered, indexOf?]
  split
  · rfl
  · cases indexOf? ('<' :: '/' :: name) (lowered t) <;> simp

/-- What is copied goes on to the name behind `</`, or to the end. -/
theorem content_ends_at_name {name t content rest : Text}
    (hcontent : content = t.take (contentSize name t)) (ht : t = content ++ rest) :
    (rest = [] ∨ namesElement name rest = true) ∧
      ∀ front back, content = front ++ back → back ≠ [] →
        namesElement name (back ++ rest) = false := by
  induction t generalizing content with
  | nil =>
      obtain ⟨rfl, rfl⟩ := List.append_eq_nil_iff.mp ht.symm
      exact ⟨.inl rfl, fun _ _ heq hne => absurd (List.append_eq_nil_iff.mp heq.symm).2 hne⟩
  | cons c t ih =>
      rw [take_contentSize_cons] at hcontent
      split at hcontent
      · rename_i hname
        subst hcontent
        obtain rfl : c :: t = rest := ht
        exact ⟨.inr hname, fun _ _ heq hne => absurd (List.append_eq_nil_iff.mp heq.symm).2 hne⟩
      · rename_i hname
        subst hcontent
        obtain ⟨hends, hfirst⟩ := ih rfl (List.cons.inj ht).2
        refine ⟨hends, fun front back heq hne => ?_⟩
        cases front with
        | nil =>
            obtain rfl : c :: t.take (contentSize name t) = back := heq
            rw [← ht]
            exact Bool.eq_false_iff.mpr hname
        | cons d front => exact hfirst front back (List.cons.inj heq).2 hne

/-- What has no such name in it starts the content of an element. -/
theorem elementContent_append {name content rest : Text}
    (h : ∀ inside last, content = inside ++ last → last ≠ [] →
      namesElement name (last ++ rest) = false) :
    elementContent name (content ++ rest) = content ++ elementContent name rest := by
  induction content with
  | nil => rfl
  | cons c content ih =>
      have hname : namesElement name (c :: (content ++ rest)) = false :=
        h [] (c :: content) rfl (List.cons_ne_nil c content)
      have hrest := ih fun inside last heq => h (c :: inside) last (congrArg (c :: ·) heq)
      rw [List.cons_append, elementContent, if_neg (by simp [closesElement, hname]), hrest]
      rfl

/-! ### What is written -/

theorem keepsSpaceBehind_verbatim {raw : Text} (h : hasVerbatimContent raw = true) :
    keepsSpaceBehind (some (.tag raw)) = false := by
  simp only [hasVerbatimContent, Bool.and_eq_true, Bool.not_eq_true'] at h
  obtain ⟨⟨hopening, -⟩, hname⟩ := h
  have hvoid : voidElements.contains (tagName raw) = false := by
    have hmem : tagName raw ∈ verbatimElements := List.contains_iff_mem.mp hname
    simp only [verbatimElements, List.map_cons, List.map_nil, List.mem_cons, List.not_mem_nil,
      or_false] at hmem
    rcases hmem with hname | hname | hname | hname <;> rw [hname] <;> decide
  simp only [keepsSpaceBehind, hopening, hvoid, Bool.or_self, Bool.and_false]

theorem Settings.renderFrom_tag_copiedTokens (s : Settings) {raw : Text}
    (h : hasVerbatimContent raw = true) (content : Text) (behind : List Token) :
    s.renderFrom (some (.tag raw)) (copiedTokens content ++ behind) =
      content ++ s.render behind := by
  unfold copiedTokens
  split
  · rename_i hnone
    rw [hnone]
    exact s.renderFrom_of_not_keepsSpaceBehind (keepsSpaceBehind_verbatim h) behind
  · rw [List.singleton_append, renderFrom_cons, renderFrom_of_not_keepsSpaceBehind s rfl]
    rfl

/-- In a template without bindings, what an opening tag copies is written as it
stands right behind the tag, and the rest is written as markup of its own. What
is copied is the element's content up to where its name first follows `</`.
Nothing of the content is lost to the markup exactly if that is the element's
closing tag, or if there is no such place. The content is written as it stands
exactly if what is lost to the markup happens to be. -/
theorem verbatim_content_written_iff (s : Settings) {html : Text}
    (hplain : (protect html).bindings = []) :
    ∀ before raw behind, tokenize html = before ++ .tag raw :: behind →
      hasVerbatimContent raw = true →
      ∃ text content lost rest,
        html = before.flatMap Token.raw ++ (raw ++ text) ∧ text = content ++ rest ∧
        (rest = [] ∨ namesElement (tagName raw) rest = true) ∧
        (∀ inside last, content = inside ++ last → last ≠ [] →
          namesElement (tagName raw) (last ++ rest) = false) ∧
        (∃ front, s.render (s.clean (before ++ [.tag raw])) = front ++ s.writtenTag raw) ∧
        s.minify html = s.render (s.clean (before ++ [.tag raw])) ++
          (content ++ s.render (s.clean (tokenize rest))) ∧
        elementContent (tagName raw) text = content ++ lost ∧
        (lost = [] ↔ rest = [] ∨ closesElement (tagName raw) rest = true) ∧
        (s.render (s.clean (before ++ [.tag raw])) ++ elementContent (tagName raw) text <+:
          s.minify html ↔ lost <+: s.render (s.clean (tokenize rest))) := by
  intro before raw behind htokens hverbatim
  obtain ⟨text, rest, ht, -, -, htext, rfl⟩ := exists_rest_of_tokenize htokens
  have hcopied : copied raw text = text.take (contentSize (tagName raw) text) := by
    rw [copied, if_pos hverbatim]
  obtain ⟨hends, hfirst⟩ := content_ends_at_name hcopied htext
  have hlost : elementContent (tagName raw) text =
      copied raw text ++ elementContent (tagName raw) rest := by
    rw [← elementContent_append hfirst, ← htext]
  have hclean : s.clean (before ++ [.tag raw]) = s.clean before ++ [.tag raw] :=
    s.clean_append_tag before raw []
  have hminify : s.minify html = s.render (s.clean (before ++ [.tag raw])) ++
      (copied raw text ++ s.render (s.clean (tokenize rest))) := by
    rw [s.minify_of_bindings_eq_nil hplain, htokens, s.clean_append_tag,
      s.clean_append_copiedTokens, Settings.render, s.renderFrom_append_tag,
      s.renderFrom_tag_copiedTokens hverbatim, hclean]
    rfl
  refine ⟨text, copied raw text, elementContent (tagName raw) rest, rest, ht, htext, hends,
    hfirst, ?_, hminify, hlost, elementContent_eq_nil_iff, ?_⟩
  · rw [hclean]
    exact s.exists_renderFrom_append_tag none (s.clean before) raw
  · rw [hminify, hlost, List.prefix_append_right_inj, List.prefix_append_right_inj]

/-- A content whose closing tag is written in another case. -/
theorem verbatim_content_written_iff_other_case :
    (protect "<p>x <PRE>  b\n  c</Pre >  y</p>".toList).bindings = [] ∧
    tokenize "<p>x <PRE>  b\n  c</Pre >  y</p>".toList =
      [.tag "<p>".toList, .text "x ".toList] ++ .tag "<PRE>".toList ::
        [.verbatim "  b\n  c".toList, .tag "</Pre >".toList, .text "  y".toList,
          .tag "</p>".toList] ∧
    hasVerbatimContent "<PRE>".toList = true ∧
    ∃ text content lost rest,
      "<p>x <PRE>  b\n  c</Pre >  y</p>".toList =
        [Token.tag "<p>".toList, .text "x ".toList].flatMap Token.raw ++
          ("<PRE>".toList ++ text) ∧ text = content ++ rest ∧
      (rest = [] ∨ namesElement (tagName "<PRE>".toList) rest = true) ∧
      (∀ inside last, content = inside ++ last → last ≠ [] →
        namesElement (tagName "<PRE>".toList) (last ++ rest) = false) ∧
      (∃ front, Settings.render ⟨false, true, true⟩ (Settings.clean ⟨false, true, true⟩
        ([.tag "<p>".toList, .text "x ".toList] ++ [.tag "<PRE>".toList])) =
          front ++ Settings.writtenTag ⟨false, true, true⟩ "<PRE>".toList) ∧
      Settings.minify ⟨false, true, true⟩ "<p>x <PRE>  b\n  c</Pre >  y</p>".toList =
        Settings.render ⟨false, true, true⟩ (Settings.clean ⟨false, true, true⟩
          ([.tag "<p>".toList, .text "x ".toList] ++ [.tag "<PRE>".toList])) ++
            (content ++ Settings.render ⟨false, true, true⟩
              (Settings.clean ⟨false, true, true⟩ (tokenize rest))) ∧
      elementContent (tagName "<PRE>".toList) text = content ++ lost ∧
      (lost = [] ↔ rest = [] ∨ closesElement (tagName "<PRE>".toList) rest = true) ∧
      (Settings.render ⟨false, true, true⟩ (Settings.clean ⟨false, true, true⟩
          ([.tag "<p>".toList, .text "x ".toList] ++ [.tag "<PRE>".toList])) ++
            elementContent (tagName "<PRE>".toList) text <+:
          Settings.minify ⟨false, true, true⟩ "<p>x <PRE>  b\n  c</Pre >  y</p>".toList ↔
        lost <+: Settings.render ⟨false, true, true⟩
          (Settings.clean ⟨false, true, true⟩ (tokenize rest))) := by
  have hplain : (protect "<p>x <PRE>  b\n  c</Pre >  y</p>".toList).bindings = [] := by
    decide +kernel
  have htokens : tokenize "<p>x <PRE>  b\n  c</Pre >  y</p>".toList =
      [.tag "<p>".toList, .text "x ".toList] ++ .tag "<PRE>".toList ::
        [.verbatim "  b\n  c".toList, .tag "</Pre >".toList, .text "  y".toList,
          .tag "</p>".toList] := by
    decide +kernel
  exact ⟨hplain, htokens, by decide +kernel,
    verbatim_content_written_iff _ hplain _ _ _ htokens (by decide +kernel)⟩

/-- The name of a longer element ends what a script copies: white space of the
script that stands behind it is lost. -/
theorem verbatim_content_ends_at_longer_name :
    (protect "<script>s = \"</scripts>  x\";</script>".toList).bindings = [] ∧
    (tokenize "<script>s = \"</scripts>  x\";</script>".toList).head? =
      some (.tag "<script>".toList) ∧
    hasVerbatimContent "<script>".toList = true ∧
    elementContent "script".toList "s = \"</scripts>  x\";</script>".toList =
      "s = \"</scripts>  x\";".toList ∧
    Settings.minify ⟨true, true, false⟩ "<script>s = \"</scripts>  x\";</script>".toList =
      "<script>s = \"</scripts>x\";</script>".toList ∧
    ¬"<script>".toList ++ "s = \"</scripts>  x\";".toList <+:
      Settings.minify ⟨true, true, false⟩ "<script>s = \"</scripts>  x\";</script>".toList := by
  decide +kernel

end Inlay.Html
