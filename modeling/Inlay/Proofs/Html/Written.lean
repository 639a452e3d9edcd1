import Inlay.Html.Minify
import Inlay.Proofs.Html.Bindings
import Inlay.Proofs.Html.Tokens

/-!
Tokens are written one by one. What is written for a token depends on its two
neighbours at most, and for a tag on none, so that a template can be taken
apart at its tags. A template without bindings is written as it is tokenized.
-/

namespace Inlay.Html

open Text

def Settings.writtenTag (s : Settings) (raw : Text) : Text :=
  let tag := if s.collapseSpace then collapseTag raw else raw
  if s.keepCase then tag else lowerName tag

def Settings.written (s : Settings) (before : Option Token) (token : Token)
    (behind : Option Token) : Text :=
  match token with
  | .text t => if s.collapseSpace then collapseText before t behind else t
  | .tag raw => s.writtenTag raw
  | .comment raw => raw
  | .verbatim raw => raw

theorem Settings.renderFrom_cons (s : Settings) (before : Option Token) (token : Token)
    (rest : List Token) :
    s.renderFrom before (token :: rest) =
      s.written before token rest.head? ++ s.renderFrom (some token) rest := by
  cases token <;> rfl

def Settings.writings (s : Settings) :
    Option Token → List Token → Option Token → List (Token × Text)
  | _, [], _ => []
  | before, token :: rest, behind =>
    (token, s.written before token (rest.head?.or behind)) :: s.writings (some token) rest behind

theorem Settings.map_fst_writings (s : Settings) (before : Option Token) (tokens : List Token)
    (behind : Option Token) : (s.writings before tokens behind).map Prod.fst = tokens := by
  induction tokens generalizing before with
  | nil => rfl
  | cons token rest ih => simp [writings, ih]

theorem Settings.flatMap_snd_writings (s : Settings) (before : Option Token)
    (tokens : List Token) :
    (s.writings before tokens none).flatMap Prod.snd = s.renderFrom before tokens := by
  induction tokens generalizing before with
  | nil => rfl
  | cons token rest ih => rw [writings, List.flatMap_cons, ih, renderFrom_cons, Option.or_none]

theorem getLast?_cons_or (x : α) (xs : List α) (d : Option α) :
    (x :: xs).getLast?.or d = xs.getLast?.or (some x) := by
  rw [List.getLast?_cons]
  cases xs.getLast? <;> rfl

theorem Settings.writings_append (s : Settings) (before : Option Token) (front back : List Token)
    (behind : Option Token) :
    s.writings before (front ++ back) behind =
      s.writings before front (back.head?.or behind) ++
        s.writings (front.getLast?.or before) back behind := by
  induction front generalizing before with
  | nil => rfl
  | cons token front ih =>
      have hnext : (front ++ back).head?.or behind = front.head?.or (back.head?.or behind) := by
        rw [List.head?_append, Option.or_assoc]
      rw [List.cons_append, writings, writings, ih, hnext, getLast?_cons_or, List.cons_append]

/-- What is written for a token between its neighbours. -/
theorem Settings.mem_writings_iff (s : Settings) {before behind : Option Token}
    {tokens : List Token} {e : Token × Text} :
    e ∈ s.writings before tokens behind ↔ ∃ front token back,
      tokens = front ++ token :: back ∧
        e = (token, s.written (front.getLast?.or before) token (back.head?.or behind)) := by
  constructor
  · intro h
    induction tokens generalizing before with
    | nil => simp [writings] at h
    | cons token rest ih =>
        rcases List.mem_cons.mp h with rfl | h
        · exact ⟨[], token, rest, rfl, rfl⟩
        · obtain ⟨front, found, back, rfl, rfl⟩ := ih h
          exact ⟨token :: front, found, back, rfl, by rw [getLast?_cons_or]⟩
  · rintro ⟨front, token, back, rfl, rfl⟩
    rw [writings_append]
    exact List.mem_append_right _ List.mem_cons_self

/-! ### Taking tokens apart at a tag -/

theorem mergeTexts_append_tag (before : List Token) (raw : Text) (behind : List Token) :
    mergeTexts (before ++ .tag raw :: behind) =
      mergeTexts before ++ .tag raw :: mergeTexts behind := by
  induction before with
  | nil => rfl
  | cons token before ih =>
      cases token with
      | text a =>
          rw [List.cons_append, mergeTexts, mergeTexts, ih]
          -- the tag keeps what is behind it from being merged
          cases hmerged : mergeTexts before with
          | nil => rfl
          | cons first more => cases first <;> rfl
      | tag raw => simp [mergeTexts, ih]
      | comment raw => simp [mergeTexts, ih]
      | verbatim raw => simp [mergeTexts, ih]

theorem Settings.clean_append_tag (s : Settings) (before : List Token) (raw : Text)
    (behind : List Token) :
    s.clean (before ++ .tag raw :: behind) = s.clean before ++ .tag raw :: s.clean behind := by
  rw [clean, List.filter_append, List.filter_cons_of_pos rfl, mergeTexts_append_tag]
  rfl

theorem Settings.renderFrom_append_tag (s : Settings) (start : Option Token)
    (before : List Token) (raw : Text) (behind : List Token) :
    s.renderFrom start (before ++ .tag raw :: behind) =
      s.renderFrom start (before ++ [.tag raw]) ++ s.renderFrom (some (.tag raw)) behind := by
  induction before generalizing start with
  | nil => simp [renderFrom]
  | cons token before ih =>
      have hnext : (before ++ Token.tag raw :: behind).head? =
          (before ++ [Token.tag raw]).head? := by
        cases before <;> rfl
      rw [List.cons_append, List.cons_append, renderFrom_cons, renderFrom_cons, ih, hnext,
        List.append_assoc]

/-- A tag that is the last token is written last. -/
theorem Settings.exists_renderFrom_append_tag (s : Settings) (start : Option Token)
    (before : List Token) (raw : Text) :
    ∃ front, s.renderFrom start (before ++ [.tag raw]) = front ++ s.writtenTag raw := by
  induction before generalizing start with
  | nil => exact ⟨[], by simp [renderFrom_cons, renderFrom, written]⟩
  | cons token before ih =>
      obtain ⟨front, hfront⟩ := ih (some token)
      refine ⟨s.written start token (before ++ [Token.tag raw]).head? ++ front, ?_⟩
      rw [List.cons_append, renderFrom_cons, hfront, List.append_assoc]

theorem Settings.clean_append_copiedTokens (s : Settings) (content : Text)
    (behind : List Token) :
    s.clean (copiedTokens content ++ behind) = copiedTokens content ++ s.clean behind := by
  unfold copiedTokens
  split
  · rfl
  · rw [clean, List.filter_append, List.filter_cons_of_pos rfl]
    rfl

/-- Where no white space is kept behind what stands in front, tokens are written
as at the start. -/
theorem Settings.renderFrom_of_not_keepsSpaceBehind (s : Settings) {before : Option Token}
    (h : keepsSpaceBehind before = false) (tokens : List Token) :
    s.renderFrom before tokens = s.render tokens := by
  cases tokens with
  | nil => rfl
  | cons token rest =>
      have hnone : keepsSpaceBehind none = false := rfl
      rw [render, renderFrom_cons, renderFrom_cons]
      cases token <;> simp [written, collapseText, h, hnone]

/-! ### Templates without bindings -/

theorem withMarkers_of_found_eq_nil {n : Nat} {ps : List (Piece Unit)} (h : found ps = []) :
    withMarkers n ps = ps.flatMap Piece.raw := by
  induction ps with
  | nil => rfl
  | cons p ps ih =>
      cases p with
      | plain c => exact congrArg (c :: ·) (ih h)
      | hit raw u => simp [found] at h

theorem protect_of_bindings_eq_nil {html : Text} (h : (protect html).bindings = []) :
    protect html = ⟨html, []⟩ := by
  obtain ⟨hproperties, hevents⟩ := List.append_eq_nil_iff.mp h
  have hmarked : withMarkers 0 (Text.pieces property? html) = html := by
    rw [withMarkers_of_found_eq_nil hproperties, flatMap_raw_pieces takesFront_property?]
  have htext : (protect html).text = html := by
    simp only [protect]
    rw [withMarkers_of_found_eq_nil hevents, hmarked, flatMap_raw_pieces takesFront_event?]
  cases hguarded : protect html with
  | mk text bindings =>
      rw [hguarded] at htext h
      obtain rfl : text = html := htext
      obtain rfl : bindings = [] := h
      rfl

theorem restore_nil (t : Text) : restore [] t = t := by
  have hraw : restore [] t = (Text.pieces marker? t).flatMap Piece.raw := by
    unfold restore
    congr 1
    funext p
    cases p <;> rfl
  rw [hraw, flatMap_raw_pieces takesFront_marker?]

theorem Settings.minify_of_bindings_eq_nil (s : Settings) {html : Text}
    (h : (protect html).bindings = []) : s.minify html = s.render (s.clean (tokenize html)) := by
  simp only [minify, protect_of_bindings_eq_nil h, restore_nil]

end Inlay.Html
