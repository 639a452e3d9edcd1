import Inlay.Html.Token
import Inlay.Proofs.Text.Pieces

/-!
Reading the tokens of markup ends and loses nothing, however broken the markup
is: every step covers at least one character, and the tokens put side by side
are the markup. A tag is followed by the content that it has copied, if any,
and by the tokens of what is left.
-/

namespace Inlay.Html

open Text

theorem tagEnd?_pos {quote : Option Char} {t : Text} {n : Nat} (h : tagEnd? quote t = some n) :
    0 < n := by
  cases t with
  | nil => cases quote <;> simp [tagEnd?] at h
  | cons c t =>
      cases quote with
      | some q =>
          obtain ⟨m, -, rfl⟩ := Option.map_eq_some_iff.mp h
          exact Nat.succ_pos m
      | none =>
          simp only [tagEnd?] at h
          split at h
          · obtain rfl := Option.some.inj h
            exact Nat.one_pos
          · obtain ⟨m, -, rfl⟩ := Option.map_eq_some_iff.mp h
            exact Nat.succ_pos m

theorem commentSize_pos {t : Text} (ht : t ≠ []) : 0 < commentSize t := by
  unfold commentSize
  split
  · exact Nat.succ_pos _
  · exact List.length_pos_iff.mpr ht

/-- A step takes at least one character. -/
theorem front_pos {t : Text} (ht : t ≠ []) : 0 < (front t).2 := by
  unfold front
  split
  · exact commentSize_pos ht
  · split
    · exact Nat.succ_pos _
    · rename_i size hsize
      have hpos : 0 < size := by
        split at hsize
        · exact tagEnd?_pos hsize
        · contradiction
      simp only
      split
      · exact hpos
      · split
        · split
          · exact hpos
          · exact Nat.add_pos_left hpos _
        · exact hpos

/-- The tokens of a step are the characters that it covers. -/
theorem flatMap_raw_front (t : Text) : (front t).1.flatMap Token.raw = t.take (front t).2 := by
  unfold front
  split
  · simp [Token.raw]
  · split
    · simp [Token.raw]
    · simp only
      split
      · simp [Token.raw]
      · split
        · split
          · simp [Token.raw]
          · simp [Token.raw, List.take_add]
        · simp [Token.raw]

theorem flatMap_raw_front_ne_nil {t : Text} (ht : t ≠ []) :
    (front t).1.flatMap Token.raw ≠ [] := by
  rw [flatMap_raw_front, Ne, List.take_eq_nil_iff, not_or]
  exact ⟨Nat.ne_of_gt (front_pos ht), ht⟩

theorem front_ne_nil {t : Text} (ht : t ≠ []) : (front t).1 ≠ [] := by
  intro hnone
  exact flatMap_raw_front_ne_nil ht (by rw [hnone, List.flatMap_nil])

/-- The tokens of a text make it up. -/
theorem flatMap_raw_tokenize (t : Text) : (tokenize t).flatMap Token.raw = t :=
  flatMap_walk front Token.raw (fun _ => front_pos) (fun t _ => flatMap_raw_front t) t

theorem tokenize_step {t : Text} (ht : t ≠ []) :
    tokenize t = (front t).1 ++ tokenize (t.drop (front t).2) := by
  obtain ⟨c, t, rfl⟩ := List.exists_cons_of_ne_nil ht
  exact walk_cons front c t (front_pos ht)

/-- Tokens are read step by step, each step on what the one before it left. -/
theorem tokenize_steps {motive : Text → List Token → Prop} (nil : motive [] [])
    (step : ∀ t, t ≠ [] → motive (t.drop (front t).2) (tokenize (t.drop (front t).2)) →
      motive t ((front t).1 ++ tokenize (t.drop (front t).2))) (t : Text) :
    motive t (tokenize t) := by
  -- on the length, since a step covers many characters at once
  induction hn : t.length using Nat.strongRecOn generalizing t with
  | _ n ih =>
      by_cases ht : t = []
      · subst ht
        exact nil
      · have hshort : (t.drop (front t).2).length < n := by
          rw [← hn, List.length_drop]
          exact Nat.sub_lt (List.length_pos_iff.mpr ht) (front_pos ht)
        rw [tokenize_step ht]
        exact step t ht (ih _ hshort _ rfl)

/-! ### Tags -/

def copied (raw behind : Text) : Text :=
  if hasVerbatimContent raw then behind.take (contentSize (tagName raw) behind) else []

def copiedTokens (content : Text) : List Token :=
  if content = [] then [] else [.verbatim content]

theorem flatMap_raw_copiedTokens (content : Text) :
    (copiedTokens content).flatMap Token.raw = content := by
  unfold copiedTokens
  split
  · rename_i hempty
    exact hempty.symm
  · simp [Token.raw]

theorem tagEnd?_le {quote : Option Char} {t : Text} {n : Nat} (h : tagEnd? quote t = some n) :
    n ≤ t.length := by
  induction t generalizing quote n with
  | nil => cases quote <;> simp [tagEnd?] at h
  | cons c t ih =>
      cases quote with
      | some q =>
          obtain ⟨m, hm, rfl⟩ := Option.map_eq_some_iff.mp h
          exact Nat.succ_le_succ (ih hm)
      | none =>
          simp only [tagEnd?] at h
          split at h
          · obtain rfl := Option.some.inj h
            exact Nat.succ_pos _
          · obtain ⟨m, hm, rfl⟩ := Option.map_eq_some_iff.mp h
            exact Nat.succ_le_succ (ih hm)

theorem copied_eq_nil {raw behind : Text} (hverbatim : hasVerbatimContent raw = true) :
    copied raw behind = [] ↔ contentSize (tagName raw) behind = 0 := by
  rw [copied, if_pos hverbatim, List.take_eq_nil_iff]
  constructor
  · rintro (h | rfl)
    · exact h
    · rfl
  · exact .inl

/-! ### The kinds of step -/

def tagSize? (t : Text) : Option Nat := if opens t then tagEnd? none t else none

theorem tagSize?_eq_some_iff {t : Text} {n : Nat} :
    tagSize? t = some n ↔ opens t = true ∧ tagEnd? none t = some n := by
  simp [tagSize?]

theorem tagSize?_eq_none_iff {t : Text} :
    tagSize? t = none ↔ (opens t = true → tagEnd? none t = none) := by
  simp [tagSize?]

theorem front_of_comment {t : Text} (hcomment : startsWith "<!--".toList t = true) :
    front t = ([.comment (t.take (commentSize t))], commentSize t) := by
  rw [front, if_pos hcomment]

theorem front_of_no_tag {t : Text} (hcomment : startsWith "<!--".toList t = false)
    (hsize : tagSize? t = none) :
    front t = ([.text (t.take (textSize (t.drop 1) + 1))], textSize (t.drop 1) + 1) := by
  rw [tagSize?] at hsize
  simp only [front, hcomment, Bool.false_eq_true, if_false, hsize]

theorem front_of_tag {t : Text} {n : Nat} (hcomment : startsWith "<!--".toList t = false)
    (hsize : tagSize? t = some n) :
    (front t).1 =
      if startsWith ['<', '!'] (t.take n) || startsWith ['<', '?'] (t.take n) then
        [.verbatim (t.take n)]
      else .tag (t.take n) :: copiedTokens (copied (t.take n) (t.drop n)) := by
  rw [tagSize?] at hsize
  simp only [front, hcomment, Bool.false_eq_true, if_false, hsize]
  split
  · rfl
  · split
    · rename_i hverbatim
      split
      · rename_i hnone
        rw [copiedTokens, if_pos ((copied_eq_nil hverbatim).mpr hnone)]
      · rename_i hsome
        rw [copiedTokens, if_neg (mt (copied_eq_nil hverbatim).mp hsome), copied,
          if_pos hverbatim]
    · rename_i hverbatim
      simp [copiedTokens, copied, hverbatim]

/-- The tokens of a step are one that is no tag, or a tag with what it has
copied. -/
theorem front_cases (t : Text) :
    (∃ token, (∀ raw, token ≠ .tag raw) ∧ (front t).1 = [token]) ∨
      ∃ raw behind, t = raw ++ behind ∧ opens t = true ∧ tagEnd? none t = some raw.length ∧
        (front t).1 = .tag raw :: copiedTokens (copied raw behind) := by
  cases hcomment : startsWith "<!--".toList t with
  | true => exact .inl ⟨.comment _, by simp, by rw [front_of_comment hcomment]⟩
  | false =>
      cases hsize : tagSize? t with
      | none => exact .inl ⟨.text _, by simp, by rw [front_of_no_tag hcomment hsize]⟩
      | some n =>
          obtain ⟨hopens, hend⟩ := tagSize?_eq_some_iff.mp hsize
          rw [front_of_tag hcomment hsize]
          split
          · exact .inl ⟨.verbatim _, by simp, rfl⟩
          · refine .inr ⟨_, _, (List.take_append_drop n t).symm, hopens, ?_, rfl⟩
            rw [List.length_take_of_le (tagEnd?_le hend), hend]

/-- Tokens are read one by one: one that is no tag, or a tag with what it has
copied. -/
theorem tokenize_induction {motive : Text → List Token → Prop} (nil : motive [] [])
    (token : ∀ token rest, (∀ raw, token ≠ .tag raw) → motive rest (tokenize rest) →
      motive (token.raw ++ rest) (token :: tokenize rest))
    (tag : ∀ raw behind rest, opens (raw ++ behind) = true →
      tagEnd? none (raw ++ behind) = some raw.length → behind = copied raw behind ++ rest →
      motive rest (tokenize rest) →
      motive (raw ++ behind) (.tag raw :: (copiedTokens (copied raw behind) ++ tokenize rest)))
    (t : Text) : motive t (tokenize t) := by
  refine tokenize_steps nil (fun t ht hrest => ?_) t
  have hsplit := List.take_append_drop (front t).2 t
  rw [← flatMap_raw_front t] at hsplit
  generalize t.drop (front t).2 = rest at hsplit hrest ⊢
  rcases front_cases t with ⟨first, hfirst, htokens⟩ | ⟨raw, behind, ht, hopens, hend, htokens⟩
  · rw [htokens] at hsplit ⊢
    rw [← hsplit]
    simpa using token first rest hfirst hrest
  · rw [htokens] at hsplit ⊢
    rw [ht] at hopens hend hsplit ⊢
    refine tag raw behind rest hopens hend ?_ hrest
    simpa [flatMap_raw_copiedTokens, Token.raw] using hsplit.symm

/-- What a step reads is never empty. -/
theorem raw_ne_nil_of_mem_front {t : Text} (ht : t ≠ []) :
    ∀ token ∈ (front t).1, token.raw ≠ [] := by
  rcases front_cases t with ⟨first, -, htokens⟩ | ⟨raw, behind, -, -, hend, htokens⟩
  · have hcovered := flatMap_raw_front_ne_nil ht
    rw [htokens, List.flatMap_singleton] at hcovered
    rwa [htokens, List.forall_mem_singleton]
  · rw [htokens, List.forall_mem_cons]
    refine ⟨List.length_pos_iff.mp (tagEnd?_pos hend), ?_⟩
    unfold copiedTokens
    split
    · simp
    · rename_i hcontent
      exact List.forall_mem_singleton.mpr hcontent

theorem raw_ne_nil_of_mem_tokenize (t : Text) : ∀ token ∈ tokenize t, token.raw ≠ [] :=
  tokenize_steps (motive := fun _ tokens => ∀ token ∈ tokens, token.raw ≠ []) (by simp)
    (fun _ ht hrest => List.forall_mem_append.mpr ⟨raw_ne_nil_of_mem_front ht, hrest⟩) t

/-- Each tag comes with the markup around it: the tokens in front of it make up
the text up to it, and the tokens behind it are what it has copied and those of
the rest. -/
theorem exists_rest_of_tokenize {t raw : Text} {before behind : List Token}
    (h : tokenize t = before ++ .tag raw :: behind) :
    ∃ text rest, t = before.flatMap Token.raw ++ (raw ++ text) ∧ opens (raw ++ text) = true ∧
      tagEnd? none (raw ++ text) = some raw.length ∧ text = copied raw text ++ rest ∧
      behind = copiedTokens (copied raw text) ++ tokenize rest := by
  revert before behind
  refine tokenize_induction (motive := fun t tokens => ∀ {before behind : List Token},
    tokens = before ++ .tag raw :: behind → ∃ text rest,
      t = before.flatMap Token.raw ++ (raw ++ text) ∧ opens (raw ++ text) = true ∧
      tagEnd? none (raw ++ text) = some raw.length ∧ text = copied raw text ++ rest ∧
      behind = copiedTokens (copied raw text) ++ tokenize rest) ?_ ?_ ?_ t
  · intro before behind h
    simp at h
  · intro token rest htoken ih before behind h
    cases before with
    | nil => exact absurd (List.cons.inj h).1 (htoken raw)
    | cons first before =>
        obtain ⟨rfl, htail⟩ := List.cons.inj h
        obtain ⟨text, left, hrest, hmore⟩ := ih htail
        exact ⟨text, left, by rw [hrest, List.flatMap_cons, List.append_assoc], hmore⟩
  · intro first text rest hopens hend htext ih before behind h
    cases before with
    | nil =>
        obtain ⟨hfirst, rfl⟩ := List.cons.inj h
        obtain rfl := Token.tag.inj hfirst
        exact ⟨text, rest, rfl, hopens, hend, htext, rfl⟩
    | cons token before =>
        obtain ⟨rfl, htail⟩ := List.cons.inj h
        -- what the first tag has copied holds no tag
        obtain ⟨more, hmore, hbefore⟩ : ∃ more, tokenize rest = more ++ .tag raw :: behind ∧
            before = copiedTokens (copied first text) ++ more := by
          unfold copiedTokens at htail ⊢
          split at htail
          · rename_i hnone
            exact ⟨before, htail, by rw [if_pos hnone]; rfl⟩
          · rename_i hsome
            cases before with
            | nil => exact absurd (List.cons.inj htail).1 (by simp)
            | cons content more =>
                obtain ⟨rfl, hmore⟩ := List.cons.inj htail
                exact ⟨more, hmore, by rw [if_neg hsome]; rfl⟩
        obtain ⟨found, left, hrest, hfound⟩ := ih hmore
        refine ⟨found, left, ?_, hfound⟩
        rw [htext]
        simp [hbefore, flatMap_raw_copiedTokens, Token.raw, hrest]

end Inlay.Html
