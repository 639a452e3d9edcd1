import Inlay.Html.Minify
import Inlay.Proofs.Html.Tokens
import Mathlib.Data.List.Chain

/-!
Texts that stand side by side. A text goes on to the next opening of a tag, so
that a second text follows it only where the tag that opens there has no end.
Cleaning makes one text of such neighbours, also where a comment between them
was dropped.
-/

namespace Inlay.Html

open Text

/-! ### Tags that have no end -/

def quoteBehind : Option Char → Char → Option Char
  | some q, c => if c = q then none else some q
  | none, c => if c = '"' ∨ c = '\'' then some c else none

def NeverEnds (t : Text) : Prop :=
  ∀ inside rest, t = inside ++ '>' :: rest → inside.foldl quoteBehind none ≠ none

theorem tagEnd?_eq_none_iff {quote : Option Char} {t : Text} :
    tagEnd? quote t = none ↔
      ∀ inside rest, t = inside ++ '>' :: rest → inside.foldl quoteBehind quote ≠ none := by
  induction t generalizing quote with
  | nil =>
      refine iff_of_true (by cases quote <;> rfl) fun inside rest h => ?_
      simp at h
  | cons c t ih =>
      -- the quotes in front of a `>` that is not the first character start with that character
      have hlater : (∀ inside rest, t = inside ++ '>' :: rest →
          inside.foldl quoteBehind (quoteBehind quote c) ≠ none) ↔
          ∀ inside rest, inside ≠ [] → c :: t = inside ++ '>' :: rest →
            inside.foldl quoteBehind quote ≠ none := by
        constructor
        · rintro h (_ | ⟨d, inside⟩) rest hne heq
          · contradiction
          · obtain ⟨rfl, ht⟩ := List.cons.inj heq
            exact h inside rest ht
        · rintro h inside rest rfl
          exact h (c :: inside) rest (by simp) rfl
      by_cases hend : quote = none ∧ c = '>'
      · obtain ⟨rfl, rfl⟩ := hend
        refine iff_of_false (by simp [tagEnd?]) fun h => ?_
        exact h [] t rfl rfl
      · have hstep : tagEnd? quote (c :: t) = none ↔ tagEnd? (quoteBehind quote c) t = none := by
          cases quote with
          | some q => simp [tagEnd?, quoteBehind]
          | none =>
              have hc : c ≠ '>' := fun h => hend ⟨rfl, h⟩
              simp [tagEnd?, quoteBehind, hc]
        rw [hstep, ih, hlater]
        constructor
        · intro h inside rest heq
          by_cases hinside : inside = []
          · subst hinside
            exact fun hquote => hend ⟨hquote, (List.cons.inj heq).1⟩
          · exact h inside rest hinside heq
        · exact fun h inside rest _ heq => h inside rest heq

/-! ### Where a text stops -/

theorem opens_cons_of_ne {c : Char} (hc : c ≠ '<') (t : Text) : opens (c :: t) = false := by
  unfold opens
  split
  · rename_i heq
    exact absurd (List.cons.inj heq).1 hc
  · rename_i heq
    exact absurd (List.cons.inj heq).1 hc
  · rfl

theorem head?_of_opens {t : Text} (h : opens t = true) : t.head? = some '<' := by
  cases t with
  | nil => contradiction
  | cons c t =>
      by_contra hc
      rw [opens_cons_of_ne fun heq => hc (congrArg some heq)] at h
      contradiction

theorem drop_textSize (t : Text) :
    t.drop (textSize t) = [] ∨ opens (t.drop (textSize t)) = true := by
  induction t with
  | nil => exact .inl rfl
  | cons c t ih =>
      rw [textSize]
      split
      · rename_i hopens
        exact .inr hopens
      · exact ih

theorem take_textSize_cons {c : Char} (hc : c ≠ '<') (t : Text) :
    (c :: t).take (textSize (c :: t)) = c :: t.take (textSize t) := by
  simp [textSize, opens_cons_of_ne hc]

/-- A text that starts with the opening of a tag holds all of the opening. -/
theorem opens_take_textSize {t : Text} (h : opens t = true) :
    opens (t.take (textSize (t.drop 1) + 1)) = true := by
  unfold opens at h
  split at h
  · rename_i c rest
    have hc : c ≠ '<' := by
      rintro rfl
      exact absurd h (by decide)
    rw [List.drop_succ_cons, List.drop_zero, List.take_succ_cons,
      take_textSize_cons (by decide), take_textSize_cons hc]
    exact h
  · rename_i c rest hslash
    have hc : c ≠ '<' ∧ c ≠ '/' := by
      constructor <;>
      · rintro rfl
        exact absurd h (by decide)
    rw [List.drop_succ_cons, List.drop_zero, List.take_succ_cons, take_textSize_cons hc.1]
    unfold opens
    split
    · rename_i heq
      exact absurd (List.cons.inj (List.cons.inj heq).2).1 hc.2
    · rename_i heq
      obtain ⟨rfl, -⟩ := List.cons.inj (List.cons.inj heq).2
      exact h
    · rename_i hnot
      exact absurd rfl (hnot c _)
  · contradiction

/-- A step that reads a text reads nothing else. The text stops where a tag
opens, and if a tag opens where it starts, that tag has no end. -/
theorem front_of_text {t a : Text} (h : .text a ∈ (front t).1) :
    (front t).1 = [.text a] ∧ a = t.take (textSize (t.drop 1) + 1) ∧
      (t.drop (front t).2 = [] ∨ opens (t.drop (front t).2) = true) ∧
      (opens t = true → tagEnd? none t = none) := by
  cases hcomment : startsWith "<!--".toList t with
  | true => simp [front_of_comment hcomment] at h
  | false =>
      cases hsize : tagSize? t with
      | none =>
          rw [front_of_no_tag hcomment hsize] at h ⊢
          obtain rfl := Token.text.inj (List.mem_singleton.mp h)
          refine ⟨rfl, rfl, ?_, tagSize?_eq_none_iff.mp hsize⟩
          rw [Nat.add_comm, ← List.drop_drop]
          exact drop_textSize (t.drop 1)
      | some n =>
          rw [front_of_tag hcomment hsize, copiedTokens] at h
          split at h
          · simp at h
          · split at h <;> simp at h

/-! ### Neighbours -/

/-- A text where a tag opens is there because the tag has no end. -/
theorem opens_of_text_behind {rest b : Text} {behind : List Token}
    (hstop : rest = [] ∨ opens rest = true) (h : tokenize rest = .text b :: behind) :
    opens b = true ∧ NeverEnds (b ++ behind.flatMap Token.raw) := by
  have hwhole := flatMap_raw_tokenize rest
  rw [h, List.flatMap_cons] at hwhole
  have hne : rest ≠ [] := by
    rintro rfl
    contradiction
  have hopens := hstop.resolve_left hne
  obtain ⟨first, others, hfront⟩ := List.exists_cons_of_ne_nil (front_ne_nil hne)
  rw [tokenize_step hne, hfront] at h
  have hmem : .text b ∈ (front rest).1 := by
    rw [hfront, (List.cons.inj h).1]
    exact List.mem_cons_self
  obtain ⟨-, hb, -, hend⟩ := front_of_text hmem
  refine ⟨hb ▸ opens_take_textSize hopens, ?_⟩
  rw [show b ++ behind.flatMap Token.raw = rest from hwhole]
  exact tagEnd?_eq_none_iff.mp (hend hopens)

/-- The second of two texts side by side starts with the opening of a tag that
has no end. -/
theorem opens_of_texts {t a b : Text} {before behind : List Token}
    (h : tokenize t = before ++ .text a :: .text b :: behind) :
    opens b = true ∧ NeverEnds (b ++ behind.flatMap Token.raw) := by
  refine tokenize_steps (motive := fun _ tokens => ∀ before,
    tokens = before ++ .text a :: .text b :: behind →
      opens b = true ∧ NeverEnds (b ++ behind.flatMap Token.raw)) ?_ ?_ t before h
  · intro before h
    simp at h
  · intro t ht ih before h
    generalize hrest : t.drop (front t).2 = rest at h ih
    rcases List.append_eq_append_iff.mp h with ⟨more, -, hmore⟩ | ⟨more, hfront, hmore⟩
    · exact ih _ hmore
    · cases more with
      | nil => exact ih [] hmore.symm
      | cons first more =>
          obtain ⟨rfl, hnext⟩ := List.cons.inj hmore
          obtain ⟨hsingle, -, hstop, -⟩ := front_of_text (t := t) (a := a) (by simp [hfront])
          -- the first text is all of its step, so the second starts the next one
          obtain rfl : more = [] := by
            have hlength := congrArg List.length (hsingle.symm.trans hfront)
            rw [← List.length_eq_zero_iff]
            simp only [List.length_append, List.length_cons, List.length_nil] at hlength
            omega
          exact opens_of_text_behind (hrest ▸ hstop) hnext.symm

/-! ### Cleaning -/

def Token.isText : Token → Bool
  | .text _ => true
  | _ => false

theorem isChain_mergeTexts (tokens : List Token) :
    (mergeTexts tokens).IsChain fun x y => x.isText = true → y.isText = false := by
  induction tokens with
  | nil => exact .nil
  | cons token rest ih =>
      cases token with
      | text a =>
          rw [mergeTexts]
          split
          · rename_i b more hmerged
            rw [hmerged, List.isChain_cons] at ih
            exact List.isChain_cons.mpr ih
          · rename_i hmerged
            refine List.isChain_cons.mpr ⟨fun y hy _ => ?_, ih⟩
            cases y with
            | text b =>
                obtain ⟨more, hmore⟩ := List.head?_eq_some_iff.mp hy
                exact absurd hmore (hmerged b more)
            | _ => rfl
      | _ => exact List.isChain_cons.mpr ⟨by simp [Token.isText], ih⟩

/-- No two texts stand side by side once tokens are cleaned. -/
theorem Settings.clean_ne (s : Settings) (tokens before : List Token) (a b : Text)
    (behind : List Token) : s.clean tokens ≠ before ++ .text a :: .text b :: behind := by
  intro h
  have hchain := isChain_mergeTexts (tokens.filter fun token => !s.drops token)
  rw [show mergeTexts _ = _ from h, List.isChain_append_cons_cons] at hchain
  exact absurd (hchain.2.1 rfl) (by simp [Token.isText])

end Inlay.Html
