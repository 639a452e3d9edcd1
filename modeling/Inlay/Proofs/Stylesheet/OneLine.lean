import Inlay.Proofs.Text.Literal
import Inlay.Proofs.Text.Words
import Inlay.Stylesheet.Compile

/-!
Style sheets on one line. Nothing takes the place of a line break that is left
out, so a plain style sheet keeps its words exactly if no two of them are parted
by line breaks only.
-/

namespace Inlay

namespace Text

def EndsInBareBreaks (t : Text) : Prop :=
  ∃ front c gap, t = front ++ c :: gap ∧ isBlank c = false ∧
    gap ≠ [] ∧ ∀ b ∈ gap, isBreak b = true

/-- Somewhere in the text nothing but line breaks stands between two words. -/
def HasBareBreaks (t : Text) : Prop :=
  ∃ front d back, t = front ++ d :: back ∧ EndsInBareBreaks front ∧ isBlank d = false

theorem withoutBreaks_append_kept {c : Char} (hc : isBreak c = false) (t : Text) :
    withoutBreaks (t ++ [c]) = withoutBreaks t ++ [c] := by
  simp [withoutBreaks, hc]

theorem withoutBreaks_append_gap {gap : Text} (hgap : ∀ b ∈ gap, isBreak b = true) (t : Text) :
    withoutBreaks (t ++ gap) = withoutBreaks t := by
  simpa [withoutBreaks] using hgap

theorem apartBehind_append_singleton (apart : Bool) (t : Text) (c : Char) :
    apartBehind apart (t ++ [c]) = isBlank c := by
  simp [apartBehind]

/-! ### The end of a text -/

theorem EndsInBareBreaks.append_break {t : Text} (h : EndsInBareBreaks t) {b : Char}
    (hb : isBreak b = true) : EndsInBareBreaks (t ++ [b]) := by
  obtain ⟨front, c, gap, rfl, hc, -, hgap⟩ := h
  refine ⟨front, c, gap ++ [b], by simp, hc, by simp, fun e he => ?_⟩
  rcases List.mem_append.mp he with he | he
  · exact hgap e he
  · rwa [List.mem_singleton.mp he]

/-- White space stands behind the text, but none that stays. -/
theorem endsInBareBreaks_iff (t : Text) :
    EndsInBareBreaks t ↔
      apartBehind true t = true ∧ apartBehind true (withoutBreaks t) = false := by
  constructor
  · rintro ⟨front, c, gap, rfl, hc, hne, hgap⟩
    have hblank : Blank gap := fun b hb => isBlank_of_isBreak (hgap b hb)
    rw [List.append_cons, withoutBreaks_append_gap hgap,
      withoutBreaks_append_kept (isBreak_of_not_isBlank hc), apartBehind_append_singleton,
      apartBehind_append, hblank.apartBehind_eq]
    exact ⟨by simp [hne], hc⟩
  · rintro ⟨hbehind, hkept⟩
    induction t using List.reverseRecOn with
    | nil => contradiction
    | append_singleton t b ih =>
        rw [apartBehind_append_singleton] at hbehind
        cases hb : isBreak b with
        | false =>
            rw [withoutBreaks_append_kept hb, apartBehind_append_singleton, hbehind] at hkept
            contradiction
        | true =>
            have hgap : ∀ e ∈ [b], isBreak e = true := by simpa using hb
            rw [withoutBreaks_append_gap hgap] at hkept
            cases hword : apartBehind true t with
            | true => exact (ih hword hkept).append_break hb
            | false =>
                cases t using List.reverseRecOn with
                | nil => contradiction
                | append_singleton t c =>
                    rw [apartBehind_append_singleton] at hword
                    exact ⟨t, c, [b], by simp, hword, by simp, hgap⟩

theorem apartBehind_withoutBreaks_eq_iff (t : Text) :
    apartBehind true (withoutBreaks t) = apartBehind true t ↔ ¬EndsInBareBreaks t := by
  rw [endsInBareBreaks_iff]
  cases hbehind : apartBehind true t with
  | true => simp
  | false =>
      -- a character that is no white space stands at the end, and it stays there
      have hkept : apartBehind true (withoutBreaks t) = false := by
        cases t using List.reverseRecOn with
        | nil => contradiction
        | append_singleton t c =>
            rw [apartBehind_append_singleton] at hbehind
            rw [withoutBreaks_append_kept (isBreak_of_not_isBlank hbehind),
              apartBehind_append_singleton, hbehind]
      simp [hkept]

/-! ### Words -/

theorem hasBareBreaks_append_singleton (t : Text) (d : Char) :
    HasBareBreaks (t ++ [d]) ↔ HasBareBreaks t ∨ (EndsInBareBreaks t ∧ isBlank d = false) := by
  constructor
  · rintro ⟨front, e, back, ht, hfront, he⟩
    cases back using List.reverseRecOn with
    | nil =>
        obtain ⟨rfl, rfl⟩ := List.append_singleton_inj.mp ht
        exact .inr ⟨hfront, he⟩
    | append_singleton back f =>
        rw [← List.cons_append, ← List.append_assoc] at ht
        exact .inl ⟨front, e, back, (List.append_singleton_inj.mp ht).1, hfront, he⟩
  · rintro (⟨front, e, back, rfl, hfront, he⟩ | ⟨hfront, hd⟩)
    · exact ⟨front, e, back ++ [d], by simp, hfront, he⟩
    · exact ⟨t, d, [], rfl, hfront, hd⟩

theorem inkFrom_withoutBreaks_eq_iff (t : Text) :
    inkFrom true (withoutBreaks t) = inkFrom true t ↔ ¬HasBareBreaks t := by
  induction t using List.reverseRecOn with
  | nil => simp [withoutBreaks, HasBareBreaks]
  | append_singleton t d ih =>
      rw [hasBareBreaks_append_singleton, not_or, ← ih]
      cases hd : isBlank d with
      | true =>
          have hblank : Blank [d] := by simpa [Blank] using hd
          have hink : inkFrom true (withoutBreaks (t ++ [d])) =
              inkFrom true (withoutBreaks t) := by
            cases hb : isBreak d with
            | true => rw [withoutBreaks_append_gap (by simpa using hb)]
            | false =>
                rw [withoutBreaks_append_kept hb, inkFrom_append, hblank.inkFrom_eq_nil,
                  List.append_nil]
          simp [hink, inkFrom_append true t, hblank.inkFrom_eq_nil]
      | false =>
          have hword (apart : Bool) : inkFrom apart [d] = [(apart, d)] := by simp [inkFrom, hd]
          rw [withoutBreaks_append_kept (isBreak_of_not_isBlank hd), inkFrom_append, inkFrom_append,
            hword, hword, List.append_singleton_inj, Prod.mk.injEq,
            apartBehind_withoutBreaks_eq_iff]
          simp

theorem words_withoutBreaks_eq_iff (t : Text) :
    words (withoutBreaks t) = words t ↔ ¬HasBareBreaks t :=
  words_eq_iff.trans (inkFrom_withoutBreaks_eq_iff t)

end Text

namespace Stylesheet

open Text

/-- A plain style sheet that is not minified always has a result, and as a
literal the result has the words of the sheet exactly if no two of them are
parted by line breaks only. -/
theorem process_words_eq_iff (tools : Tools) (options : Options) (targetDir : Option Text)
    (r : Reference) (source : Text) (hcss : r.dialect = .css) (hplain : options.compress = false) :
    ∃ text plain, process tools options targetDir r source = .ok text ∧
      Literal.unquote? '\'' (text ++ ['\'']) = some (plain, []) ∧
      (words plain = words source ↔ ¬HasBareBreaks source) := by
  have hbreaks : ∀ c ∈ withoutBreaks source, isBreak c = false := fun _ hc =>
    Literal.isBreak_of_mem_withoutBreaks hc
  have hread : Literal.unquote? '\'' (Literal.escapeSingle (withoutBreaks source) ++ ['\'']) =
      some (withoutBreaks source, []) := by
    have hend : Literal.unquote? '\'' ['\''] = some ([], []) := rfl
    simp [Literal.unquote?_escapeSingle_append hbreaks, hend]
  refine ⟨Literal.escapeSingle (withoutBreaks source), withoutBreaks source, ?_, hread,
    words_withoutBreaks_eq_iff source⟩
  simp [process, compile, hcss, flatten, normalize, hplain, Except.map]

def bareTools : Tools where
  less _ _ _ := .ended false [] []
  scss _ source := .ok source
  minifier _ := none

theorem process_words_eq_iff_indented :
    (Reference.of {} none "a.css".toList).dialect = .css ∧ ({} : Options).compress = false ∧
    ∃ text plain, process bareTools {} none (Reference.of {} none "a.css".toList)
        "a,\n  b\x7b\x7d".toList = .ok text ∧
      Literal.unquote? '\'' (text ++ ['\'']) = some (plain, []) ∧
      (words plain = words "a,\n  b\x7b\x7d".toList ↔
        ¬HasBareBreaks "a,\n  b\x7b\x7d".toList) :=
  have hcss : (Reference.of {} none "a.css".toList).dialect = .css := by decide +kernel
  ⟨hcss, rfl, process_words_eq_iff bareTools {} none _ _ hcss rfl⟩

/-- A line break right between two words makes one of them, also where the style
sheet has no strings and no comments. -/
theorem bare_break_joins_words :
    (Reference.of {} none "a.css".toList).dialect = .css ∧ ({} : Options).compress = false ∧
    ('"' ∉ "a\nb\x7b\x7d".toList ∧ '\'' ∉ "a\nb\x7b\x7d".toList ∧
      '/' ∉ "a\nb\x7b\x7d".toList) ∧
    process bareTools {} none (Reference.of {} none "a.css".toList) "a\nb\x7b\x7d".toList =
      .ok "ab\x7b\x7d".toList ∧
    Literal.unquote? '\'' ("ab\x7b\x7d".toList ++ ['\'']) = some ("ab\x7b\x7d".toList, []) ∧
    words "ab\x7b\x7d".toList ≠ words "a\nb\x7b\x7d".toList :=
  ⟨by decide +kernel, rfl, by decide +kernel, by decide +kernel, by decide +kernel,
    by decide +kernel⟩

end Stylesheet

end Inlay
