import Inlay.Proofs.Html.Written
import Inlay.Proofs.Text.Words

/-!
Words across inline elements. White space is trimmed from a text behind an
opening tag and in front of a closing one. Two words of a run of texts and inline
tags that only such white space keeps apart are made one; all others stay.
-/

namespace Inlay.Html

open Text

def Token.flows : Token → Bool
  | .text _ => true
  | .tag raw => inlineElements.contains (tagName raw)
  | _ => false

def Token.isStart : Token → Bool
  | .tag raw => !isClosing raw && !voidElements.contains (tagName raw)
  | _ => false

def Token.isEnd : Token → Bool
  | .tag raw => isClosing raw
  | _ => false

def Token.plainText : Token → Text
  | .text t => t
  | _ => []

def plainWritten : Token × Text → Text
  | (.text _, written) => written
  | _ => []

/-- White space keeps the last word of a text and the first one of a later text
apart, with nothing but tags and white space between the two texts. -/
def Parted (a : Text) (between : List Token) (b : Text) : Prop :=
  endsBlank a = true ∨ (∃ t, .text t ∈ between ∧ t ≠ []) ∨ startsBlank b = true

/-- Some of this white space does not stand behind an opening tag, nor in front
of a closing one. -/
def StaysParted (a : Text) (between : List Token) (b : Text) : Prop :=
  (endsBlank a = true ∧ between.head?.all (!·.isEnd) = true) ∨
    (∃ front t back, between = front ++ .text t :: back ∧ t ≠ [] ∧
      front.getLast?.all (!·.isStart) = true ∧ back.head?.all (!·.isEnd) = true) ∨
    (startsBlank b = true ∧ between.getLast?.all (!·.isStart) = true)

/-! ### Collapsed texts -/

section

variable (before : Option Token) (t : Text) (behind : Option Token)

theorem inkFrom_collapseText : inkFrom true (collapseText before t behind) = inkFrom true t := by
  unfold collapseText
  simp only
  split <;> split <;> simp only [inkFrom_trimEnd, inkFrom_trimStart, inkFrom_collapse]

variable {t}

theorem blank_collapse_iff : Blank (collapse t) ↔ Blank t := by
  rw [blank_iff, blank_iff, inkFrom_collapse]

theorem startsBlank_collapseText (h : ¬Blank t) :
    startsBlank (collapseText before t behind) = (startsBlank t && keepsSpaceBehind before) := by
  have hcollapse : ¬Blank (collapse t) := mt blank_collapse_iff.mp h
  have htrim : ¬Blank (trimStart (collapse t)) := by
    rwa [blank_iff, inkFrom_trimStart, ← blank_iff]
  cases hbefore : keepsSpaceBehind before with
  | true =>
      rw [Bool.and_true]
      unfold collapseText
      simp only [hbefore, if_true]
      split
      · exact startsBlank_collapse t
      · rw [startsBlank_trimEnd hcollapse, startsBlank_collapse]
  | false =>
      rw [Bool.and_false]
      unfold collapseText
      simp only [hbefore, Bool.false_eq_true, if_false]
      split
      · exact startsBlank_trimStart _
      · rw [startsBlank_trimEnd htrim, startsBlank_trimStart]

theorem endsBlank_collapseText (h : ¬Blank t) :
    endsBlank (collapseText before t behind) = (endsBlank t && keepsSpaceBefore behind) := by
  have hcollapse : ¬Blank (collapse t) := mt blank_collapse_iff.mp h
  cases hbehind : keepsSpaceBefore behind with
  | true =>
      rw [Bool.and_true]
      unfold collapseText
      simp only [hbehind, if_true]
      split
      · exact endsBlank_collapse t
      · rw [endsBlank_trimStart hcollapse, endsBlank_collapse]
  | false =>
      rw [Bool.and_false]
      unfold collapseText
      simp only [hbehind, Bool.false_eq_true, if_false]
      exact endsBlank_trimEnd _

theorem collapseText_ne_nil_iff (h : Blank t) :
    collapseText before t behind ≠ [] ↔
      t ≠ [] ∧ keepsSpaceBehind before = true ∧ keepsSpaceBefore behind = true := by
  have hspace : Blank [' '] := by simp [Blank, isBlank_space]
  have htrimEnd : trimEnd [] = [] := rfl
  by_cases ht : t = []
  · subst ht
    simp [collapseText, collapse, collapseFrom, trimStart, htrimEnd]
  · unfold collapseText
    rw [h.collapse_eq ht]
    cases keepsSpaceBehind before <;> cases keepsSpaceBefore behind <;>
      simp [ht, hspace.trimStart_eq_nil, hspace.trimEnd_eq_nil, htrimEnd]

end

/-! ### Runs of tokens -/

theorem forall_split_cons {x : α} {xs : List α} {P : List α → α → List α → Prop} :
    (∀ front e back, x :: xs = front ++ e :: back → P front e back) ↔
      P [] x xs ∧ ∀ front e back, xs = front ++ e :: back → P (x :: front) e back := by
  constructor
  · intro h
    exact ⟨h [] x xs rfl, fun front e back heq => h (x :: front) e back (by rw [heq]; rfl)⟩
  · rintro ⟨hfirst, hrest⟩ front e back heq
    cases front with
    | nil =>
        obtain ⟨rfl, rfl⟩ := List.cons.inj heq
        exact hfirst
    | cons y front =>
        obtain ⟨rfl, hxs⟩ := List.cons.inj heq
        exact hrest front e back hxs

/-- Texts of which each has the ink of its counterpart have the same ink side by
side exactly if the first characters of each two are alike apart. -/
theorem inkFrom_flatMap_eq_iff {f g : α → Text} {es : List α}
    (hfg : ∀ e ∈ es, inkFrom true (g e) = inkFrom true (f e)) (apart apart' : Bool) :
    inkFrom apart (es.flatMap f) = inkFrom apart' (es.flatMap g) ↔
      ∀ front e back, es = front ++ e :: back → ¬Blank (f e) →
        (apartBehind apart (front.flatMap f) || startsBlank (f e)) =
          (apartBehind apart' (front.flatMap g) || startsBlank (g e)) := by
  induction es generalizing apart apart' with
  | nil => simp [inkFrom]
  | cons e es ih =>
      have hrest := ih (fun d hd => hfg d (List.mem_cons_of_mem e hd))
        (apartBehind apart (f e)) (apartBehind apart' (g e))
      have he := hfg e List.mem_cons_self
      rw [forall_split_cons]
      simp only [List.flatMap_cons, apartBehind_append]
      rw [← hrest, inkFrom_append, inkFrom_append]
      by_cases hblank : Blank (f e)
      · have hblank' : Blank (g e) := by rwa [blank_iff, he, ← blank_iff]
        simp [hblank, hblank.inkFrom_eq_nil, hblank'.inkFrom_eq_nil]
      · obtain ⟨c, ink, hink⟩ := exists_inkFrom_eq_cons hblank
        obtain ⟨c', ink', hink'⟩ := exists_inkFrom_eq_cons (t := g e)
          (by rwa [blank_iff, he, ← blank_iff])
        rw [hink, hink', Bool.true_or, Bool.true_or] at he
        obtain ⟨hc, rfl⟩ := List.cons.inj he
        obtain rfl := congrArg Prod.snd hc
        simp [hink, hink', hblank, apartBehind]

variable {s : Settings}

theorem Settings.inkFrom_plainWritten (hcollapse : s.collapseSpace = true)
    {before behind : Option Token} {tokens : List Token} :
    ∀ e ∈ s.writings before tokens behind,
      inkFrom true (plainWritten e) = inkFrom true e.1.plainText := by
  intro e he
  obtain ⟨front, token, back, -, rfl⟩ := s.mem_writings_iff.mp he
  cases token with
  | text t =>
      simp only [plainWritten, Token.plainText, written, hcollapse, if_true]
      exact inkFrom_collapseText _ t _
  | _ => rfl

theorem Settings.writings_append_text (hcollapse : s.collapseSpace = true)
    (before behind : Option Token) (front : List Token) (t : Text) (back : List Token) :
    s.writings before (front ++ .text t :: back) behind =
      s.writings before front (some (.text t)) ++
        (.text t, collapseText (front.getLast?.or before) t (back.head?.or behind)) ::
          s.writings (some (.text t)) back behind := by
  rw [s.writings_append, writings]
  simp [written, hcollapse]

theorem Settings.flatMap_plainText (s : Settings) (before behind : Option Token)
    (tokens : List Token) :
    (s.writings before tokens behind).flatMap (fun e => e.1.plainText) =
      tokens.flatMap Token.plainText := by
  conv => rhs; rw [← s.map_fst_writings before tokens behind, List.flatMap_map]

/-- The words of texts stay exactly if the first word of each text is apart from
what stands in front of it as before. -/
theorem Settings.words_writings_iff (hcollapse : s.collapseSpace = true)
    (before behind : Option Token) (run : List Token) :
    words (run.flatMap Token.plainText) =
        words ((s.writings before run behind).flatMap plainWritten) ↔
      ∀ front b back, run = front ++ .text b :: back → ¬Blank b →
        (apartBehind true (front.flatMap Token.plainText) || startsBlank b) =
          (apartBehind true ((s.writings before front (some (.text b))).flatMap plainWritten) ||
            (startsBlank b && keepsSpaceBehind (front.getLast?.or before))) := by
  rw [words_eq_iff, ← s.flatMap_plainText before behind run,
    inkFrom_flatMap_eq_iff (s.inkFrom_plainWritten hcollapse)]
  constructor
  · rintro h front b back rfl hb
    have hb' := h _ _ _ (s.writings_append_text hcollapse before behind front b back) hb
    rw [s.flatMap_plainText] at hb'
    simpa only [plainWritten, Token.plainText, startsBlank_collapseText _ _ hb] using hb'
  · rintro h front ⟨token, written⟩ back hsplit hink
    obtain ⟨b, rfl⟩ : ∃ b, token = .text b := by
      cases token with
      | text b => exact ⟨b, rfl⟩
      | _ => exact absurd (by simp [Blank, Token.plainText]) hink
    have hb : ¬Blank b := hink
    have hrun : run = front.map Prod.fst ++ .text b :: back.map Prod.fst := by
      rw [← s.map_fst_writings before run behind, hsplit, List.map_append, List.map_cons]
    have hsplit' := hsplit
    rw [hrun, s.writings_append_text hcollapse] at hsplit'
    have hlength : (s.writings before (front.map Prod.fst) (some (.text b))).length =
        front.length := by
      rw [← List.length_map Prod.fst, s.map_fst_writings, List.length_map]
    obtain ⟨hfront, hback⟩ := List.append_inj hsplit' hlength
    obtain ⟨hwritten, -⟩ := List.cons.inj hback
    obtain rfl := congrArg Prod.snd hwritten
    have hb' := h _ b _ hrun hb
    rw [← s.flatMap_plainText before (some (.text b)), hfront] at hb'
    simpa only [plainWritten, Token.plainText, startsBlank_collapseText _ _ hb] using hb'

/-! ### Neighbouring words -/

theorem keepsSpaceBefore_of_flows {token : Token} (h : token.flows = true) :
    keepsSpaceBefore (some token) = !token.isEnd := by
  cases token <;> simp_all [Token.flows, keepsSpaceBefore, Token.isEnd]

theorem keepsSpaceBehind_of_flows {token : Token} (h : token.flows = true) :
    keepsSpaceBehind (some token) = !token.isStart := by
  cases token <;> simp_all [Token.flows, keepsSpaceBehind, Token.isStart]

theorem keepsSpaceBefore_or_text {tokens : List Token} (h : ∀ token ∈ tokens, token.flows = true)
    (t : Text) :
    keepsSpaceBefore (tokens.head?.or (some (.text t))) = tokens.head?.all (!·.isEnd) := by
  cases tokens with
  | nil => rfl
  | cons token rest => exact keepsSpaceBefore_of_flows (h token List.mem_cons_self)

theorem keepsSpaceBehind_or_text {tokens : List Token} (h : ∀ token ∈ tokens, token.flows = true)
    (t : Text) :
    keepsSpaceBehind (tokens.getLast?.or (some (.text t))) =
      tokens.getLast?.all (!·.isStart) := by
  cases hlast : tokens.getLast? with
  | none => rfl
  | some token => exact keepsSpaceBehind_of_flows (h token (List.mem_of_getLast? hlast))

theorem blank_flatMap_plainText {tokens : List Token} (h : ∀ t, .text t ∈ tokens → Blank t) :
    Blank (tokens.flatMap Token.plainText) := by
  intro c hc
  obtain ⟨token, htoken, hc⟩ := List.mem_flatMap.mp hc
  cases token with
  | text t => exact h t htoken c hc
  | _ => simp [Token.plainText] at hc

theorem Settings.blank_flatMap_plainWritten (hcollapse : s.collapseSpace = true)
    (before behind : Option Token) {tokens : List Token} (h : ∀ t, .text t ∈ tokens → Blank t) :
    Blank ((s.writings before tokens behind).flatMap plainWritten) := by
  intro c hc
  obtain ⟨e, he, hc⟩ := List.mem_flatMap.mp hc
  have hblank : Blank e.1.plainText := by
    obtain ⟨front, token, back, rfl, rfl⟩ := s.mem_writings_iff.mp he
    cases token with
    | text t => exact h t (by simp)
    | _ => simp [Blank, Token.plainText]
  rw [blank_iff, ← s.inkFrom_plainWritten hcollapse e he, ← blank_iff] at hblank
  exact hblank c hc

/-- The last text with a word in it, if there is one. -/
theorem blank_or_exists_last (tokens : List Token) :
    (∀ t, .text t ∈ tokens → Blank t) ∨
      ∃ front a between, tokens = front ++ .text a :: between ∧ ¬Blank a ∧
        ∀ t, .text t ∈ between → Blank t := by
  induction tokens with
  | nil => exact .inl (by simp)
  | cons token rest ih =>
      rcases ih with hrest | ⟨front, a, between, rfl, ha, hbetween⟩
      · by_cases htoken : Blank token.plainText
        · refine .inl fun t ht => ?_
          rcases List.mem_cons.mp ht with rfl | ht
          · exact htoken
          · exact hrest t ht
        · cases token with
          | text a => exact .inr ⟨[], a, rest, rfl, htoken, hrest⟩
          | _ => exact absurd (by simp [Blank, Token.plainText]) htoken
      · exact .inr ⟨token :: front, a, between, rfl, ha, hbetween⟩

section

variable {a b : Text} {between : List Token}

theorem parted_iff (ha : ¬Blank a) (hbetween : ∀ t, .text t ∈ between → Blank t)
    (front : Text) :
    Parted a between b ↔
      (apartBehind true (front ++ a ++ between.flatMap Token.plainText) || startsBlank b) =
        true := by
  have hne : a ≠ [] := by
    rintro rfl
    exact ha (by simp [Blank])
  have htext : (∃ t, .text t ∈ between ∧ t ≠ []) ↔ between.flatMap Token.plainText ≠ [] := by
    rw [Ne, List.flatMap_eq_nil_iff]
    push Not
    constructor
    · rintro ⟨t, ht, hne⟩
      exact ⟨.text t, ht, hne⟩
    · rintro ⟨token, htoken, hne⟩
      cases token with
      | text t => exact ⟨t, htoken, hne⟩
      | _ => exact absurd rfl hne
  rw [apartBehind_append, (blank_flatMap_plainText hbetween).apartBehind_eq, apartBehind_append,
    apartBehind_eq _ a, if_neg hne, Parted, htext]
  simp [or_assoc]

/-- White space between two texts is written if one of the white space texts
there is not trimmed. -/
theorem Settings.flatMap_plainWritten_ne_nil_iff (hcollapse : s.collapseSpace = true)
    (hbetween : ∀ t, .text t ∈ between → Blank t)
    (hflows : ∀ token ∈ between, token.flows = true) :
    (s.writings (some (.text a)) between (some (.text b))).flatMap plainWritten ≠ [] ↔
      ∃ front t back, between = front ++ .text t :: back ∧ t ≠ [] ∧
        front.getLast?.all (!·.isStart) = true ∧ back.head?.all (!·.isEnd) = true := by
  rw [Ne, List.flatMap_eq_nil_iff]
  push Not
  constructor
  · rintro ⟨e, he, hne⟩
    obtain ⟨front, token, back, rfl, rfl⟩ := s.mem_writings_iff.mp he
    cases token with
    | text t =>
        simp only [plainWritten, written, hcollapse, if_true] at hne
        rw [collapseText_ne_nil_iff _ _ (hbetween t (by simp)),
          keepsSpaceBehind_or_text fun token h => hflows token (by simp [h]),
          keepsSpaceBefore_or_text fun token h => hflows token (by simp [h])] at hne
        exact ⟨front, t, back, rfl, hne⟩
    | _ => exact absurd rfl hne
  · rintro ⟨front, t, back, rfl, hne⟩
    refine ⟨_, s.mem_writings_iff.mpr ⟨front, .text t, back, rfl, rfl⟩, ?_⟩
    simp only [plainWritten, written, hcollapse, if_true]
    rwa [collapseText_ne_nil_iff _ _ (hbetween t (by simp)),
      keepsSpaceBehind_or_text fun token h => hflows token (by simp [h]),
      keepsSpaceBefore_or_text fun token h => hflows token (by simp [h])]

theorem Settings.staysParted_iff (hcollapse : s.collapseSpace = true) (ha : ¬Blank a)
    (hbetween : ∀ t, .text t ∈ between → Blank t)
    (hflows : ∀ token ∈ between, token.flows = true) (front : Text) (before : Option Token) :
    StaysParted a between b ↔
      (apartBehind true (front ++ collapseText before a (between.head?.or (some (.text b))) ++
            (s.writings (some (.text a)) between (some (.text b))).flatMap plainWritten) ||
          (startsBlank b && keepsSpaceBehind (between.getLast?.or (some (.text a))))) =
        true := by
  have hne : collapseText before a (between.head?.or (some (.text b))) ≠ [] := by
    intro hnil
    have hink := inkFrom_collapseText before a (between.head?.or (some (.text b)))
    rw [hnil] at hink
    exact ha (blank_iff.mpr hink.symm)
  rw [apartBehind_append, (s.blank_flatMap_plainWritten hcollapse _ _ hbetween).apartBehind_eq,
    apartBehind_append, apartBehind_eq _ (collapseText _ _ _), if_neg hne,
    endsBlank_collapseText _ _ ha, keepsSpaceBefore_or_text hflows,
    keepsSpaceBehind_or_text hflows, StaysParted,
    ← s.flatMap_plainWritten_ne_nil_iff (a := a) (b := b) hcollapse hbetween hflows]
  simp [or_assoc]

theorem StaysParted.parted (h : StaysParted a between b) : Parted a between b := by
  rcases h with h | ⟨front, t, back, rfl, hne, -⟩ | h
  · exact .inl h.1
  · exact .inr (.inl ⟨t, by simp, hne⟩)
  · exact .inr (.inr h.1)

/-- Two neighbouring words are written as much apart as they were exactly if they
stay parted when they are parted. -/
theorem Settings.apartBehind_eq_iff (hcollapse : s.collapseSpace = true) (ha : ¬Blank a)
    (hbetween : ∀ t, .text t ∈ between → Blank t)
    (hflows : ∀ token ∈ between, token.flows = true) (before : Option Token)
    (front : List Token) :
    (apartBehind true ((front ++ .text a :: between).flatMap Token.plainText) ||
          startsBlank b) =
        (apartBehind true ((s.writings before (front ++ .text a :: between)
            (some (.text b))).flatMap plainWritten) ||
          (startsBlank b &&
            keepsSpaceBehind ((front ++ .text a :: between).getLast?.or before))) ↔
      (Parted a between b → StaysParted a between b) := by
  have hlast : (front ++ .text a :: between).getLast?.or before =
      between.getLast?.or (some (.text a)) := by
    rw [List.getLast?_append, Option.or_assoc, ← getLast?_cons_or _ _ (front.getLast?.or before)]
  have hparted := parted_iff (b := b) ha hbetween (front.flatMap Token.plainText)
  have hstays := s.staysParted_iff (b := b) hcollapse ha hbetween hflows
    ((s.writings before front (some (.text a))).flatMap plainWritten)
    (front.getLast?.or before)
  have hsource : (front ++ .text a :: between).flatMap Token.plainText =
      front.flatMap Token.plainText ++ a ++ between.flatMap Token.plainText := by
    simp [Token.plainText]
  have hwritten : (s.writings before (front ++ .text a :: between)
        (some (.text b))).flatMap plainWritten =
      (s.writings before front (some (.text a))).flatMap plainWritten ++
        collapseText (front.getLast?.or before) a (between.head?.or (some (.text b))) ++
        (s.writings (some (.text a)) between (some (.text b))).flatMap plainWritten := by
    simp [s.writings_append_text hcollapse, plainWritten]
  rw [hsource, hwritten, hlast, Bool.eq_iff_iff, ← hparted, ← hstays]
  exact ⟨Iff.mp, fun h => ⟨h, StaysParted.parted⟩⟩

end

def KeepsParted (run : List Token) : Prop :=
  ∀ front a between b back, run = front ++ .text a :: between ++ .text b :: back →
    ¬Blank a → ¬Blank b → (∀ t, .text t ∈ between → Blank t) →
      Parted a between b → StaysParted a between b

theorem Settings.words_writings_iff_keepsParted (hcollapse : s.collapseSpace = true)
    (before behind : Option Token) {run : List Token}
    (hflows : ∀ token ∈ run, token.flows = true) :
    words (run.flatMap Token.plainText) =
        words ((s.writings before run behind).flatMap plainWritten) ↔ KeepsParted run := by
  rw [s.words_writings_iff hcollapse]
  constructor
  · rintro h front a between b back rfl ha hb hbetween
    have hbetweenFlows : ∀ token ∈ between, token.flows = true :=
      fun token htoken => hflows token (by simp [htoken])
    exact (s.apartBehind_eq_iff hcollapse ha hbetween hbetweenFlows before front).mp
      (h _ b back rfl hb)
  · rintro h front b back rfl hb
    rcases blank_or_exists_last front with hfront | ⟨front, a, between, rfl, ha, hbetween⟩
    · -- no word stands in front of this one
      rw [(blank_flatMap_plainText hfront).apartBehind_eq,
        (s.blank_flatMap_plainWritten hcollapse _ _ hfront).apartBehind_eq]
      simp
    · have hbetweenFlows : ∀ token ∈ between, token.flows = true :=
        fun token htoken => hflows token (by simp [htoken])
      exact (s.apartBehind_eq_iff hcollapse ha hbetween hbetweenFlows before front).mpr
        (h front a between b back rfl ha hb hbetween)

/-- In a template without bindings, the texts of a run of texts and inline tags
have the words they are written with exactly if each two neighbouring words that
are parted stay parted. -/
theorem inline_words_kept_iff (s : Settings) (hcollapse : s.collapseSpace = true) {html : Text}
    (hplain : (protect html).bindings = []) :
    ∀ front run back, s.clean (tokenize html) = front ++ run ++ back →
      (∀ token ∈ run, token.flows = true) →
      s.minify html =
        (s.writings none front (run ++ back).head?).flatMap Prod.snd ++
          (s.writings front.getLast? run back.head?).flatMap Prod.snd ++
          (s.writings (front ++ run).getLast? back none).flatMap Prod.snd ∧
      (words (run.flatMap Token.plainText) =
          words ((s.writings front.getLast? run back.head?).flatMap plainWritten) ↔
        KeepsParted run) := by
  intro front run back htokens hflows
  refine ⟨?_, s.words_writings_iff_keepsParted hcollapse _ _ hflows⟩
  rw [s.minify_of_bindings_eq_nil hplain, htokens, Settings.render, ← s.flatMap_snd_writings,
    List.append_assoc, s.writings_append, s.writings_append, List.append_assoc,
    List.flatMap_append, List.flatMap_append]
  simp

/-- A run with white space on the outer side of its element. -/
theorem inline_words_kept_iff_around :
    (protect "<p>Hello <b>big</b>\n world</p>".toList).bindings = [] ∧
    Settings.clean ⟨true, true, false⟩ (tokenize "<p>Hello <b>big</b>\n world</p>".toList) =
      [.tag "<p>".toList] ++
        [.text "Hello ".toList, .tag "<b>".toList, .text "big".toList, .tag "</b>".toList,
          .text "\n world".toList] ++ [.tag "</p>".toList] ∧
    (∀ token ∈ [.text "Hello ".toList, .tag "<b>".toList, .text "big".toList,
      .tag "</b>".toList, .text "\n world".toList], Token.flows token = true) ∧
    Settings.minify ⟨true, true, false⟩ "<p>Hello <b>big</b>\n world</p>".toList =
      (Settings.writings ⟨true, true, false⟩ none [.tag "<p>".toList]
          (some (.text "Hello ".toList))).flatMap Prod.snd ++
        (Settings.writings ⟨true, true, false⟩ (some (.tag "<p>".toList))
          [.text "Hello ".toList, .tag "<b>".toList, .text "big".toList, .tag "</b>".toList,
            .text "\n world".toList] (some (.tag "</p>".toList))).flatMap Prod.snd ++
        (Settings.writings ⟨true, true, false⟩ (some (.text "\n world".toList))
          [.tag "</p>".toList] none).flatMap Prod.snd ∧
    (words ([.text "Hello ".toList, .tag "<b>".toList, .text "big".toList,
          .tag "</b>".toList, .text "\n world".toList].flatMap Token.plainText) =
        words ((Settings.writings ⟨true, true, false⟩ (some (.tag "<p>".toList))
          [.text "Hello ".toList, .tag "<b>".toList, .text "big".toList, .tag "</b>".toList,
            .text "\n world".toList] (some (.tag "</p>".toList))).flatMap plainWritten) ↔
      KeepsParted [.text "Hello ".toList, .tag "<b>".toList, .text "big".toList,
        .tag "</b>".toList, .text "\n world".toList]) := by
  have hplain : (protect "<p>Hello <b>big</b>\n world</p>".toList).bindings = [] := by
    decide +kernel
  have htokens : Settings.clean ⟨true, true, false⟩
      (tokenize "<p>Hello <b>big</b>\n world</p>".toList) =
      [.tag "<p>".toList] ++
        [.text "Hello ".toList, .tag "<b>".toList, .text "big".toList, .tag "</b>".toList,
          .text "\n world".toList] ++ [.tag "</p>".toList] := by
    decide +kernel
  have hflows : ∀ token ∈ [.text "Hello ".toList, .tag "<b>".toList, .text "big".toList,
      .tag "</b>".toList, .text "\n world".toList], Token.flows token = true := by
    decide +kernel
  exact ⟨hplain, htokens, hflows,
    inline_words_kept_iff ⟨true, true, false⟩ rfl hplain _ _ _ htokens hflows⟩

/-- White space right behind an opening tag is trimmed even if nothing else keeps
two words apart. -/
theorem inline_words_joined :
    (protect "Press<button> Save</button>".toList).bindings = [] ∧
    Settings.clean ⟨true, true, false⟩ (tokenize "Press<button> Save</button>".toList) =
      [.text "Press".toList, .tag "<button>".toList, .text " Save".toList,
        .tag "</button>".toList] ∧
    (∀ token ∈ [.text "Press".toList, .tag "<button>".toList, .text " Save".toList,
      .tag "</button>".toList], Token.flows token = true) ∧
    Settings.minify ⟨true, true, false⟩ "Press<button> Save</button>".toList =
      "Press<button>Save</button>".toList ∧
    words ([.text "Press".toList, .tag "<button>".toList, .text " Save".toList,
      .tag "</button>".toList].flatMap Token.plainText) = ["Press".toList, "Save".toList] ∧
    words ((Settings.writings ⟨true, true, false⟩ none [.text "Press".toList,
        .tag "<button>".toList, .text " Save".toList,
        .tag "</button>".toList] none).flatMap plainWritten) = ["PressSave".toList] := by
  decide +kernel

end Inlay.Html
