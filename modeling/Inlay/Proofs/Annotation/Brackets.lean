import Inlay.Annotation.UrlList
import Inlay.Proofs.Annotation.Readers
import Mathlib.Data.List.TakeWhile

/-!
Where a list of style sheets ends. Strings are not read for it: the list goes
to the first closing bracket behind two characters. That is its own closing
bracket, the first one outside of strings, unless that bracket is one of the
two characters or the bracket that was taken stands in a string.
-/

namespace Inlay.Annotation

open Text

/-! ### Strings of a list -/

inductive Quoting where
  | outside
  | within (quote : Char)
  | escaped (quote : Char)
  deriving DecidableEq

def isQuote (c : Char) : Bool := c == '"' || c == '\''

def Quoting.next : Quoting → Char → Quoting
  | .outside, c => if isQuote c then .within c else .outside
  | .within quote, c =>
    if c = '\\' then .escaped quote else if c = quote then .outside else .within quote
  | .escaped quote, _ => .within quote

def quoting (t : Text) : Quoting := t.foldl Quoting.next .outside

def KeepsOpen (inner : Text) : Prop :=
  ∀ front back, inner = front ++ ']' :: back → quoting front ≠ .outside

/-- A list goes from its opening bracket to the first closing bracket that
stands outside of strings. -/
def EndsAtOwnBracket (list : Text) : Prop :=
  ∃ inner, list = '[' :: inner ++ [']'] ∧ quoting inner = .outside ∧ KeepsOpen inner

theorem endsAtOwnBracket_iff {inner : Text} :
    EndsAtOwnBracket ('[' :: inner ++ [']']) ↔ quoting inner = .outside ∧ KeepsOpen inner := by
  constructor
  · rintro ⟨inner', heq, h⟩
    rwa [List.append_cancel_right (List.cons.inj heq).2]
  · exact fun h => ⟨inner, rfl, h⟩

theorem quoting_singleton_ne_outside {c : Char} : quoting [c] ≠ .outside ↔ isQuote c = true := by
  show Quoting.next .outside c ≠ .outside ↔ _
  unfold Quoting.next
  split <;> simp_all

/-- Of a list up to the first bracket behind two characters only these two
can close it. -/
theorem keepsOpen_iff {first second : Char} {inner : Text} (hinner : ']' ∉ inner) :
    KeepsOpen (first :: second :: inner) ↔
      first ≠ ']' ∧ (second = ']' → isQuote first = true) := by
  constructor
  · intro h
    refine ⟨?_, ?_⟩
    · rintro rfl
      exact h [] _ rfl rfl
    · rintro rfl
      exact quoting_singleton_ne_outside.mp (h [first] inner rfl)
  · rintro ⟨hfirst, hsecond⟩ front back heq
    match front, heq with
    | [], heq => exact absurd (List.cons.inj heq).1 hfirst
    | [c], heq =>
        simp only [List.cons_append, List.nil_append, List.cons.injEq] at heq
        obtain ⟨rfl, hclose, -⟩ := heq
        exact quoting_singleton_ne_outside.mpr (hsecond hclose)
    | c :: d :: front, heq =>
        simp only [List.cons_append, List.cons.injEq] at heq
        exact absurd (heq.2.2 ▸ by simp) hinner

/-! ### Malformed lists -/

theorem exists_rest_of_parse {read : Text → Except Json.Fault (α × Text)} {t : Text} {a : α}
    (h : Json.parse read t = .ok a) :
    ∃ rest, read t = .ok (a, rest) ∧ Json.skipSpace rest = [] := by
  unfold Json.parse at h
  split at h
  · contradiction
  · rename_i value rest hread
    split at h
    · rename_i hrest
      obtain rfl := Except.ok.inj h
      exact ⟨rest, hread, hrest⟩
    · contradiction

theorem skipSpace_ne_nil {t : Text} {c : Char} (hc : c ∈ t) (hspace : Json.isSpace c = false) :
    Json.skipSpace t ≠ [] := by
  intro h
  have hall := (List.dropWhile_eq_nil_iff (p := Json.isSpace) (l := t)).mp h c hc
  simp [hspace] at hall

theorem readTexts_of_close {t rest : Text} (h : Json.skipSpace t = ']' :: rest) :
    Json.readTexts true t = .ok ([], rest) := by
  have hnext : Json.nextElement true t = .ok (none, rest) := by
    simp [Json.nextElement, h]
  rw [Json.readTexts_eq, hnext]

theorem exists_fault_of_readTexts {t rest : Text} {c : Char} (h : Json.skipSpace t = c :: rest)
    (hclose : c ≠ ']') (hquote : c ≠ '"') : ∃ fault, Json.readTexts true t = .error fault := by
  have hnext : Json.nextElement true t = .ok (some (c :: rest), []) := by
    simp [Json.nextElement, h, hclose]
  have hspace : Json.isSpace c = false := by
    have hstops := stops_dropWhile Json.isSpace t
    rw [show t.dropWhile Json.isSpace = c :: rest from h] at hstops
    exact hstops c rfl
  have htext : Json.readText (c :: rest) = .error (Json.unexpected .text (c :: rest)) := by
    simp [Json.readText, Json.readBehind, Json.toValue, Json.skipSpace, hspace, hquote]
  refine ⟨Json.unexpected .text (c :: rest), ?_⟩
  rw [Json.readTexts_eq, hnext]
  simp only [htext]

/-- What goes on behind its own closing bracket is no list of addresses. -/
theorem keepsOpen_of_urls {a : StyleUrls} {first second : Char} {inner : Text} {urls : List Text}
    (hlist : a.list = '[' :: first :: second :: inner ++ [']']) (hinner : ']' ∉ inner)
    (hurls : a.urls = .ok urls) : KeepsOpen (first :: second :: inner) := by
  obtain ⟨rest, hread, hrest⟩ : ∃ rest,
      Json.readTextList (doubleQuoted a.list) = .ok (urls, rest) ∧ Json.skipSpace rest = [] := by
    refine exists_rest_of_parse ?_
    rw [StyleUrls.urls, urlList, urlListWith] at hurls
    cases hparse : Json.parse Json.readTextList (doubleQuoted a.list) with
    | error complaint => simp [hparse, Except.mapError] at hurls
    | ok urls' => simpa [hparse, Except.mapError] using hurls
  let quoted : Char → Char := fun c => if c = '\'' then '"' else c
  let behind := doubleQuoted inner ++ [']']
  have hdouble : doubleQuoted a.list = '[' :: quoted first :: quoted second :: behind := by
    simp [hlist, doubleQuoted, quoted, behind]
  have htexts : Json.readTexts true (quoted first :: quoted second :: behind) =
      .ok (urls, rest) := by
    rw [hdouble] at hread
    exact hread
  -- a list that ends early leaves its last bracket
  have hearly : ∀ more, ']' ∈ more →
      Json.skipSpace (quoted first :: quoted second :: behind) ≠ ']' :: more := by
    intro more hmore h
    rw [readTexts_of_close h] at htexts
    simp only [Except.ok.injEq, Prod.mk.injEq] at htexts
    exact skipSpace_ne_nil hmore rfl (htexts.2 ▸ hrest)
  have hfirst : first ≠ ']' := by
    rintro rfl
    exact hearly (quoted second :: behind) (by simp [behind]) rfl
  refine (keepsOpen_iff hinner).mpr ⟨hfirst, ?_⟩
  rintro rfl
  by_contra hquote
  simp only [isQuote, Bool.or_eq_true, beq_iff_eq, not_or] at hquote
  have hplain : quoted first = first := if_neg hquote.2
  rw [hplain] at htexts hearly
  cases hspace : Json.isSpace first with
  | true =>
      have hblank : Json.isSpace ']' = false := rfl
      refine hearly behind (by simp [behind]) ?_
      simp [Json.skipSpace, hspace, hblank, quoted]
  | false =>
      have hskip : Json.skipSpace (first :: quoted ']' :: behind) =
          first :: quoted ']' :: behind := by
        simp [Json.skipSpace, hspace]
      obtain ⟨fault, hfault⟩ := exists_fault_of_readTexts hskip hfirst hquote.1
      simp [hfault] at htexts

/-! ### Where lists end -/

/-- A list goes to the first closing bracket behind two characters, be it in a
string. This is its own closing bracket exactly if neither of the two is and
if no string is open there. A list reaches beyond its own closing bracket only
if that is one of the two, and then it is malformed. -/
theorem list_ends_behind_two_characters (t : Text) : ∀ p ∈ styleUrls t,
    ∃ before first second inner rest,
      p.2.list = '[' :: first :: second :: inner ++ [']'] ∧ ']' ∉ inner ∧
      t = before ++ p.2.list ++ rest ∧ p.1.stop = byteSize (before ++ p.2.list) ∧
      (EndsAtOwnBracket p.2.list ↔ quoting (first :: second :: inner) = .outside ∧
        first ≠ ']' ∧ (second = ']' → isQuote first = true)) ∧
      (KeepsOpen (first :: second :: inner) ↔
        first ≠ ']' ∧ (second = ']' → isQuote first = true)) ∧
      ∀ urls, p.2.urls = .ok urls → KeepsOpen (first :: second :: inner) := by
  intro p hp
  obtain ⟨before, first, second, inner, rest, -, hinner, hlist, ht, hstop⟩ :=
    exists_list_of_mem_styleUrls hp
  refine ⟨before, first, second, inner, rest, hlist, hinner, ht, hstop, ?_, keepsOpen_iff hinner,
    fun urls hurls => keepsOpen_of_urls hlist hinner hurls⟩
  rw [hlist]
  exact endsAtOwnBracket_iff.trans (and_congr_right fun _ => keepsOpen_iff hinner)

/-- A list with brackets in its strings. -/
theorem list_ends_behind_two_characters_quoted :
    (⟨⟨0, 15⟩, ⟨[], "[']']".toList⟩⟩ : Span × StyleUrls) ∈ styleUrls "styleUrls:[']']".toList ∧
    ∃ before first second inner rest,
      "[']']".toList = '[' :: first :: second :: inner ++ [']'] ∧ ']' ∉ inner ∧
      "styleUrls:[']']".toList = before ++ "[']']".toList ++ rest ∧
      15 = byteSize (before ++ "[']']".toList) ∧
      (EndsAtOwnBracket "[']']".toList ↔ quoting (first :: second :: inner) = .outside ∧
        first ≠ ']' ∧ (second = ']' → isQuote first = true)) ∧
      (KeepsOpen (first :: second :: inner) ↔
        first ≠ ']' ∧ (second = ']' → isQuote first = true)) ∧
      ∀ urls, StyleUrls.urls ⟨[], "[']']".toList⟩ = .ok urls →
        KeepsOpen (first :: second :: inner) := by
  have hmem : (⟨⟨0, 15⟩, ⟨[], "[']']".toList⟩⟩ : Span × StyleUrls) ∈
      styleUrls "styleUrls:[']']".toList := by decide +kernel
  exact ⟨hmem, list_ends_behind_two_characters _ _ hmem⟩

/-- An empty list is taken together with what follows it, and a bracket in a
string ends a list. -/
theorem list_passes_own_bracket :
    (∃ p ∈ styleUrls "styleUrls: [], providers: [A]".toList, ¬EndsAtOwnBracket p.2.list) ∧
      ∃ p ∈ styleUrls "styleUrls: ['a]b.css']".toList, ¬EndsAtOwnBracket p.2.list := by
  refine ⟨⟨⟨⟨0, 29⟩, ⟨[], '[' :: "], providers: [A".toList ++ [']']⟩⟩, by decide +kernel,
    fun h => ?_⟩, ⟨⟨⟨0, 15⟩, ⟨[], '[' :: "'a".toList ++ [']']⟩⟩, by decide +kernel, fun h => ?_⟩⟩
  · exact (endsAtOwnBracket_iff.mp h).2 [] ", providers: [A".toList rfl rfl
  · have houtside := (endsAtOwnBracket_iff.mp h).1
    revert houtside
    decide

end Inlay.Annotation
