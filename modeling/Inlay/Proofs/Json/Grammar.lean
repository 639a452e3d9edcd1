import Inlay.Proofs.Json.Strings
import Inlay.Proofs.Text.Pieces

/-!
The grammar of JSON texts, without regard to how they are read. A list or an
object is given by its parts, each with the white space around it, so that a
text that is written anew from some of its parts is again of the grammar.
-/

namespace Inlay.Json

open Text

def Spaces (t : Text) : Prop := ∀ c ∈ t, isSpace c = true

instance (t : Text) : Decidable (Spaces t) := List.decidableBAll _ t

/-! ### Numbers -/

def IsDigits (t : Text) : Prop := t ≠ [] ∧ ∀ c ∈ t, c.isDigit = true

/-- The part of a number in front of the point. It starts with no zero unless
it is one. -/
inductive IsWhole : Text → Prop
  | zero : IsWhole ['0']
  | digits {c : Char} {t : Text} (hzero : c ≠ '0') (h : IsDigits (c :: t)) : IsWhole (c :: t)

inductive IsFraction : Text → Prop
  | none : IsFraction []
  | digits {t : Text} (h : IsDigits t) : IsFraction ('.' :: t)

inductive IsExponent : Text → Prop
  | none : IsExponent []
  | digits {e : Char} {sign t : Text} (he : e = 'e' ∨ e = 'E')
      (hsign : sign = [] ∨ sign = ['+'] ∨ sign = ['-']) (h : IsDigits t) :
      IsExponent (e :: (sign ++ t))

inductive IsNumber : Text → Prop
  | parts {sign whole fraction exponent : Text} (hsign : sign = [] ∨ sign = ['-'])
      (hwhole : IsWhole whole) (hfraction : IsFraction fraction)
      (hexponent : IsExponent exponent) : IsNumber (sign ++ (whole ++ (fraction ++ exponent)))

/-! ### Values -/

structure Item where
  front : Text
  value : Text
  back : Text

def Item.text (i : Item) : Text := i.front ++ i.value ++ i.back

def Item.Spaced (i : Item) : Prop := Spaces i.front ∧ Spaces i.back

instance (i : Item) : Decidable i.Spaced := inferInstanceAs (Decidable (_ ∧ _))

structure Member extends Item where
  before : Text
  key : Text
  behind : Text

def Member.text (m : Member) : Text :=
  m.before ++ '"' :: m.key ++ '"' :: m.behind ++ ':' :: m.toItem.text

def Member.Spaced (m : Member) : Prop :=
  Spaces m.before ∧ Spaces m.behind ∧ m.toItem.Spaced

instance (m : Member) : Decidable m.Spaced := inferInstanceAs (Decidable (_ ∧ _ ∧ _))

def null : Text := "null".toList

def words : List Text := [null, "true".toList, "false".toList]

theorem mem_words {t : Text} :
    t ∈ words ↔ t = null ∨ t = "true".toList ∨ t = "false".toList := by
  simp [words]

inductive IsValue : Text → Prop
  | word {t : Text} (h : t ∈ words) : IsValue t
  | number {t : Text} (h : IsNumber t) : IsValue t
  | text {body : Text} (h : IsBody body) : IsValue ('"' :: body ++ ['"'])
  | list {gap : Text} {items : List Item} (hgap : Spaces gap)
      (hspaced : ∀ i ∈ items, i.Spaced) (hvalues : ∀ i ∈ items, IsValue i.value) :
      IsValue ('[' :: gap ++ join [','] (items.map Item.text) ++ [']'])
  | object {gap : Text} {members : List Member} (hgap : Spaces gap)
      (hspaced : ∀ m ∈ members, m.Spaced) (hkeys : ∀ m ∈ members, IsBody m.key)
      (hvalues : ∀ m ∈ members, IsValue m.value) :
      IsValue ('{' :: gap ++ join [','] (members.map Member.text) ++ ['}'])

def Item.IsText (i : Item) (s : Text) : Prop :=
  ∃ body, Spells body s ∧ i.value = '"' :: body ++ ['"']

/-- A JSON text whose value is a list of strings. They spell the texts. -/
inductive IsTextList : Text → List Text → Prop
  | items {lead gap trail : Text} {items : List (Item × Text)}
      (hspaces : Spaces lead ∧ Spaces gap ∧ Spaces trail)
      (hspaced : ∀ i ∈ items, i.1.Spaced) (htexts : ∀ i ∈ items, i.1.IsText i.2) :
      IsTextList (lead ++ '[' :: gap ++ join [','] (items.map (·.1.text)) ++ ']' :: trail)
        (items.map Prod.snd)

structure Object where
  lead : Text
  gap : Text
  members : List Member
  trail : Text
  spaced : Spaces lead ∧ Spaces gap ∧ Spaces trail
  membersSpaced : ∀ m ∈ members, m.Spaced
  keys : ∀ m ∈ members, IsBody m.key
  values : ∀ m ∈ members, IsValue m.value

namespace Object

def text (o : Object) : Text :=
  o.lead ++ '{' :: o.gap ++ join [','] (o.members.map Member.text) ++ '}' :: o.trail

def keep (chosen : Member → Bool) (o : Object) : Object where
  lead := o.lead
  gap := o.gap
  members := o.members.filter chosen
  trail := o.trail
  spaced := o.spaced
  membersSpaced m hm := o.membersSpaced m (List.mem_filter.mp hm).1
  keys m hm := o.keys m (List.mem_filter.mp hm).1
  values m hm := o.values m (List.mem_filter.mp hm).1

end Object

/-! ### White space and the starts of values -/

theorem skipSpace_append {ws : Text} (h : Spaces ws) (t : Text) :
    skipSpace (ws ++ t) = skipSpace t :=
  List.dropWhile_append_of_pos h

theorem Spaces.skipSpace_eq_nil {ws : Text} (h : Spaces ws) : skipSpace ws = [] := by
  rw [← List.append_nil ws, skipSpace_append h]
  rfl

theorem skipSpace_cons {c : Char} (h : isSpace c = false) (t : Text) :
    skipSpace (c :: t) = c :: t :=
  List.dropWhile_cons_of_neg (by simp [h])

theorem skipSpace_skipSpace (t : Text) : skipSpace (skipSpace t) = skipSpace t := by
  have hstops := stops_dropWhile isSpace t
  cases h : skipSpace t with
  | nil => rfl
  | cons c rest => exact skipSpace_cons (hstops c (by rw [← skipSpace, h]; rfl)) rest

theorem isSpace_of_isDigit {c : Char} (h : c.isDigit = true) : isSpace c = false := by
  rw [Bool.eq_false_iff]
  intro hspace
  simp only [isSpace, Bool.or_eq_true, beq_iff_eq] at hspace
  rcases hspace with ((rfl | rfl) | rfl) | rfl <;> exact absurd h (by decide)

theorem IsWhole.exists_head {t : Text} (h : IsWhole t) :
    ∃ c rest, t = c :: rest ∧ c.isDigit = true := by
  cases h with
  | zero => exact ⟨'0', [], rfl, by decide⟩
  | @digits c t _ h => exact ⟨c, t, rfl, h.2 c List.mem_cons_self⟩

theorem IsNumber.exists_head {t : Text} (h : IsNumber t) :
    ∃ c rest, t = c :: rest ∧ (c = '-' ∨ c.isDigit = true) := by
  cases h with
  | parts hsign hwhole =>
      rcases hsign with rfl | rfl
      · obtain ⟨c, rest, rfl, hc⟩ := hwhole.exists_head
        exact ⟨c, _, rfl, .inr hc⟩
      · exact ⟨'-', _, rfl, .inl rfl⟩

theorem ne_of_startsNumber {c d : Char} (hc : c = '-' ∨ c.isDigit = true) (hminus : d ≠ '-')
    (hdigit : d.isDigit = false) : c ≠ d := by
  rintro rfl
  simp [hminus, hdigit] at hc

theorem isSpace_of_startsNumber {c : Char} (hc : c = '-' ∨ c.isDigit = true) :
    isSpace c = false := by
  rcases hc with rfl | hc
  · decide
  · exact isSpace_of_isDigit hc

def startsValue (c : Char) : Bool :=
  c ∈ ['n', 't', 'f', '-', '"', '[', '{'] || c.isDigit

theorem IsValue.exists_head {v : Text} (h : IsValue v) :
    ∃ c rest, v = c :: rest ∧ startsValue c = true := by
  cases h with
  | word h =>
      rcases mem_words.mp h with rfl | rfl | rfl <;> exact ⟨_, _, rfl, by decide⟩
  | number h =>
      obtain ⟨c, rest, rfl, hc⟩ := h.exists_head
      refine ⟨c, rest, rfl, ?_⟩
      rcases hc with rfl | hc
      · decide
      · simp [startsValue, hc]
  | text => exact ⟨_, _, rfl, by decide⟩
  | list => exact ⟨_, _, rfl, by decide⟩
  | object => exact ⟨_, _, rfl, by decide⟩

theorem isSpace_of_startsValue {c : Char} (h : startsValue c = true) : isSpace c = false := by
  simp only [startsValue, Bool.or_eq_true, decide_eq_true_eq, List.mem_cons, List.not_mem_nil,
    or_false] at h
  rcases h with (rfl | rfl | rfl | rfl | rfl | rfl | rfl) | h
  all_goals try decide
  exact isSpace_of_isDigit h

theorem ne_of_mem_words {v w : Text} {c : Char} (hv : v ∈ words) (hc : c ∉ ['n', 't', 'f']) :
    v ≠ c :: w := by
  rintro rfl
  refine hc ?_
  rcases mem_words.mp hv with h | h | h <;> rw [(List.cons.inj h).1] <;> decide

theorem IsNumber.ne_cons {v w : Text} {c : Char} (hv : IsNumber v) (hminus : c ≠ '-')
    (hdigit : c.isDigit = false) : v ≠ c :: w := by
  rintro rfl
  obtain ⟨d, rest, heq, hd⟩ := hv.exists_head
  exact ne_of_startsNumber hd hminus hdigit (List.cons.inj heq).1.symm

/-- A value that starts with a quote is a string. -/
theorem IsValue.exists_body {t : Text} (h : IsValue ('"' :: t)) :
    ∃ body, IsBody body ∧ t = body ++ ['"'] := by
  generalize hv : '"' :: t = v at h
  cases h with
  | word h => exact absurd hv.symm (ne_of_mem_words h (by decide))
  | number h => exact absurd hv.symm (h.ne_cons (by decide) (by decide))
  | text hbody => exact ⟨_, hbody, (List.cons.inj hv).2⟩
  | list | object => exact absurd (List.cons.inj hv).1 (by decide)

/-- A value that starts with a square bracket is a list. -/
theorem IsValue.exists_items {t : Text} (h : IsValue ('[' :: t)) :
    ∃ (gap : Text) (items : List Item), Spaces gap ∧ (∀ i ∈ items, i.Spaced) ∧
      (∀ i ∈ items, IsValue i.value) ∧ t = gap ++ join [','] (items.map Item.text) ++ [']'] := by
  generalize hv : '[' :: t = v at h
  cases h with
  | word h => exact absurd hv.symm (ne_of_mem_words h (by decide))
  | number h => exact absurd hv.symm (h.ne_cons (by decide) (by decide))
  | list hgap hspaced hvalues => exact ⟨_, _, hgap, hspaced, hvalues, (List.cons.inj hv).2⟩
  | text | object => exact absurd (List.cons.inj hv).1 (by decide)

/-- A value that starts with a letter is a word. -/
theorem IsValue.mem_words_of_letter {c : Char} {t : Text} (h : IsValue (c :: t))
    (hc : c ∈ ['n', 't', 'f']) : c :: t ∈ words := by
  have hother : ∀ d, d ∉ ['n', 't', 'f'] → c ≠ d := by
    rintro d hd rfl
    exact hd hc
  generalize hv : c :: t = v at h
  cases h with
  | word h => exact h
  | number h =>
      refine absurd hv.symm (h.ne_cons (hother '-' (by decide)) ?_)
      simp only [List.mem_cons, List.not_mem_nil, or_false] at hc
      rcases hc with rfl | rfl | rfl <;> decide
  | text | list | object => exact absurd (List.cons.inj hv).1 (hother _ (by decide))

theorem Item.skipSpace_text {i : Item} (hspaced : i.Spaced) (hvalue : IsValue i.value)
    (rest : Text) : ∃ c more, skipSpace (i.text ++ rest) = c :: more ∧ startsValue c = true := by
  obtain ⟨c, t, hv, hc⟩ := hvalue.exists_head
  refine ⟨c, t ++ (i.back ++ rest), ?_, hc⟩
  simp only [Item.text, List.append_assoc]
  rw [skipSpace_append hspaced.1, hv]
  exact skipSpace_cons (isSpace_of_startsValue hc) _

/-! ### Parts of a list or an object -/

def Delimited (rest : Text) : Prop :=
  ∀ c ∈ rest.head?, isSpace c = true ∨ c = ',' ∨ c = ']' ∨ c = '}'

theorem delimited_nil : Delimited [] := by simp [Delimited]

theorem delimited_cons {c : Char} (h : isSpace c = true ∨ c = ',' ∨ c = ']' ∨ c = '}')
    (t : Text) : Delimited (c :: t) := by
  intro d hd
  rwa [← Option.some.inj hd]

theorem Spaces.delimited_append {ws rest : Text} (h : Spaces ws) (hrest : Delimited rest) :
    Delimited (ws ++ rest) := by
  cases ws with
  | nil => exact hrest
  | cons c ws => exact delimited_cons (.inl (h c List.mem_cons_self)) _

theorem join_cons (sep : Char) (part : Text) (parts : List Text) :
    join [sep] (part :: parts) = part ++ parts.flatMap (sep :: ·) := by
  induction parts generalizing part with
  | nil => simp [join]
  | cons next parts ih =>
      have hstep : join [sep] (part :: next :: parts) =
          part ++ sep :: join [sep] (next :: parts) := by simp [join]
      rw [hstep, ih, List.flatMap_cons, List.cons_append]

/-- What follows the first part of a list or an object is delimited. -/
theorem delimited_flatMap {close : Char} (hclose : close = ']' ∨ close = '}')
    (parts : List Text) (rest : Text) :
    Delimited (parts.flatMap (',' :: ·) ++ close :: rest) := by
  cases parts with
  | nil => exact delimited_cons (.inr (.inr hclose)) _
  | cons part parts => exact delimited_cons (.inr (.inl rfl)) _

end Inlay.Json
