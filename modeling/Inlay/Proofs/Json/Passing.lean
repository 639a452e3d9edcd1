import Inlay.Proofs.Json.Grammar

/-!
Values that are passed over. From the front of a text the reader that passes
over values takes exactly the value that stands there, however its parts are
nested; only a number has to be delimited for it. So a field that is not known
is left behind as a whole.
-/

namespace Inlay.Json

open Text

/-! ### Numbers -/

def EndsNumber (rest : Text) : Prop :=
  ∀ c ∈ rest.head?, c.isDigit = false ∧ c ≠ '.' ∧ c ≠ 'e' ∧ c ≠ 'E'

theorem Delimited.endsNumber {rest : Text} (h : Delimited rest) : EndsNumber rest := by
  intro c hc
  have hc := h c hc
  simp only [isSpace, Bool.or_eq_true, beq_iff_eq] at hc
  rcases hc with (((rfl | rfl) | rfl) | rfl) | rfl | rfl | rfl <;> decide

theorem startsWithDigit_append {t : Text} (h : IsDigits t) (rest : Text) :
    startsWithDigit (t ++ rest) = true := by
  obtain ⟨c, t, rfl⟩ := List.exists_cons_of_ne_nil h.1
  exact h.2 c List.mem_cons_self

theorem startsWithDigit_eq_false {t : Text} (h : Stops Char.isDigit t) :
    startsWithDigit t = false := by
  unfold startsWithDigit
  cases ht : t.head? with
  | none => rfl
  | some c => exact h c ht

theorem startsWithExponent_eq_false {t : Text} (h : ∀ c ∈ t.head?, c ≠ 'e' ∧ c ≠ 'E') :
    startsWithExponent t = false := by
  unfold startsWithExponent
  cases ht : t.head? with
  | none => rfl
  | some c => simp [h c ht]

theorem dropWhile_digits {t rest : Text} (h : IsDigits t) (hrest : Stops Char.isDigit rest) :
    (t ++ rest).dropWhile Char.isDigit = rest :=
  dropWhile_append h.2 hrest

theorem afterSign_append {sign t : Text} (hsign : sign = [] ∨ sign = ['+'] ∨ sign = ['-'])
    (ht : IsDigits t) (rest : Text) : afterSign (sign ++ t ++ rest) = t ++ rest := by
  rcases hsign with rfl | rfl | rfl
  · obtain ⟨c, t, rfl⟩ := List.exists_cons_of_ne_nil ht.1
    have hc := ht.2 c List.mem_cons_self
    have hminus : c ≠ '-' := by
      rintro rfl
      exact absurd hc (by decide)
    have hplus : c ≠ '+' := by
      rintro rfl
      exact absurd hc (by decide)
    simp [afterSign, hminus, hplus]
  · rfl
  · rfl

/-- What stands behind the digits of a number and its parts up to them. -/
theorem stops_exponent {exponent rest : Text} (h : IsExponent exponent) (hrest : EndsNumber rest) :
    ∀ c ∈ (exponent ++ rest).head?, c.isDigit = false ∧ c ≠ '.' := by
  intro c hc
  cases h with
  | none => exact ⟨(hrest c hc).1, (hrest c hc).2.1⟩
  | digits he =>
      obtain rfl := Option.some.inj hc
      rcases he with rfl | rfl <;> decide

theorem stops_fraction {fraction t : Text} (h : IsFraction fraction)
    (ht : ∀ c ∈ t.head?, c.isDigit = false ∧ c ≠ '.') : Stops Char.isDigit (fraction ++ t) := by
  intro c hc
  cases h with
  | none => exact (ht c hc).1
  | digits =>
      obtain rfl := Option.some.inj hc
      decide

theorem skipTail_append {exponent rest : Text} (h : IsExponent exponent)
    (hrest : EndsNumber rest) : skipTail (exponent ++ rest) = .ok rest := by
  cases h with
  | none =>
      have hnone := startsWithExponent_eq_false fun c hc => (hrest c hc).2.2
      simp [skipTail, hnone]
  | @digits e sign t he hsign ht =>
      have hexponent : startsWithExponent (e :: (sign ++ t) ++ rest) = true := by
        rcases he with rfl | rfl <;> rfl
      have hsigned := afterSign_append hsign ht rest
      have hdrop : (t ++ rest).dropWhile Char.isDigit = rest :=
        dropWhile_digits ht fun c hc => (hrest c hc).1
      rw [skipTail, if_pos hexponent, List.cons_append, List.drop_one, List.tail_cons,
        skipExponent, hsigned, if_pos (startsWithDigit_append ht rest), hdrop]

theorem skipAfterWhole_append {fraction exponent rest : Text} (hfraction : IsFraction fraction)
    (hexponent : IsExponent exponent) (hrest : EndsNumber rest) :
    skipAfterWhole (fraction ++ (exponent ++ rest)) = .ok rest := by
  have hstops := stops_exponent hexponent hrest
  cases hfraction with
  | none =>
      have hpoint : (exponent ++ rest).head? ≠ some '.' := fun h => (hstops '.' h).2 rfl
      rw [List.nil_append, skipAfterWhole, if_neg hpoint, skipTail_append hexponent hrest]
  | @digits t ht =>
      have hdrop : (t ++ (exponent ++ rest)).dropWhile Char.isDigit = exponent ++ rest :=
        dropWhile_digits ht fun c hc => (hstops c hc).1
      rw [List.cons_append, skipAfterWhole, List.head?_cons, if_pos rfl, List.drop_one,
        List.tail_cons, skipFraction, if_pos (startsWithDigit_append ht _), hdrop,
        skipTail_append hexponent hrest]

theorem skipNumber_whole {whole fraction exponent rest : Text} (hwhole : IsWhole whole)
    (hfraction : IsFraction fraction) (hexponent : IsExponent exponent)
    (hrest : EndsNumber rest) :
    skipNumber (whole ++ (fraction ++ (exponent ++ rest))) = .ok rest := by
  have hstops := stops_fraction hfraction (stops_exponent hexponent hrest)
  have hafter := skipAfterWhole_append hfraction hexponent hrest
  cases hwhole with
  | zero =>
      rw [List.cons_append, List.nil_append]
      simp only [skipNumber, startsWithDigit_eq_false hstops, Bool.false_eq_true, if_false, hafter]
  | @digits c t hzero ht =>
      have hdrop := dropWhile_digits ht hstops
      rw [List.cons_append] at hdrop ⊢
      rw [List.dropWhile_cons_of_pos (ht.2 c List.mem_cons_self)] at hdrop
      unfold skipNumber
      split
      · rename_i heq
        contradiction
      · rename_i heq
        exact (hzero (List.cons.inj heq).1).elim
      · rename_i heq
        obtain ⟨rfl, rfl⟩ := List.cons.inj heq
        rw [if_pos (ht.2 c List.mem_cons_self), hdrop, hafter]

/-! ### Values without parts -/

theorem skipScalar_word {t : Text} (h : t ∈ words) (rest : Text) :
    skipScalar (t ++ rest) = .ok rest := by
  rcases mem_words.mp h with rfl | rfl | rfl <;> simp [null, skipScalar, readIdent]

theorem skipScalar_number {t rest : Text} (h : IsNumber t) (hrest : EndsNumber rest) :
    skipScalar (t ++ rest) = .ok rest := by
  cases h with
  | @parts sign whole fraction exponent hsign hwhole hfraction hexponent =>
      have hskip := skipNumber_whole hwhole hfraction hexponent hrest
      rcases hsign with rfl | rfl
      · obtain ⟨c, t, rfl, hc⟩ := hwhole.exists_head
        have hother : ∀ d, d.isDigit = false → c ≠ d := by
          rintro d hd rfl
          simp [hd] at hc
        simp only [List.append_assoc, List.nil_append, List.cons_append] at hskip ⊢
        simp only [skipScalar, hother 'n' (by decide), hother 't' (by decide),
          hother 'f' (by decide), hother '-' (by decide), hc, if_true, if_false, hskip]
      · simp only [List.append_assoc, List.cons_append, List.nil_append]
        rw [skipScalar, if_neg (by decide), if_neg (by decide), if_neg (by decide), if_pos rfl,
          hskip]

theorem skipScalar_text {body : Text} (h : IsBody body) (rest : Text) :
    skipScalar ('"' :: body ++ ['"'] ++ rest) = .ok rest := by
  have hskip := skipString_body h rest
  simp only [List.append_assoc, List.cons_append, List.nil_append]
  rw [skipScalar, if_neg (by decide), if_neg (by decide), if_neg (by decide), if_neg (by decide),
    if_neg (by decide), if_pos rfl, hskip]

/-! ### One step of passing over -/

def Frame.opening : Frame → Char
  | .list => '['
  | .object => '{'

theorem Frame.isSpace_opening (f : Frame) : isSpace f.opening = false := by cases f <;> rfl

theorem Frame.isSpace_closing (f : Frame) : isSpace f.closing = false := by cases f <;> rfl

/-- Goes into a bracket that is open, and passes over the value there. -/
def passInside (f : Frame) (frames : List Frame) (t : Text) : Except Fault Text :=
  match f.enter t with
  | .error fault => .error fault
  | .ok start => skipValue (f :: frames) start

theorem skipAfter_cons (f : Frame) (frames : List Frame) (t : Text) :
    skipAfter (f :: frames) t =
      match skipSpace t with
      | [] => .error (.within f.ended [])
      | c :: rest =>
        if c = ',' then passInside f frames rest
        else if c = f.closing then skipAfter frames rest
        else .error (.within f.expectedMore (c :: rest)) :=
  skipAfter_eq f frames t

theorem skipValue_spaces (frames : List Frame) {ws : Text} (h : Spaces ws) (t : Text) :
    skipValue frames (ws ++ t) = skipValue frames t := by
  rw [skipValue_eq, skipValue_eq, skipSpace_append h]

theorem skipAfter_spaces (f : Frame) (frames : List Frame) {ws : Text} (h : Spaces ws) (t : Text) :
    skipAfter (f :: frames) (ws ++ t) = skipAfter (f :: frames) t := by
  rw [skipAfter_cons, skipAfter_cons, skipSpace_append h]

theorem passInside_skipSpace (f : Frame) (frames : List Frame) (t : Text) :
    passInside f frames (skipSpace t) = passInside f frames t := by
  cases f with
  | list =>
      simp only [passInside, Frame.enter]
      rw [skipValue_eq, skipValue_eq, skipSpace_skipSpace]
  | object => simp only [passInside, Frame.enter, skipKey, skipSpace_skipSpace]

theorem skipValue_scalar {t rest : Text} {c : Char} (hstarts : t.head? = some c)
    (hspace : isSpace c = false) (hlist : c ≠ '[') (hobject : c ≠ '{')
    (h : skipScalar t = .ok rest) (frames : List Frame) :
    skipValue frames t = skipAfter frames rest := by
  cases t with
  | nil => contradiction
  | cons d t =>
      obtain rfl := Option.some.inj hstarts
      rw [skipValue_eq, skipSpace_cons hspace]
      simp only [hlist, hobject, if_false, h]

theorem skipValue_opening (f : Frame) (frames : List Frame) (t : Text) :
    skipValue frames (f.opening :: t) =
      match skipSpace t with
      | [] => .error (.within f.ended [])
      | d :: more =>
        if d = f.closing then skipAfter frames more else passInside f frames (d :: more) := by
  rw [skipValue_eq, skipSpace_cons f.isSpace_opening]
  cases f <;> rfl

/-! ### Values with parts -/

/-- The value is taken as a whole, whatever it stands in. -/
def IsPassed (v : Text) : Prop :=
  ∀ frames rest, Delimited rest → skipValue frames (v ++ rest) = skipAfter frames rest

structure IsPassedIn (f : Frame) (part : Text) : Prop where
  passes : ∀ frames rest, Delimited rest →
    passInside f frames (part ++ rest) = skipAfter (f :: frames) rest
  starts : ∀ rest, ∃ c more, skipSpace (part ++ rest) = c :: more ∧ c ≠ f.closing

theorem Frame.closing_cases (f : Frame) : f.closing = ']' ∨ f.closing = '}' := by
  cases f with
  | list => exact .inl rfl
  | object => exact .inr rfl

theorem Frame.closing_ne_comma (f : Frame) : f.closing ≠ ',' := by cases f <;> decide

/-- Parts are taken one by one up to the closing bracket. -/
theorem skipAfter_parts {f : Frame} {parts : List Text} (h : ∀ part ∈ parts, IsPassedIn f part)
    (frames : List Frame) (rest : Text) :
    skipAfter (f :: frames) (parts.flatMap (',' :: ·) ++ f.closing :: rest) =
      skipAfter frames rest := by
  induction parts with
  | nil =>
      rw [List.flatMap_nil, List.nil_append, skipAfter_cons, skipSpace_cons f.isSpace_closing]
      simp only [f.closing_ne_comma, if_false, if_true]
  | cons part parts ih =>
      have hcomma : skipSpace ((part :: parts).flatMap (',' :: ·) ++ f.closing :: rest) =
          ',' :: (part ++ (parts.flatMap (',' :: ·) ++ f.closing :: rest)) := by
        rw [List.flatMap_cons, List.append_assoc]
        exact skipSpace_cons (by decide) _
      rw [skipAfter_cons, hcomma]
      simp only [if_true]
      rw [(h part List.mem_cons_self).passes _ _ (delimited_flatMap f.closing_cases _ _)]
      exact ih fun other hother => h other (List.mem_cons_of_mem _ hother)

theorem isPassed_bracketed (f : Frame) {gap : Text} {parts : List Text} (hgap : Spaces gap)
    (h : ∀ part ∈ parts, IsPassedIn f part) :
    IsPassed (f.opening :: gap ++ join [','] parts ++ [f.closing]) := by
  intro frames rest _
  simp only [List.cons_append, List.append_assoc, List.nil_append]
  rw [skipValue_opening, skipSpace_append hgap]
  cases parts with
  | nil =>
      rw [show join [','] [] ++ f.closing :: rest = f.closing :: rest from rfl,
        skipSpace_cons f.isSpace_closing]
      simp only [if_true]
  | cons part parts =>
      have hpart := h part List.mem_cons_self
      have hdelimited := delimited_flatMap f.closing_cases parts rest
      rw [join_cons, List.append_assoc]
      obtain ⟨c, more, hstarts, hclosing⟩ :=
        hpart.starts (parts.flatMap (',' :: ·) ++ f.closing :: rest)
      rw [hstarts]
      simp only [hclosing, if_false]
      rw [← hstarts, passInside_skipSpace, hpart.passes frames _ hdelimited]
      exact skipAfter_parts (fun other hother => h other (List.mem_cons_of_mem _ hother))
        frames rest

theorem isPassedIn_item {i : Item} (hspaced : i.Spaced) (hvalue : IsValue i.value)
    (h : IsPassed i.value) : IsPassedIn .list i.text where
  passes frames rest hrest := by
    obtain ⟨hfront, hback⟩ := hspaced
    simp only [Item.text, List.append_assoc, passInside, Frame.enter]
    rw [skipValue_spaces _ hfront, h _ _ (hback.delimited_append hrest), skipAfter_spaces _ _ hback]
  starts rest := by
    obtain ⟨c, more, hskip, hc⟩ := i.skipSpace_text hspaced hvalue rest
    refine ⟨c, more, hskip, ?_⟩
    rintro rfl
    exact absurd hc (by decide)

theorem skipColon_append {behind : Text} (h : Spaces behind) (t : Text) :
    skipColon (behind ++ ':' :: t) = .ok t := by
  rw [skipColon, skipSpace_append h, skipSpace_cons (by decide)]
  simp only [if_true]

theorem skipSpace_member {m : Member} (hspaced : m.Spaced) (rest : Text) :
    skipSpace (m.text ++ rest) =
      '"' :: (m.key ++ '"' :: (m.behind ++ ':' :: (m.toItem.text ++ rest))) := by
  simp only [Member.text, List.append_assoc, List.cons_append]
  rw [skipSpace_append hspaced.1, skipSpace_cons (by decide)]

theorem isPassedIn_member {m : Member} (hspaced : m.Spaced) (hkey : IsBody m.key)
    (h : IsPassed m.value) : IsPassedIn .object m.text where
  passes frames rest hrest := by
    have hbehind := hspaced.2.1
    obtain ⟨hfront, hback⟩ := hspaced.2.2
    have hskip : skipKey (m.text ++ rest) = .ok (m.toItem.text ++ rest) := by
      rw [skipKey, skipSpace_member hspaced]
      simp only [if_true, skipString_body hkey]
      exact skipColon_append hbehind _
    simp only [passInside, Frame.enter, hskip, Item.text, List.append_assoc]
    rw [skipValue_spaces _ hfront, h _ _ (hback.delimited_append hrest), skipAfter_spaces _ _ hback]
  starts rest := ⟨_, _, skipSpace_member hspaced rest, by decide⟩

/-- Every value is taken as a whole. -/
theorem IsValue.isPassed {v : Text} (h : IsValue v) : IsPassed v := by
  induction h with
  | @word t h =>
      intro frames rest _
      have hscalar := skipScalar_word h rest
      rcases mem_words.mp h with rfl | rfl | rfl <;>
        exact skipValue_scalar rfl (by decide) (by decide) (by decide) hscalar frames
  | @number t h =>
      intro frames rest hrest
      have hscalar := skipScalar_number h hrest.endsNumber
      obtain ⟨c, t, rfl, hc⟩ := h.exists_head
      exact skipValue_scalar rfl (isSpace_of_startsNumber hc)
        (ne_of_startsNumber hc (by decide) (by decide))
        (ne_of_startsNumber hc (by decide) (by decide)) hscalar frames
  | text h =>
      intro frames rest _
      exact skipValue_scalar rfl (by decide) (by decide) (by decide) (skipScalar_text h rest) frames
  | list hgap hspaced hvalues ih =>
      refine isPassed_bracketed .list hgap fun part hpart => ?_
      obtain ⟨i, hi, rfl⟩ := List.mem_map.mp hpart
      exact isPassedIn_item (hspaced i hi) (hvalues i hi) (ih i hi)
  | object hgap hspaced hkeys hvalues ih =>
      refine isPassed_bracketed .object hgap fun part hpart => ?_
      obtain ⟨m, hm, rfl⟩ := List.mem_map.mp hpart
      exact isPassedIn_member (hspaced m hm) (hkeys m hm) (ih m hm)

end Inlay.Json
