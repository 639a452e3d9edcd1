import Inlay.Proofs.Json.Strings
import Inlay.Proofs.Text.LineEnds

/-!
Line ends in JSON texts. Between the parts of a text they are white space, and
in a string neither form may stand, so a list of strings reads the same
whichever way its lines end. Only the place of a fault may differ.
-/

namespace Inlay.Json

open Text

/-- The reader reads the same from both forms of a text, leaving the same, and
fails on both or on none. -/
def IgnoresLineEnds (read : Text → Except Fault (α × Text)) : Prop :=
  ∀ t, (read (crlf t)).toOption = (read t).toOption.map fun (a, rest) => (a, crlf rest)

/-- Of two results that agree, the one is a value where the other is. -/
theorem eq_ok_of_toOption_eq {x : Except ε α} {y : Except ε β} {f : β → α} {b : β}
    (h : x.toOption = y.toOption.map f) (hy : y = .ok b) : x = .ok (f b) := by
  rw [← toOption_eq_some_iff, h, toOption_eq_some_iff.mpr hy]
  rfl

theorem exists_eq_error_of_toOption_eq {x : Except ε α} {y : Except ε β} {f : β → α} {e : ε}
    (h : x.toOption = y.toOption.map f) (hy : y = .error e) : ∃ e', x = .error e' := by
  rw [← toOption_eq_none_iff, h, toOption_eq_none_iff.mpr ⟨e, hy⟩]
  rfl

theorem IgnoresLineEnds.ok {read : Text → Except Fault (α × Text)} (h : IgnoresLineEnds read)
    {t rest : Text} {a : α} (hread : read t = .ok (a, rest)) :
    read (crlf t) = .ok (a, crlf rest) :=
  eq_ok_of_toOption_eq (f := fun (a, rest) => (a, crlf rest)) (h t) hread

theorem IgnoresLineEnds.error {read : Text → Except Fault (α × Text)} (h : IgnoresLineEnds read)
    {t : Text} {fault : Fault} (hread : read t = .error fault) :
    ∃ fault', read (crlf t) = .error fault' :=
  exists_eq_error_of_toOption_eq (h t) hread

/-! ### Strings -/

theorem return_mem_take_crlf {t : Text} {n : Nat} (h : '\n' ∈ t.take n) :
    '\r' ∈ (crlf t).take n := by
  induction t generalizing n with
  | nil => simp at h
  | cons c t ih =>
      cases n with
      | zero => simp at h
      | succ n =>
          by_cases hc : c = '\n'
          · simp [hc]
          · rw [crlf_cons hc, List.take_succ_cons]
            rw [List.take_succ_cons, List.mem_cons] at h
            exact List.mem_cons_of_mem c (ih (h.resolve_left (Ne.symm hc)))

theorem readHex_eq_none {t : Text} {c : Char} (hc : c ∈ t.take 4) (hdigit : hexDigit? c = none) :
    (readHex t).toOption = none := by
  match t with
  | a :: b :: d :: e :: t =>
      simp only [List.take_succ_cons, List.take_zero, List.mem_cons, List.not_mem_nil,
        or_false] at hc
      simp only [readHex]
      split
      · rcases hc with rfl | rfl | rfl | rfl <;> simp_all
      · rfl
  | [] | [_] | [_, _] | [_, _, _] =>
      simp only [readHex]
      split <;> rfl

theorem ignoresLineEnds_readHex : IgnoresLineEnds readHex := by
  intro t
  by_cases hnewline : '\n' ∈ t.take 4
  · rw [readHex_eq_none (return_mem_take_crlf hnewline) (by decide),
      readHex_eq_none hnewline (by decide)]
    rfl
  · have hcrlf : crlf (t.take 4 ++ t.drop 4) = t.take 4 ++ crlf (t.drop 4) := by
      rw [crlf_append, crlf_of_newline_notMem hnewline]
    rw [List.take_append_drop] at hcrlf
    rw [hcrlf]
    match t with
    | a :: b :: d :: e :: t =>
        simp only [List.take_succ_cons, List.take_zero, List.drop_succ_cons, List.drop_zero,
          List.cons_append, List.nil_append, readHex]
        split <;> rfl
    | [] | [_] | [_, _] | [_, _, _] =>
        simp only [List.take_succ_cons, List.take_nil, List.drop_nil, List.drop_succ_cons, crlf_nil,
          List.append_nil, readHex]
        split <;> rfl

theorem readLowSurrogate_eq_none {high : Nat} {t : Text} (h : ∀ rest, t ≠ '\\' :: 'u' :: rest) :
    (readLowSurrogate high t).toOption = none := by
  unfold readLowSurrogate
  split
  · exact (h _ rfl).elim
  · rfl
  · rfl

theorem ignoresLineEnds_readLowSurrogate (high : Nat) :
    IgnoresLineEnds (readLowSurrogate high) := by
  intro t
  by_cases h : ∃ rest, t = '\\' :: 'u' :: rest
  · obtain ⟨rest, rfl⟩ := h
    rw [crlf_cons (by decide), crlf_cons (by decide)]
    simp only [readLowSurrogate]
    cases hhex : readHex rest with
    | error fault =>
        obtain ⟨fault', hfault⟩ := ignoresLineEnds_readHex.error hhex
        rw [hfault]
        rfl
    | ok p =>
        rw [ignoresLineEnds_readHex.ok hhex]
        dsimp only
        split <;> simp only [Except.toOption, Option.map_some, Option.map_none]
  · rw [readLowSurrogate_eq_none fun rest heq => h ⟨rest, heq⟩, readLowSurrogate_eq_none]
    · rfl
    · intro rest heq
      obtain ⟨-, left, rfl, hleft⟩ := crlf_eq_cons (by decide) heq
      obtain ⟨-, left, rfl, -⟩ := crlf_eq_cons (by decide) hleft.symm
      exact h ⟨_, rfl⟩

theorem ignoresLineEnds_readUnicode : IgnoresLineEnds readUnicode := by
  intro t
  unfold readUnicode
  cases hhex : readHex t with
  | error fault =>
      obtain ⟨fault', hfault⟩ := ignoresLineEnds_readHex.error hhex
      rw [hfault]
      rfl
  | ok p =>
      rw [ignoresLineEnds_readHex.ok hhex]
      dsimp only
      split
      · rfl
      · split
        · exact ignoresLineEnds_readLowSurrogate _ _
        · rfl

theorem ignoresLineEnds_readEscape : IgnoresLineEnds readEscape := by
  intro t
  cases t with
  | nil => rfl
  | cons c t =>
      by_cases hc : c = '\n'
      · subst hc
        rfl
      · rw [crlf_cons hc]
        simp only [readEscape]
        split
        · exact ignoresLineEnds_readUnicode t
        · split <;> rfl

theorem ignoresLineEnds_readString : IgnoresLineEnds readString := by
  intro t
  fun_induction readString t with
  | case1 =>
      rw [crlf_nil, readString]
      rfl
  | case2 t =>
      rw [crlf_cons (by decide), readString]
      rfl
  | case3 t fault hescape =>
      obtain ⟨fault', hfault⟩ := ignoresLineEnds_readEscape.error hescape
      rw [crlf_cons (by decide), readString_of_fault hfault]
      rfl
  | case4 t e rest hescape _ ih =>
      rw [crlf_cons (by decide), readString_of_escape (ignoresLineEnds_readEscape.ok hescape),
        toOption_map, toOption_map, ih, Option.map_map, Option.map_map]
      rfl
  | case5 c t hquote hback hcontrol =>
      by_cases hc : c = '\n'
      · subst hc
        rw [crlf_newline, readString]
        rfl
      · rw [crlf_cons hc, readString, if_neg hquote, if_neg hback, if_pos hcontrol]
        rfl
  | case6 c t hquote hback hcontrol ih =>
      have hc : c ≠ '\n' := by
        rintro rfl
        exact hcontrol (by decide)
      rw [crlf_cons hc, readString, if_neg hquote, if_neg hback, if_neg hcontrol, toOption_map,
        toOption_map, ih, Option.map_map, Option.map_map]
      rfl

/-! ### Lists of strings -/

theorem skipSpace_crlf (t : Text) : skipSpace (crlf t) = crlf (skipSpace t) := by
  induction t with
  | nil => rfl
  | cons c t ih =>
      by_cases hc : c = '\n'
      · subst hc
        exact ih
      · rw [crlf_cons hc]
        cases hspace : isSpace c with
        | true => simpa [skipSpace, hspace] using ih
        | false => simp [skipSpace, hspace, crlf_cons hc]

theorem ne_newline_of_skipSpace {t rest : Text} {c : Char} (h : skipSpace t = c :: rest) :
    c ≠ '\n' := by
  rintro rfl
  have hstops := stops_dropWhile isSpace t '\n'
  rw [show t.dropWhile isSpace = '\n' :: rest from h] at hstops
  exact absurd (hstops rfl) (by decide)

theorem toValue_crlf (t : Text) : (toValue (crlf t)).toOption = (toValue t).toOption.map crlf := by
  unfold toValue
  rw [skipSpace_crlf]
  by_cases h : skipSpace t = []
  · rw [h]
    rfl
  · rw [if_neg (crlf_ne_nil h), if_neg h]
    rfl

theorem IgnoresLineEnds.readBehind {inner : Text → Except Fault (α × Text)}
    (hinner : IgnoresLineEnds inner) {opening : Char} (hreturn : opening ≠ '\r')
    (hnewline : opening ≠ '\n') (expected : Expected) :
    IgnoresLineEnds (readBehind opening expected inner) := by
  intro t
  unfold Json.readBehind
  cases hvalue : toValue t with
  | error fault =>
      obtain ⟨fault', hfault⟩ := exists_eq_error_of_toOption_eq (toValue_crlf t) hvalue
      rw [hfault]
      rfl
  | ok value =>
      rw [eq_ok_of_toOption_eq (toValue_crlf t) hvalue]
      dsimp only
      cases value with
      | nil => rfl
      | cons c rest =>
          by_cases hc : c = opening
          · subst hc
            rw [crlf_cons hnewline]
            simpa using hinner rest
          · have hother : (crlf (c :: rest)).head? ≠ some opening := by
              intro h
              obtain ⟨behind, heq⟩ := List.head?_eq_some_iff.mp h
              obtain ⟨-, left, hleft, -⟩ := crlf_eq_cons hreturn heq
              exact hc (List.cons.inj hleft).1
            rw [if_neg hother, if_neg (by simpa using hc)]
            rfl

theorem ignoresLineEnds_readText : IgnoresLineEnds readText :=
  ignoresLineEnds_readString.readBehind (by decide) (by decide) .text

theorem nextElement_crlf (first : Bool) (t : Text) :
    (nextElement first (crlf t)).toOption =
      (nextElement first t).toOption.map fun (element, rest) => (element.map crlf, crlf rest) := by
  unfold nextElement
  rw [skipSpace_crlf]
  cases ht : skipSpace t with
  | nil => rfl
  | cons c rest =>
      rw [crlf_cons (ne_newline_of_skipSpace ht)]
      dsimp only
      split
      · rfl
      · split
        · simp [Except.toOption, crlf_cons (ne_newline_of_skipSpace ht)]
        · split
          · rw [skipSpace_crlf]
            cases hrest : skipSpace rest with
            | nil => rfl
            | cons d more =>
                rw [crlf_cons (ne_newline_of_skipSpace hrest)]
                dsimp only
                split
                · rfl
                · simp [Except.toOption, crlf_cons (ne_newline_of_skipSpace hrest)]
          · rfl

theorem ignoresLineEnds_readTexts (first : Bool) : IgnoresLineEnds (readTexts first) := by
  intro t
  fun_induction readTexts first t with
  | case1 first t fault hnext =>
      obtain ⟨fault', hfault⟩ := exists_eq_error_of_toOption_eq (nextElement_crlf first t) hnext
      rw [readTexts_eq, hfault]
      rfl
  | case2 first t rest hnext =>
      rw [readTexts_eq, eq_ok_of_toOption_eq (nextElement_crlf first t) hnext]
      rfl
  | case3 first t element rest hnext fault htext =>
      obtain ⟨fault', hfault⟩ := ignoresLineEnds_readText.error htext
      rw [readTexts_eq, eq_ok_of_toOption_eq (nextElement_crlf first t) hnext]
      simp only [Option.map_some, hfault]
      rfl
  | case4 first t element rest hnext s left htext ih =>
      rw [readTexts_eq, eq_ok_of_toOption_eq (nextElement_crlf first t) hnext]
      simp only [Option.map_some, ignoresLineEnds_readText.ok htext]
      rw [toOption_map, toOption_map, ih, Option.map_map, Option.map_map]
      rfl

theorem ignoresLineEnds_readTextList : IgnoresLineEnds readTextList :=
  (ignoresLineEnds_readTexts true).readBehind (by decide) (by decide) .sequence

/-- A whole text reads the same whichever way its lines end. -/
theorem parse_crlf {read : Text → Except Fault (α × Text)} (hread : IgnoresLineEnds read)
    (t : Text) : (parse read (crlf t)).toOption = (parse read t).toOption := by
  unfold parse
  cases h : read t with
  | error fault =>
      obtain ⟨fault', hfault⟩ := hread.error h
      rw [hfault]
      rfl
  | ok p =>
      rw [hread.ok h]
      simp only [skipSpace_crlf]
      by_cases hrest : skipSpace p.2 = []
      · rw [if_pos hrest, if_pos (by rw [hrest]; rfl)]
      · rw [if_neg hrest, if_neg (crlf_ne_nil hrest)]
        rfl

end Inlay.Json
