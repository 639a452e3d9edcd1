import Inlay.Json.Skip

/-!
Strings of a JSON text. `Spells` says which text stands between the quotes of a
string, escapes and pairs of surrogates included, and the reader reads exactly
that. A string may also stand for no text, since a surrogate may be written
alone; such a string can only be passed over.
-/

namespace Inlay.Json

open Text

/-! ### Results -/

theorem toOption_eq_some_iff {x : Except ε α} {a : α} : x.toOption = some a ↔ x = .ok a := by
  cases x <;> simp [Except.toOption]

theorem toOption_eq_none_iff {x : Except ε α} : x.toOption = none ↔ ∃ e, x = .error e := by
  cases x <;> simp [Except.toOption]

theorem toOption_map (f : α → β) (x : Except ε α) : (x.map f).toOption = x.toOption.map f := by
  cases x <;> rfl

/-! ### Escapes -/

def hexValue? : Text → Option Nat
  | [a, b, c, d] => do
    let a ← hexDigit? a
    let b ← hexDigit? b
    let c ← hexDigit? c
    let d ← hexDigit? d
    some (((a * 16 + b) * 16 + c) * 16 + d)
  | _ => none

/-- The character beyond 16 bits that a pair of surrogates stands for. -/
def pairedChar (high low : Nat) : Char :=
  Char.ofNat ((high - 0xD800) * 0x400 + (low - 0xDC00) + 0x10000)

/-- What may follow a backslash, and the character it stands for: one letter,
or the digits of a code unit, or those of a pair of surrogates. -/
inductive Escape : Text → Char → Prop
  | short {c e : Char} (h : simpleEscape? c = some e) : Escape [c] e
  | unit {digits : Text} {n : Nat} (h : hexValue? digits = some n)
      (hhigh : isHighSurrogate n = false) (hlow : isLowSurrogate n = false) :
      Escape ('u' :: digits) (Char.ofNat n)
  | pair {first second : Text} {high low : Nat} (hfirst : hexValue? first = some high)
      (hhigh : isHighSurrogate high = true) (hsecond : hexValue? second = some low)
      (hlow : isLowSurrogate low = true) :
      Escape ('u' :: (first ++ '\\' :: 'u' :: second)) (pairedChar high low)

theorem simpleEscape?_u : simpleEscape? 'u' = none := by decide

theorem exists_of_hexValue? {digits : Text} {n : Nat} (h : hexValue? digits = some n) :
    ∃ a b c d, digits = [a, b, c, d] := by
  unfold hexValue? at h
  split at h
  · exact ⟨_, _, _, _, rfl⟩
  · contradiction

theorem readHex_eq_ok_iff {t rest : Text} {n : Nat} :
    readHex t = .ok (n, rest) ↔ ∃ digits, hexValue? digits = some n ∧ t = digits ++ rest := by
  constructor
  · intro h
    unfold readHex at h
    split at h
    · split at h
      · rename_i a b c d t _ _ _ _ _ _ _ _ ha hb hc hd
        simp only [Except.ok.injEq, Prod.mk.injEq] at h
        obtain ⟨rfl, rfl⟩ := h
        exact ⟨[a, b, c, d], by simp [hexValue?, ha, hb, hc, hd], rfl⟩
      · contradiction
    · split at h <;> contradiction
  · rintro ⟨digits, h, rfl⟩
    obtain ⟨a, b, c, d, rfl⟩ := exists_of_hexValue? h
    simp only [hexValue?, Option.bind_eq_bind, Option.bind_eq_some_iff] at h
    obtain ⟨a', ha, b', hb, c', hc, d', hd, hn⟩ := h
    simp [readHex, ha, hb, hc, hd, Option.some.inj hn]

theorem readLowSurrogate_eq_ok_iff {high : Nat} {t rest : Text} {c : Char} :
    readLowSurrogate high t = .ok (c, rest) ↔
      ∃ second low, hexValue? second = some low ∧ isLowSurrogate low = true ∧
        pairedChar high low = c ∧ t = '\\' :: 'u' :: second ++ rest := by
  constructor
  · intro h
    unfold readLowSurrogate at h
    split at h
    · split at h
      · contradiction
      · rename_i low left hread
        split at h
        · rename_i hlow
          simp only [Except.ok.injEq, Prod.mk.injEq] at h
          obtain ⟨rfl, rfl⟩ := h
          obtain ⟨second, hsecond, rfl⟩ := readHex_eq_ok_iff.mp hread
          exact ⟨second, low, hsecond, hlow, rfl, rfl⟩
        · contradiction
    · contradiction
    · contradiction
  · rintro ⟨second, low, hsecond, hlow, rfl, rfl⟩
    have hread : readHex (second ++ rest) = .ok (low, rest) :=
      readHex_eq_ok_iff.mpr ⟨second, hsecond, rfl⟩
    simp [readLowSurrogate, hread, hlow, pairedChar]

theorem readUnicode_eq_ok_iff {t rest : Text} {c : Char} :
    readUnicode t = .ok (c, rest) ↔ ∃ escape, Escape ('u' :: escape) c ∧ t = escape ++ rest := by
  constructor
  · intro h
    unfold readUnicode at h
    split at h
    · contradiction
    · rename_i n left hread
      obtain ⟨digits, hdigits, rfl⟩ := readHex_eq_ok_iff.mp hread
      split at h
      · contradiction
      · rename_i hlow
        split at h
        · rename_i hhigh
          obtain ⟨second, low, hsecond, hlow, rfl, rfl⟩ := readLowSurrogate_eq_ok_iff.mp h
          exact ⟨digits ++ '\\' :: 'u' :: second, .pair hdigits hhigh hsecond hlow, by simp⟩
        · rename_i hhigh
          simp only [Except.ok.injEq, Prod.mk.injEq] at h
          obtain ⟨rfl, rfl⟩ := h
          exact ⟨digits, .unit hdigits (by simpa using hhigh) (by simpa using hlow), rfl⟩
  · rintro ⟨escape, hescape, rfl⟩
    generalize hwhole : 'u' :: escape = whole at hescape
    cases hescape with
    | short h =>
        obtain ⟨rfl, -⟩ := List.cons.inj hwhole
        simp [simpleEscape?_u] at h
    | @unit digits n h hhigh hlow =>
        obtain rfl := (List.cons.inj hwhole).2
        have hread : readHex (escape ++ rest) = .ok (n, rest) :=
          readHex_eq_ok_iff.mpr ⟨escape, h, rfl⟩
        simp [readUnicode, hread, hhigh, hlow]
    | @pair first second high low hfirst hhigh hsecond hlow =>
        obtain rfl := (List.cons.inj hwhole).2
        have hread : readHex (first ++ '\\' :: 'u' :: second ++ rest) =
            .ok (high, '\\' :: 'u' :: second ++ rest) :=
          readHex_eq_ok_iff.mpr ⟨first, hfirst, by simp⟩
        have hsecond : readLowSurrogate high ('\\' :: 'u' :: second ++ rest) =
            .ok (pairedChar high low, rest) :=
          readLowSurrogate_eq_ok_iff.mpr ⟨second, low, hsecond, hlow, rfl, rfl⟩
        have hapart : isLowSurrogate high = false := by
          simp only [isHighSurrogate, isLowSurrogate, Bool.and_eq_true, decide_eq_true_eq,
            Bool.and_eq_false_iff, decide_eq_false_iff_not] at hhigh ⊢
          omega
        simp only [readUnicode, hread, hapart, hhigh, hsecond, if_true, Bool.false_eq_true,
          if_false]

theorem readEscape_eq_ok_iff {t rest : Text} {c : Char} :
    readEscape t = .ok (c, rest) ↔ ∃ escape, Escape escape c ∧ t = escape ++ rest := by
  constructor
  · intro h
    unfold readEscape at h
    split at h
    · contradiction
    · rename_i d t
      split at h
      · rename_i hd
        subst hd
        obtain ⟨escape, hescape, rfl⟩ := readUnicode_eq_ok_iff.mp h
        exact ⟨'u' :: escape, hescape, rfl⟩
      · split at h
        · rename_i e he
          simp only [Except.ok.injEq, Prod.mk.injEq] at h
          obtain ⟨rfl, rfl⟩ := h
          exact ⟨[d], .short he, rfl⟩
        · contradiction
  · rintro ⟨escape, hescape, rfl⟩
    cases hescape with
    | @short d _ h =>
        have hd : d ≠ 'u' := by
          rintro rfl
          simp [simpleEscape?_u] at h
        simp [readEscape, hd, h]
    | unit h hhigh hlow =>
        exact readUnicode_eq_ok_iff.mpr ⟨_, .unit h hhigh hlow, rfl⟩
    | pair hfirst hhigh hsecond hlow =>
        exact readUnicode_eq_ok_iff.mpr ⟨_, .pair hfirst hhigh hsecond hlow, rfl⟩

/-! ### What a string stands for -/

def IsPlain (c : Char) : Prop := c ≠ '"' ∧ c ≠ '\\' ∧ 0x20 ≤ c.toNat

instance (c : Char) : Decidable (IsPlain c) := inferInstanceAs (Decidable (_ ∧ _ ∧ _))

/-- `Spells body s`: between quotes, `body` stands for `s`. -/
inductive Spells : Text → Text → Prop
  | nil : Spells [] []
  | plain {c : Char} {body s : Text} (hc : IsPlain c) (h : Spells body s) :
      Spells (c :: body) (c :: s)
  | escape {escape body s : Text} {c : Char} (hescape : Escape escape c) (h : Spells body s) :
      Spells ('\\' :: escape ++ body) (c :: s)

theorem spells_of_plain {t : Text} (h : ∀ c ∈ t, IsPlain c) : Spells t t := by
  induction t with
  | nil => exact .nil
  | cons c t ih =>
      exact .plain (h c List.mem_cons_self) (ih fun d hd => h d (List.mem_cons_of_mem c hd))

theorem readString_of_escape {t rest : Text} {e : Char} (h : readEscape t = .ok (e, rest)) :
    readString ('\\' :: t) = (readString rest).map fun (s, final) => (e :: s, final) := by
  rw [readString, if_neg (by decide), if_pos rfl]
  split
  · rename_i hescape
    simp [h] at hescape
  · rename_i hescape
    simp only [h, Except.ok.injEq, Prod.mk.injEq] at hescape
    rw [hescape.1, hescape.2]

theorem readString_of_fault {t : Text} {fault : Fault} (h : readEscape t = .error fault) :
    readString ('\\' :: t) = .error fault := by
  rw [readString, if_neg (by decide), if_pos rfl]
  split
  · rename_i hescape
    rw [h] at hescape
    rw [Except.error.inj hescape]
  · rename_i hescape
    simp [h] at hescape

/-- A string is read to its closing quote, as the text that it stands for. -/
theorem readString_eq_ok_iff {t s rest : Text} :
    readString t = .ok (s, rest) ↔ ∃ body, Spells body s ∧ t = body ++ '"' :: rest := by
  constructor
  · intro h
    fun_induction readString t generalizing s with
    | case1 => contradiction
    | case2 t =>
        simp only [Except.ok.injEq, Prod.mk.injEq] at h
        obtain ⟨rfl, rfl⟩ := h
        exact ⟨[], .nil, rfl⟩
    | case3 => contradiction
    | case4 t e left hread _ ih =>
        obtain ⟨⟨s, final⟩, hs, heq⟩ := map_eq_ok_iff.mp h
        simp only [Prod.mk.injEq] at heq
        obtain ⟨rfl, rfl⟩ := heq
        obtain ⟨escape, hescape, rfl⟩ := readEscape_eq_ok_iff.mp hread
        obtain ⟨body, hbody, rfl⟩ := ih hs
        exact ⟨'\\' :: escape ++ body, .escape hescape hbody, by simp⟩
    | case5 => contradiction
    | case6 c t hquote hback hcontrol ih =>
        obtain ⟨⟨s, final⟩, hs, heq⟩ := map_eq_ok_iff.mp h
        simp only [Prod.mk.injEq] at heq
        obtain ⟨rfl, rfl⟩ := heq
        obtain ⟨body, hbody, rfl⟩ := ih hs
        exact ⟨c :: body, .plain ⟨hquote, hback, Nat.le_of_not_lt hcontrol⟩ hbody, rfl⟩
  · rintro ⟨body, hbody, rfl⟩
    induction hbody with
    | nil => simp [readString]
    | plain hc h ih =>
        obtain ⟨hquote, hback, hcontrol⟩ := hc
        rw [List.cons_append, readString, if_neg hquote, if_neg hback,
          if_neg (Nat.not_lt_of_le hcontrol), ih]
        rfl
    | @escape escape body s c hescape h ih =>
        have hread : readEscape (escape ++ (body ++ '"' :: rest)) = .ok (c, body ++ '"' :: rest) :=
          readEscape_eq_ok_iff.mpr ⟨escape, hescape, rfl⟩
        rw [List.cons_append, List.cons_append, List.append_assoc, readString_of_escape hread, ih]
        rfl

/-! ### Strings that stand for no text -/

/-- What may stand between the quotes of a string. Surrogates need no
partner. -/
inductive IsBody : Text → Prop
  | nil : IsBody []
  | plain {c : Char} {body : Text} (hc : IsPlain c) (h : IsBody body) : IsBody (c :: body)
  | short {c e : Char} {body : Text} (hc : simpleEscape? c = some e) (h : IsBody body) :
      IsBody ('\\' :: c :: body)
  | unit {digits body : Text} {n : Nat} (hdigits : hexValue? digits = some n) (h : IsBody body) :
      IsBody ('\\' :: 'u' :: digits ++ body)

theorem Spells.isBody {body s : Text} (h : Spells body s) : IsBody body := by
  induction h with
  | nil => exact .nil
  | plain hc _ ih => exact .plain hc ih
  | escape hescape _ ih =>
      cases hescape with
      | short hc => exact .short hc ih
      | unit hdigits => exact .unit hdigits ih
      | pair hfirst _ hsecond =>
          simpa using IsBody.unit hfirst (.unit hsecond ih)

theorem skipString_of_escape {t rest : Text} (h : skipEscape t = .ok rest) :
    skipString ('\\' :: t) = skipString rest := by
  rw [skipString, if_neg (by decide), if_pos rfl]
  split
  · rename_i hescape
    simp [h] at hescape
  · rename_i hescape
    rw [h] at hescape
    rw [Except.ok.inj hescape]

theorem skipString_body {body : Text} (h : IsBody body) (rest : Text) :
    skipString (body ++ '"' :: rest) = .ok rest := by
  induction h with
  | nil => simp [skipString]
  | plain hc h ih =>
      obtain ⟨hquote, hback, hcontrol⟩ := hc
      rw [List.cons_append, skipString, if_neg hquote, if_neg hback,
        if_neg (Nat.not_lt_of_le hcontrol), ih]
  | @short c e body hc h ih =>
      have hu : c ≠ 'u' := by
        rintro rfl
        simp [simpleEscape?_u] at hc
      have hskip : skipEscape (c :: (body ++ '"' :: rest)) = .ok (body ++ '"' :: rest) := by
        simp [skipEscape, hu, hc]
      rw [List.cons_append, List.cons_append, skipString_of_escape hskip, ih]
  | @unit digits body n hdigits h ih =>
      have hread : readHex (digits ++ (body ++ '"' :: rest)) = .ok (n, body ++ '"' :: rest) :=
        readHex_eq_ok_iff.mpr ⟨digits, hdigits, rfl⟩
      have hskip : skipEscape ('u' :: (digits ++ (body ++ '"' :: rest))) =
          .ok (body ++ '"' :: rest) := by
        simp [skipEscape, hread, Except.map]
      rw [List.append_assoc, List.cons_append, List.cons_append, skipString_of_escape hskip, ih]

def spelled? (body : Text) : Option Text :=
  match readString (body ++ ['"']) with
  | .ok (s, []) => some s
  | _ => none

theorem spelled?_eq_some_iff {body s : Text} : spelled? body = some s ↔ Spells body s := by
  constructor
  · intro h
    unfold spelled? at h
    split at h
    · rename_i hread
      obtain rfl := Option.some.inj h
      obtain ⟨body', hbody, heq⟩ := readString_eq_ok_iff.mp hread
      rwa [List.append_cancel_right heq]
    · contradiction
  · intro h
    have hread : readString (body ++ ['"']) = .ok (s, []) :=
      readString_eq_ok_iff.mpr ⟨body, h, rfl⟩
    simp [spelled?, hread]

/-- A string is read as the text that it stands for whatever follows it, and
refused if it stands for none. -/
theorem readString_body {body : Text} (h : IsBody body) (rest : Text) :
    (readString (body ++ '"' :: rest)).toOption = (spelled? body).map (·, rest) := by
  apply Option.ext
  rintro ⟨s, left⟩
  rw [toOption_eq_some_iff, readString_eq_ok_iff, Option.map_eq_some_iff]
  constructor
  · rintro ⟨body', hbody, heq⟩
    -- both are passed over up to the same quote
    have hskip := skipString_body h rest
    rw [heq, skipString_body hbody.isBody] at hskip
    obtain rfl := Except.ok.inj hskip
    obtain rfl := List.append_cancel_right heq
    exact ⟨s, spelled?_eq_some_iff.mpr hbody, rfl⟩
  · rintro ⟨s', hs, heq⟩
    obtain ⟨rfl, rfl⟩ := Prod.mk.inj heq
    exact ⟨body, spelled?_eq_some_iff.mp hs, rfl⟩

end Inlay.Json
