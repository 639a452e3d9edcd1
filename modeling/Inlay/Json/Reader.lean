import Inlay.Json.Number

/-!
Reading JSON texts of a known shape: strings, booleans, lists of strings, and
values that are only passed over. A reader gets what is left of the text and
gives what it read with what is left then, so every reader that succeeds
leaves less than it was given.
-/

namespace Inlay.Json

theorem map_eq_ok_iff {f : α → β} {x : Except ε α} {b : β} :
    x.map f = .ok b ↔ ∃ a, x = .ok a ∧ f a = b := by
  cases x <;> simp [Except.map]

def isSpace (c : Char) : Bool := c == ' ' || c == '\t' || c == '\n' || c == '\r'

def skipSpace (t : Text) : Text := t.dropWhile isSpace

theorem skipSpace_length (t : Text) : (skipSpace t).length ≤ t.length :=
  (List.dropWhile_sublist _).length_le

theorem length_lt_of_skipSpace {t rest : Text} {c : Char} (h : skipSpace t = c :: rest) :
    rest.length < t.length := by
  have hskip := skipSpace_length t
  rwa [h, List.length_cons] at hskip

/-- Reads the rest of a word such as `null`. -/
def readIdent : Text → Text → Except Fault Text
  | [], t => .ok t
  | _ :: _, [] => .error (.before .endOfValue [])
  | expected :: more, c :: t =>
    if c = expected then readIdent more t else .error (.within .expectedIdent (c :: t))

/-! ### Strings -/

/-- Reads four hexadecimal digits. What stands there counts by bytes: with
fewer than four the string has ended. -/
def readHex : Text → Except Fault (Nat × Text)
  | a :: b :: c :: d :: t =>
    match Text.hexDigit? a, Text.hexDigit? b, Text.hexDigit? c, Text.hexDigit? d with
    | some a, some b, some c, some d => .ok (((a * 16 + b) * 16 + c) * 16 + d, t)
    | _, _, _, _ => .error ⟨.invalidEscape, Text.byteSize (a :: b :: c :: d :: t) - 4⟩
  | t =>
    if Text.byteSize t < 4 then .error ⟨.endOfText, 0⟩
    else .error ⟨.invalidEscape, Text.byteSize t - 4⟩

def isHighSurrogate (n : Nat) : Bool := 0xD800 ≤ n && n ≤ 0xDBFF

def isLowSurrogate (n : Nat) : Bool := 0xDC00 ≤ n && n ≤ 0xDFFF

def readLowSurrogate (high : Nat) : Text → Except Fault (Char × Text)
  | '\\' :: 'u' :: t =>
    match readHex t with
    | .error fault => .error fault
    | .ok (low, rest) =>
      if isLowSurrogate low then
        .ok (Char.ofNat ((high - 0xD800) * 0x400 + (low - 0xDC00) + 0x10000), rest)
      else .error (.before .loneSurrogate rest)
  | '\\' :: t => .error (.within (if t = [] then .endOfText else .endOfHexEscape) t)
  | t => .error (.within (if t = [] then .endOfText else .endOfHexEscape) t)

def readUnicode (t : Text) : Except Fault (Char × Text) :=
  match readHex t with
  | .error fault => .error fault
  | .ok (n, rest) =>
    if isLowSurrogate n then .error (.before .loneSurrogate rest)
    else if isHighSurrogate n then readLowSurrogate n rest
    else .ok (Char.ofNat n, rest)

def simpleEscape? (c : Char) : Option Char :=
  if c = '"' ∨ c = '\\' ∨ c = '/' then some c
  else if c = 'b' then some '\x08'
  else if c = 'f' then some '\x0c'
  else if c = 'n' then some '\n'
  else if c = 'r' then some '\r'
  else if c = 't' then some '\t'
  else none

def readEscape : Text → Except Fault (Char × Text)
  | [] => .error (.before .endOfText [])
  | c :: t =>
    if c = 'u' then readUnicode t
    else match simpleEscape? c with
      | some e => .ok (e, t)
      | none => .error (.within .invalidEscape (c :: t))

theorem readHex_length {t : Text} {n : Nat} {rest : Text} (h : readHex t = .ok (n, rest)) :
    rest.length < t.length := by
  unfold readHex at h
  split at h
  · split at h
    · cases h
      simp only [List.length_cons]
      omega
    · cases h
  · split at h <;> cases h

theorem readLowSurrogate_length {high : Nat} {t : Text} {c : Char} {rest : Text}
    (h : readLowSurrogate high t = .ok (c, rest)) : rest.length < t.length := by
  unfold readLowSurrogate at h
  split at h
  · split at h
    · cases h
    · rename_i hhex
      have hdigits := readHex_length hhex
      split at h
      · obtain ⟨-, rfl⟩ := Prod.mk.inj (Except.ok.inj h)
        simp only [List.length_cons]
        omega
      · cases h
  · cases h
  · cases h

theorem readUnicode_length {t : Text} {c : Char} {rest : Text}
    (h : readUnicode t = .ok (c, rest)) : rest.length < t.length := by
  unfold readUnicode at h
  split at h
  · cases h
  · rename_i hhex
    have hdigits := readHex_length hhex
    split at h
    · cases h
    · split at h
      · exact Nat.lt_trans (readLowSurrogate_length h) hdigits
      · obtain ⟨-, rfl⟩ := Prod.mk.inj (Except.ok.inj h)
        exact hdigits

theorem readEscape_length {t : Text} {c : Char} {rest : Text}
    (h : readEscape t = .ok (c, rest)) : rest.length < t.length := by
  unfold readEscape at h
  split at h
  · cases h
  · split at h
    · exact Nat.lt_succ_of_lt (readUnicode_length h)
    · split at h <;> cases h
      exact Nat.lt_succ_self _

def readString (t : Text) : Except Fault (Text × Text) :=
  match t with
  | [] => .error (.before .endOfText [])
  | c :: t =>
    if c = '"' then .ok ([], t)
    else if c = '\\' then
      match _h : readEscape t with
      | .error fault => .error fault
      | .ok (e, rest) => (readString rest).map fun (s, final) => (e :: s, final)
    else if c.toNat < 0x20 then .error (.before .controlCharacter t)
    else (readString t).map fun (s, final) => (c :: s, final)
termination_by t.length
decreasing_by
  · exact Nat.lt_succ_of_lt (readEscape_length _h)
  · exact Nat.lt_succ_self _

theorem readString_length {t s rest : Text} (h : readString t = .ok (s, rest)) :
    rest.length < t.length := by
  fun_induction readString t generalizing s with
  | case1 | case3 | case5 => cases h
  | case2 =>
    cases h
    exact Nat.lt_succ_self _
  | case4 t e left hescape _ ih =>
    obtain ⟨⟨more, final⟩, hmore, heq⟩ := map_eq_ok_iff.mp h
    obtain ⟨-, rfl⟩ := Prod.mk.inj heq
    exact Nat.lt_succ_of_lt (Nat.lt_trans (ih hmore) (readEscape_length hescape))
  | case6 c t _ _ _ ih =>
    obtain ⟨⟨more, final⟩, hmore, heq⟩ := map_eq_ok_iff.mp h
    obtain ⟨-, rfl⟩ := Prod.mk.inj heq
    exact Nat.lt_succ_of_lt (ih hmore)

/-! ### Values of a wrong kind -/

/-- Reads a value to say what it is. A list or a map is told by its bracket,
which is left. -/
def readFound : Text → Except Fault (Found × Text)
  | [] => .error (.within .expectedValue [])
  | c :: t =>
    if c = 'n' then (readIdent "ull".toList t).map (Found.null, ·)
    else if c = 't' then (readIdent "rue".toList t).map (Found.boolean true, ·)
    else if c = 'f' then (readIdent "alse".toList t).map (Found.boolean false, ·)
    else if c = '-' then readNumber true t
    else if c.isDigit then readNumber false (c :: t)
    else if c = '"' then (readString t).map fun (s, rest) => (Found.text s, rest)
    else if c = '[' then .ok (.sequence, c :: t)
    else if c = '{' then .ok (.map, c :: t)
    else .error (.within .expectedValue (c :: t))

/-- The fault of a text that starts with something else than is expected. -/
def unexpected (expected : Expected) (t : Text) : Fault :=
  match readFound t with
  | .error fault => fault
  | .ok (found, rest) => .before (.wrongType found expected) rest

/-! ### Values of a known kind -/

def toValue (t : Text) : Except Fault Text :=
  if skipSpace t = [] then .error (.within .endOfValue []) else .ok (skipSpace t)

/-- Reads a value that starts with a certain character, and by `inner` what is
behind it. -/
def readBehind (opening : Char) (expected : Expected) (inner : Text → Except Fault (α × Text))
    (t : Text) : Except Fault (α × Text) :=
  match toValue t with
  | .error fault => .error fault
  | .ok value =>
    if value.head? = some opening then inner value.tail else .error (unexpected expected value)

def readText : Text → Except Fault (Text × Text) := readBehind '"' .text readString

def readBoolean (t : Text) : Except Fault (Bool × Text) :=
  match toValue t with
  | .error fault => .error fault
  | .ok ('t' :: rest) => (readIdent "rue".toList rest).map (true, ·)
  | .ok ('f' :: rest) => (readIdent "alse".toList rest).map (false, ·)
  | .ok other => .error (unexpected .boolean other)

/-- Reads `null` as nothing and any other value by `read`. -/
def readOptional (read : Text → Except Fault (α × Text)) (t : Text) :
    Except Fault (Option α × Text) :=
  match skipSpace t with
  | 'n' :: rest => (readIdent "ull".toList rest).map (none, ·)
  | other => (read other).map fun (a, rest) => (some a, rest)

theorem toValue_length {t rest : Text} (h : toValue t = .ok rest) :
    rest.length ≤ t.length := by
  unfold toValue at h
  split at h <;> cases h
  exact skipSpace_length t

theorem readBehind_length {opening : Char} {expected : Expected}
    {inner : Text → Except Fault (α × Text)}
    (hinner : ∀ {t a rest}, inner t = .ok (a, rest) → rest.length ≤ t.length) {t rest : Text}
    {a : α} (h : readBehind opening expected inner t = .ok (a, rest)) :
    rest.length < t.length := by
  unfold readBehind at h
  split at h
  · cases h
  · rename_i value hvalue
    have hvalue : value.length ≤ t.length := toValue_length hvalue
    split at h
    · rename_i hopening
      obtain ⟨behind, rfl⟩ := List.head?_eq_some_iff.mp hopening
      exact Nat.lt_of_le_of_lt (hinner h) hvalue
    · cases h

theorem readText_length {t s rest : Text} (h : readText t = .ok (s, rest)) :
    rest.length < t.length :=
  readBehind_length (fun h => Nat.le_of_lt (readString_length h)) h

/-- Goes to the next element of a list after the bracket or an element: what
is left at that element, or nothing at the end of the list with what is left
behind it. -/
def nextElement (first : Bool) (t : Text) : Except Fault (Option Text × Text) :=
  match skipSpace t with
  | [] => .error (.within .endOfList [])
  | c :: rest =>
    if c = ']' then .ok (none, rest)
    else if first then .ok (some (c :: rest), [])
    else if c = ',' then
      match skipSpace rest with
      | [] => .error (.within .endOfValue [])
      | d :: more =>
        if d = ']' then .error (.within .trailingComma (d :: more)) else .ok (some (d :: more), [])
    else .error (.within .expectedListCommaOrEnd (c :: rest))

theorem nextElement_length {first : Bool} {t element rest : Text}
    (h : nextElement first t = .ok (some element, rest)) : element.length ≤ t.length := by
  unfold nextElement at h
  split at h
  · cases h
  · rename_i c left hskip
    have hleft : left.length < t.length := length_lt_of_skipSpace hskip
    split at h
    · cases h
    · split at h
      · cases h
        exact hleft
      · split at h
        · split at h
          · cases h
          · rename_i d more hmore
            split at h
            · cases h
            · cases h
              exact Nat.le_trans (length_lt_of_skipSpace hmore) (Nat.le_of_lt hleft)
        · cases h

theorem nextElement_end_length {first : Bool} {t rest : Text}
    (h : nextElement first t = .ok (none, rest)) : rest.length < t.length := by
  unfold nextElement at h
  split at h
  · cases h
  · rename_i hskip
    split at h
    · cases h
      exact length_lt_of_skipSpace hskip
    · split at h
      · cases h
      · split at h
        · split at h
          · cases h
          · split at h <;> cases h
        · cases h

/-- Reads the strings of a list up to its end. -/
def readTexts (first : Bool) (t : Text) : Except Fault (List Text × Text) :=
  match _hn : nextElement first t with
  | .error fault => .error fault
  | .ok (none, rest) => .ok ([], rest)
  | .ok (some element, _) =>
    match _ht : readText element with
    | .error fault => .error fault
    | .ok (s, rest) => (readTexts false rest).map fun (ss, final) => (s :: ss, final)
termination_by t.length
decreasing_by
  exact Nat.lt_of_lt_of_le (readText_length _ht) (nextElement_length _hn)

/-- Unfolds without the termination proof. -/
theorem readTexts_eq (first : Bool) (t : Text) : readTexts first t =
    match nextElement first t with
    | .error fault => .error fault
    | .ok (none, rest) => .ok ([], rest)
    | .ok (some element, _) =>
      match readText element with
      | .error fault => .error fault
      | .ok (s, rest) => (readTexts false rest).map fun (ss, final) => (s :: ss, final) := by
  rw [readTexts]
  split
  · rename_i h
    rw [h]
  · rename_i h
    rw [h]
  · rename_i h
    rw [h]
    dsimp only
    split
    · rename_i htext
      rw [htext]
    · rename_i htext
      rw [htext]

theorem readTexts_length {first : Bool} {t rest : Text} {texts : List Text}
    (h : readTexts first t = .ok (texts, rest)) : rest.length ≤ t.length := by
  fun_induction readTexts first t generalizing texts with
  | case1 | case3 => cases h
  | case2 first t left hend =>
    cases h
    exact Nat.le_of_lt (nextElement_end_length hend)
  | case4 first t element _ hnext s left htext ih =>
    obtain ⟨⟨more, final⟩, hmore, heq⟩ := map_eq_ok_iff.mp h
    obtain ⟨-, rfl⟩ := Prod.mk.inj heq
    calc final.length ≤ left.length := ih hmore
      _ ≤ element.length := Nat.le_of_lt (readText_length htext)
      _ ≤ t.length := nextElement_length hnext

def readTextList : Text → Except Fault (List Text × Text) :=
  readBehind '[' .sequence (readTexts true)

/-! ### Whole texts -/

/-- Reads a whole text; only white space may follow the value. -/
def parse (read : Text → Except Fault (α × Text)) (t : Text) : Except Complaint α :=
  match read t with
  | .error fault => .error (.of t fault)
  | .ok (value, rest) =>
    if skipSpace rest = [] then .ok value
    else .error (.of t (.within .trailingCharacters (skipSpace rest)))

end Inlay.Json
