import Inlay.Json.Reader

/-!
Passing over a JSON value of any kind, as a reader does with the fields it
does not know. Open brackets are kept in a list, so nesting has no limit.
-/

namespace Inlay.Json

inductive Frame where
  | list
  | object
  deriving DecidableEq, Repr

def Frame.closing : Frame → Char
  | .list => ']'
  | .object => '}'

def Frame.ended : Frame → Cause
  | .list => .endOfList
  | .object => .endOfObject

def Frame.expectedMore : Frame → Cause
  | .list => .expectedListCommaOrEnd
  | .object => .expectedObjectCommaOrEnd

/-- Passes over what follows a backslash. Surrogates need no partner here. -/
def skipEscape : Text → Except Fault Text
  | [] => .error (.before .endOfText [])
  | c :: t =>
    if c = 'u' then (readHex t).map Prod.snd
    else if (simpleEscape? c).isSome then .ok t
    else .error (.within .invalidEscape (c :: t))

theorem skipEscape_length {t rest : Text} (h : skipEscape t = .ok rest) :
    rest.length < t.length := by
  unfold skipEscape at h
  split at h
  · cases h
  · split at h
    · obtain ⟨⟨n, left⟩, hhex, rfl⟩ := map_eq_ok_iff.mp h
      exact Nat.lt_succ_of_lt (readHex_length hhex)
    · split at h <;> cases h
      exact Nat.lt_succ_self _

def skipString (t : Text) : Except Fault Text :=
  match t with
  | [] => .error (.before .endOfText [])
  | c :: t =>
    if c = '"' then .ok t
    else if c = '\\' then
      match _h : skipEscape t with
      | .error fault => .error fault
      | .ok rest => skipString rest
    else if c.toNat < 0x20 then .error (.before .controlCharacter (c :: t))
    else skipString t
termination_by t.length
decreasing_by
  · exact Nat.lt_succ_of_lt (skipEscape_length _h)
  · exact Nat.lt_succ_self _

theorem skipString_length {t rest : Text} (h : skipString t = .ok rest) :
    rest.length < t.length := by
  fun_induction skipString t with
  | case1 | case3 | case5 => cases h
  | case2 =>
    cases h
    exact Nat.lt_succ_self _
  | case4 t left hescape _ ih =>
    exact Nat.lt_succ_of_lt (Nat.lt_trans (ih h) (skipEscape_length hescape))
  | case6 c t _ _ _ ih => exact Nat.lt_succ_of_lt (ih h)

theorem dropWhile_length (p : Char → Bool) (t : Text) : (t.dropWhile p).length ≤ t.length :=
  (List.dropWhile_sublist _).length_le

theorem afterSign_length (t : Text) : (afterSign t).length ≤ t.length := by
  unfold afterSign
  split <;> simp

theorem skipExponent_length {t rest : Text} (h : skipExponent t = .ok rest) :
    rest.length ≤ t.length := by
  unfold skipExponent at h
  split at h
  · cases h
    exact Nat.le_trans (dropWhile_length _ _) (afterSign_length t)
  · cases h

theorem skipTail_length {t rest : Text} (h : skipTail t = .ok rest) :
    rest.length ≤ t.length := by
  unfold skipTail at h
  split at h
  · exact Nat.le_trans (skipExponent_length h) (List.drop_sublist 1 t).length_le
  · cases h
    exact Nat.le_refl _

theorem skipAfterWhole_length {t rest : Text} (h : skipAfterWhole t = .ok rest) :
    rest.length ≤ t.length := by
  unfold skipAfterWhole at h
  split at h
  · unfold skipFraction at h
    split at h
    · calc rest.length ≤ ((t.drop 1).dropWhile Char.isDigit).length := skipTail_length h
        _ ≤ (t.drop 1).length := dropWhile_length _ _
        _ ≤ t.length := (List.drop_sublist 1 t).length_le
    · cases h
  · exact skipTail_length h

theorem skipNumber_length {t rest : Text} (h : skipNumber t = .ok rest) :
    rest.length < t.length := by
  unfold skipNumber at h
  split at h
  · cases h
  · split at h
    · cases h
    · exact Nat.lt_succ_of_le (skipAfterWhole_length h)
  · split at h
    · exact Nat.lt_succ_of_le (Nat.le_trans (skipAfterWhole_length h) (dropWhile_length _ _))
    · cases h

theorem readIdent_length {word t rest : Text} (h : readIdent word t = .ok rest) :
    rest.length ≤ t.length := by
  induction word generalizing t with
  | nil =>
    cases h
    exact Nat.le_refl _
  | cons expected more ih =>
    cases t with
    | nil => cases h
    | cons c t =>
      unfold readIdent at h
      split at h
      · exact Nat.le_succ_of_le (ih h)
      · cases h

def skipScalar : Text → Except Fault Text
  | [] => .error (.within .expectedValue [])
  | c :: t =>
    if c = 'n' then readIdent "ull".toList t
    else if c = 't' then readIdent "rue".toList t
    else if c = 'f' then readIdent "alse".toList t
    else if c = '-' then skipNumber t
    else if c.isDigit then skipNumber (c :: t)
    else if c = '"' then skipString t
    else .error (.within .expectedValue (c :: t))

theorem skipScalar_length {t rest : Text} (h : skipScalar t = .ok rest) :
    rest.length < t.length := by
  unfold skipScalar at h
  split at h
  · cases h
  · rw [List.length_cons]
    split at h
    · exact Nat.lt_succ_of_le (readIdent_length h)
    split at h
    · exact Nat.lt_succ_of_le (readIdent_length h)
    split at h
    · exact Nat.lt_succ_of_le (readIdent_length h)
    split at h
    · exact Nat.lt_succ_of_lt (skipNumber_length h)
    split at h
    · exact skipNumber_length h
    split at h
    · exact Nat.lt_succ_of_lt (skipString_length h)
    · cases h

def skipColon (t : Text) : Except Fault Text :=
  match skipSpace t with
  | [] => .error (.within .endOfObject [])
  | c :: rest => if c = ':' then .ok rest else .error (.within .expectedColon (c :: rest))

theorem skipColon_length {t rest : Text} (h : skipColon t = .ok rest) :
    rest.length < t.length := by
  unfold skipColon at h
  split at h
  · cases h
  · rename_i hskip
    split at h <;> cases h
    exact length_lt_of_skipSpace hskip

def skipKey (t : Text) : Except Fault Text :=
  match skipSpace t with
  | [] => .error (.within .endOfObject [])
  | c :: rest =>
    if c = '"' then
      match skipString rest with
      | .error fault => .error fault
      | .ok after => skipColon after
    else .error (.within .keyMustBeText (c :: rest))

def Frame.enter : Frame → Text → Except Fault Text
  | .list, t => .ok t
  | .object, t => skipKey t

theorem skipKey_length {t rest : Text} (h : skipKey t = .ok rest) :
    rest.length ≤ t.length := by
  unfold skipKey at h
  split at h
  · cases h
  · rename_i c left hskip
    split at h
    · split at h
      · cases h
      · rename_i behind hkey
        calc rest.length ≤ behind.length := Nat.le_of_lt (skipColon_length h)
          _ ≤ left.length := Nat.le_of_lt (skipString_length hkey)
          _ ≤ t.length := Nat.le_of_lt (length_lt_of_skipSpace hskip)
    · cases h

theorem Frame.enter_length {f : Frame} {t rest : Text} (h : f.enter t = .ok rest) :
    rest.length ≤ t.length := by
  cases f with
  | list =>
    cases h
    exact Nat.le_refl _
  | object => exact skipKey_length h

mutual

def skipValue (frames : List Frame) (t : Text) : Except Fault Text :=
  match _hs : skipSpace t with
  | [] => .error (.within .endOfValue [])
  | c :: rest =>
    match (if c = '[' then some Frame.list else if c = '{' then some Frame.object else none) with
    | some frame =>
      match _hr : skipSpace rest with
      | [] => .error (.within frame.ended [])
      | d :: more =>
        if d = frame.closing then skipAfter frames more
        else match _he : frame.enter (d :: more) with
          | .error fault => .error fault
          | .ok value => skipValue (frame :: frames) value
    | none =>
      match _hc : skipScalar (c :: rest) with
      | .error fault => .error fault
      | .ok after => skipAfter frames after
termination_by t.length
decreasing_by
  all_goals have hrest : rest.length < t.length := length_lt_of_skipSpace _hs
  · exact Nat.lt_trans (length_lt_of_skipSpace _hr) hrest
  · have hmore : more.length < rest.length := length_lt_of_skipSpace _hr
    exact Nat.lt_of_le_of_lt (Nat.le_trans (Frame.enter_length _he) hmore) hrest
  · exact Nat.lt_of_lt_of_le (skipScalar_length _hc) hrest

/-- Passes over what follows a value, up to the end of all that is open. -/
def skipAfter (frames : List Frame) (t : Text) : Except Fault Text :=
  match frames with
  | [] => .ok t
  | frame :: outer =>
    match _hs : skipSpace t with
    | [] => .error (.within frame.ended [])
    | c :: rest =>
      if c = ',' then
        match _he : frame.enter rest with
        | .error fault => .error fault
        | .ok value => skipValue (frame :: outer) value
      else if c = frame.closing then skipAfter outer rest
      else .error (.within frame.expectedMore (c :: rest))
termination_by t.length
decreasing_by
  all_goals have hrest : rest.length < t.length := length_lt_of_skipSpace _hs
  · exact Nat.lt_of_le_of_lt (Frame.enter_length _he) hrest
  · exact hrest

end

/-- Unfolds without the termination proof. -/
theorem skipValue_eq (frames : List Frame) (t : Text) : skipValue frames t =
    match skipSpace t with
    | [] => .error (.within .endOfValue [])
    | c :: rest =>
      match (if c = '[' then some Frame.list else if c = '{' then some Frame.object else none) with
      | some frame =>
        match skipSpace rest with
        | [] => .error (.within frame.ended [])
        | d :: more =>
          if d = frame.closing then skipAfter frames more
          else match frame.enter (d :: more) with
            | .error fault => .error fault
            | .ok value => skipValue (frame :: frames) value
      | none =>
        match skipScalar (c :: rest) with
        | .error fault => .error fault
        | .ok after => skipAfter frames after := by
  rw [skipValue]
  split
  · rename_i h
    rw [h]
  · rename_i h
    rw [h]
    dsimp only
    split
    · split
      · rename_i hmore
        rw [hmore]
      · rename_i hmore
        rw [hmore]
        dsimp only
        split
        · rfl
        · split <;> rename_i hstart <;> rw [hstart]
    · split <;> rename_i hscalar <;> rw [hscalar]

theorem skipAfter_eq (frame : Frame) (outer : List Frame) (t : Text) :
    skipAfter (frame :: outer) t =
      match skipSpace t with
      | [] => .error (.within frame.ended [])
      | c :: rest =>
        if c = ',' then
          match frame.enter rest with
          | .error fault => .error fault
          | .ok value => skipValue (frame :: outer) value
        else if c = frame.closing then skipAfter outer rest
        else .error (.within frame.expectedMore (c :: rest)) := by
  rw [skipAfter]
  split
  · rename_i h
    rw [h]
  · rename_i h
    rw [h]
    dsimp only
    split
    · split <;> rename_i hstart <;> rw [hstart]
    · rfl

/-- Neither gives more than it gets. -/
theorem skip_length (t : Text) :
    (∀ frames rest, skipValue frames t = .ok rest → rest.length ≤ t.length) ∧
      (∀ frames rest, skipAfter frames t = .ok rest → rest.length ≤ t.length) := by
  induction hlength : t.length using Nat.strongRecOn generalizing t with
  | ind n ih =>
    subst hlength
    have hvalue {left : Text} (hleft : left.length < t.length) {frames : List Frame}
        {rest : Text} (h : skipValue frames left = .ok rest) : rest.length ≤ t.length :=
      Nat.le_trans ((ih left.length hleft left rfl).1 frames rest h) (Nat.le_of_lt hleft)
    have hafter {left : Text} (hleft : left.length < t.length) {frames : List Frame}
        {rest : Text} (h : skipAfter frames left = .ok rest) : rest.length ≤ t.length :=
      Nat.le_trans ((ih left.length hleft left rfl).2 frames rest h) (Nat.le_of_lt hleft)
    constructor
    · intro frames rest h
      unfold skipValue at h
      split at h
      · cases h
      · rename_i c left hskip
        have hleft : left.length < t.length := length_lt_of_skipSpace hskip
        split at h
        · split at h
          · cases h
          · rename_i d more hmore
            have hmore : more.length < left.length := length_lt_of_skipSpace hmore
            split at h
            · exact hafter (Nat.lt_trans hmore hleft) h
            · split at h
              · cases h
              · rename_i value henter
                have henter : value.length ≤ left.length :=
                  Nat.le_trans (Frame.enter_length henter) hmore
                exact hvalue (Nat.lt_of_le_of_lt henter hleft) h
        · split at h
          · cases h
          · rename_i behind hscalar
            exact hafter (Nat.lt_of_lt_of_le (skipScalar_length hscalar) hleft) h
    · intro frames rest h
      unfold skipAfter at h
      split at h
      · cases h
        exact Nat.le_refl _
      · split at h
        · cases h
        · rename_i c left hskip
          have hleft : left.length < t.length := length_lt_of_skipSpace hskip
          split at h
          · split at h
            · cases h
            · rename_i value henter
              exact hvalue (Nat.lt_of_le_of_lt (Frame.enter_length henter) hleft) h
          · split at h
            · exact hafter hleft h
            · cases h

end Inlay.Json
