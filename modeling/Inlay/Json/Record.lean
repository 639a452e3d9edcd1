import Inlay.Json.Skip

/-!
Reading a record from a JSON object with its fields by name, or from a list
with its fields in order. A record type says for each field which kind of value
it has; fields it does not know are passed over.
-/

namespace Inlay.Json

/-! ### Record types -/

inductive Shape where
  | text
  | boolean
  | textList
  /-- A null stands for no value. -/
  | optional (shape : Shape)

abbrev Shape.Value : Shape → Type
  | .text => Text
  | .boolean => Bool
  | .textList => List Text
  | .optional shape => Option shape.Value

structure Field (σ : Type) where
  name : Text
  shape : Shape
  set : shape.Value → σ → σ

/-- A record type. The list form may be shorter than the fields when
`mayEndEarly` is set. -/
structure Record (σ : Type) where
  name : Text
  fields : List (Field σ)
  mayEndEarly : Bool

/-! ### Readers of values -/

/-- A reader that leaves no more than it was given. -/
structure Reader (α : Type) where
  read : Text → Except Fault (α × Text)
  length_le : ∀ {t a rest}, read t = .ok (a, rest) → rest.length ≤ t.length

namespace Reader

def text : Reader Text where
  read := readText
  length_le h := Nat.le_of_lt (readText_length h)

theorem map_ident_length {word t rest : Text} {a b : α}
    (h : (readIdent word t).map (a, ·) = .ok (b, rest)) : rest.length ≤ t.length := by
  obtain ⟨left, hident, heq⟩ := map_eq_ok_iff.mp h
  obtain ⟨-, rfl⟩ := Prod.mk.inj heq
  exact readIdent_length hident

def boolean : Reader Bool where
  read := readBoolean
  length_le {t b rest} h := by
    unfold readBoolean at h
    split at h
    · cases h
    · rename_i left hvalue
      have hleft : left.length < t.length := toValue_length hvalue
      exact Nat.le_trans (map_ident_length h) (Nat.le_of_lt hleft)
    · rename_i left hvalue
      have hleft : left.length < t.length := toValue_length hvalue
      exact Nat.le_trans (map_ident_length h) (Nat.le_of_lt hleft)
    · cases h

def textList : Reader (List Text) where
  read := readTextList
  length_le h := Nat.le_of_lt (readBehind_length readTexts_length h)

def optional (r : Reader α) : Reader (Option α) where
  read := readOptional r.read
  length_le {t a rest} h := by
    unfold readOptional at h
    split at h
    · rename_i left hskip
      exact Nat.le_trans (map_ident_length h) (Nat.le_of_lt (length_lt_of_skipSpace hskip))
    · obtain ⟨⟨value, left⟩, hread, heq⟩ := map_eq_ok_iff.mp h
      obtain ⟨-, rfl⟩ := Prod.mk.inj heq
      exact Nat.le_trans (r.length_le hread) (skipSpace_length t)

def map (f : α → β) (r : Reader α) : Reader β where
  read t := (r.read t).map fun (a, rest) => (f a, rest)
  length_le {t b rest} h := by
    obtain ⟨⟨a, left⟩, hread, heq⟩ := map_eq_ok_iff.mp h
    obtain ⟨-, rfl⟩ := Prod.mk.inj heq
    exact r.length_le hread

end Reader

def Shape.reader : (shape : Shape) → Reader shape.Value
  | .text => .text
  | .boolean => .boolean
  | .textList => .textList
  | .optional shape => shape.reader.optional

def Field.update (field : Field σ) : Reader (σ → σ) := field.shape.reader.map field.set

namespace Record

/-! ### The form with names -/

/-- Goes to the next key of an object after the bracket or a value: the key
with what is left behind it, or nothing at the end of the object. -/
def nextKey (first : Bool) (t : Text) : Except Fault (Option Text × Text) :=
  match skipSpace t with
  | [] => .error (.within .endOfObject [])
  | c :: rest =>
    if c = '}' then .ok (none, rest)
    else if first then
      if c = '"' then (readString rest).map fun (s, left) => (some s, left)
      else .error (.within .keyMustBeText (c :: rest))
    else if c = ',' then
      match skipSpace rest with
      | [] => .error (.within .endOfValue [])
      | d :: more =>
        if d = '"' then (readString more).map fun (s, left) => (some s, left)
        else if d = '}' then .error (.within .trailingComma (d :: more))
        else .error (.within .keyMustBeText (d :: more))
    else .error (.within .expectedObjectCommaOrEnd (c :: rest))

theorem map_string_length {t rest : Text} {key : Option Text}
    (h : (readString t).map (fun (s, left) => (some s, left)) = .ok (key, rest)) :
    rest.length < t.length := by
  obtain ⟨⟨name, left⟩, hread, heq⟩ := map_eq_ok_iff.mp h
  obtain ⟨-, rfl⟩ := Prod.mk.inj heq
  exact readString_length hread

theorem nextKey_length {first : Bool} {t rest : Text} {key : Option Text}
    (h : nextKey first t = .ok (key, rest)) : rest.length < t.length := by
  unfold nextKey at h
  split at h
  · cases h
  · rename_i c left hskip
    have hleft : left.length < t.length := length_lt_of_skipSpace hskip
    split at h
    · cases h
      exact hleft
    · split at h
      · split at h
        · exact Nat.lt_trans (map_string_length h) hleft
        · cases h
      · split at h
        · split at h
          · cases h
          · rename_i d more hmore
            have hmore : more.length < left.length := length_lt_of_skipSpace hmore
            split at h
            · exact Nat.lt_trans (map_string_length h) (Nat.lt_trans hmore hleft)
            · split at h <;> cases h
        · cases h

/-- What is left once a refused object was closed as far as it goes. -/
def closeObject (t : Text) : Text :=
  match skipSpace t with
  | [] => []
  | c :: rest => if c = '}' then rest else c :: rest

/-- Reads the members of an object up to its end. `seen` lists the known
fields met so far, none of which may come again. -/
def readMembers (r : Record σ) (first : Bool) (seen : List Text) (value : σ) (t : Text) :
    Except Fault (σ × Text) :=
  match _hk : nextKey first t with
  | .error fault => .error fault
  | .ok (none, rest) => .ok (value, rest)
  | .ok (some key, behind) =>
    match r.fields.find? (·.name = key) with
    | none =>
      match _hc : skipColon behind with
      | .error fault => .error fault
      | .ok start =>
        match _hv : skipValue [] start with
        | .error fault => .error fault
        | .ok rest => readMembers r false seen value rest
    | some field =>
      if key ∈ seen then .error (.before (.repeatedField key) (closeObject behind))
      else match _hc : skipColon behind with
        | .error fault => .error fault
        | .ok start =>
          match _hv : field.update.read start with
          | .error fault => .error fault
          | .ok (change, rest) => readMembers r false (key :: seen) (change value) rest
termination_by t.length
decreasing_by
  all_goals
    have hstart : start.length < t.length :=
      Nat.lt_trans (skipColon_length _hc) (nextKey_length _hk)
  · exact Nat.lt_of_le_of_lt ((skip_length start).1 _ _ _hv) hstart
  · exact Nat.lt_of_le_of_lt (field.update.length_le _hv) hstart

/-- Unfolds without the termination proof. -/
theorem readMembers_eq (r : Record σ) (first : Bool) (seen : List Text) (value : σ) (t : Text) :
    r.readMembers first seen value t =
      match nextKey first t with
      | .error fault => .error fault
      | .ok (none, rest) => .ok (value, rest)
      | .ok (some key, behind) =>
        match r.fields.find? (·.name = key) with
        | none =>
          match skipColon behind with
          | .error fault => .error fault
          | .ok start =>
            match skipValue [] start with
            | .error fault => .error fault
            | .ok rest => r.readMembers false seen value rest
        | some field =>
          if key ∈ seen then .error (.before (.repeatedField key) (closeObject behind))
          else match skipColon behind with
            | .error fault => .error fault
            | .ok start =>
              match field.update.read start with
              | .error fault => .error fault
              | .ok (change, rest) => r.readMembers false (key :: seen) (change value) rest := by
  rw [readMembers]
  split
  · rename_i hkey
    rw [hkey]
  · rename_i hkey
    rw [hkey]
  · rename_i hkey
    rw [hkey]
    dsimp only
    split
    · split <;> rename_i hcolon <;> rw [hcolon]
      dsimp only
      split <;> rename_i hvalue <;> rw [hvalue]
    · split
      · rfl
      · split <;> rename_i hcolon <;> rw [hcolon]
        dsimp only
        split <;> rename_i hvalue <;> rw [hvalue]

/-! ### The form without names -/

def closeList (t : Text) : Except Fault Text :=
  match skipSpace t with
  | [] => .error (.within .endOfList [])
  | c :: rest =>
    if c = ']' then .ok rest
    else if c = ',' then
      let behind := skipSpace rest
      .error (.within (if behind.head? = some ']' then .trailingComma else .trailingCharacters)
        behind)
    else .error (.within .trailingCharacters (c :: rest))

/-- Reads the fields that are left in the list form; `count` have been read. -/
def readElements (r : Record σ) (count : Nat) (value : σ) :
    List (Field σ) → Text → Except Fault (σ × Text)
  | [], t => (closeList t).map (value, ·)
  | field :: fields, t => do
    match ← nextElement (count == 0) t with
    | (some element, _) =>
      let (change, rest) ← field.update.read element
      readElements r (count + 1) (change value) fields rest
    | (none, rest) =>
      if r.mayEndEarly then .ok (value, rest)
      else .error (.before (.tooFew count r.name r.fields.length) rest)

def read (r : Record σ) (blank : σ) (t : Text) : Except Fault (σ × Text) := do
  match ← toValue t with
  | '[' :: rest => readElements r 0 blank r.fields rest
  | '{' :: rest => readMembers r true [] blank rest
  | other => .error (unexpected (.record r.name) other)

end Record

end Inlay.Json
