import Inlay.Proofs.Json.Members
import Inlay.Proofs.Json.Values

/-!
The library's own reader of objects. It goes through the text of an object, but
what it reads are the members, each of them as it is read alone.
-/

namespace Inlay.Json

open Text

variable {σ : Type}

theorem readsAlone_shape : (shape : Shape) → ReadsAlone shape.reader.read
  | .text => readsAlone_readText
  | .boolean => readsAlone_readBoolean
  | .textList => readsAlone_readTextList
  | .optional shape => (readsAlone_shape shape).optional

/-- How the library itself reads values. -/
def ownValues : Values := fun shape v => valueOf? shape.reader.read v

theorem lawful_ownValues : ownValues.Lawful where
  required shape h := by
    cases shape with
    | text | boolean | textList => rfl
    | optional => contradiction
  missing shape := valueOf?_optional_null shape.reader
  given shape _ hv hnull := valueOf?_optional (readsAlone_shape shape) hv hnull

/-! ### Keys -/

namespace Record

theorem nextKey_spaces (first : Bool) {ws : Text} (h : Spaces ws) (t : Text) :
    nextKey first (ws ++ t) = nextKey first t := by
  simp only [nextKey, skipSpace_append h]

theorem nextKey_closing (first : Bool) (rest : Text) :
    nextKey first ('}' :: rest) = .ok (none, rest) := by
  have hskip : skipSpace ('}' :: rest) = '}' :: rest := skipSpace_cons (by decide) rest
  simp [nextKey, hskip]

/-- In front of the first member nothing stands where in front of the others
there is a comma. -/
theorem nextKey_first {m : Member} (hspaced : m.Spaced) (rest : Text) :
    nextKey true (m.text ++ rest) = nextKey false (',' :: (m.text ++ rest)) := by
  have hcomma : skipSpace (',' :: (m.text ++ rest)) = ',' :: (m.text ++ rest) :=
    skipSpace_cons (by decide) _
  simp [nextKey, hcomma, skipSpace_member hspaced]

theorem toOption_nextKey {m : Member} (hspaced : m.Spaced) (hkey : IsBody m.key) (rest : Text) :
    (nextKey false (',' :: (m.text ++ rest))).toOption =
      m.name?.map fun name => (some name, m.behind ++ ':' :: (m.toItem.text ++ rest)) := by
  have hread := readString_body hkey (m.behind ++ ':' :: (m.toItem.text ++ rest))
  have hnext : nextKey true (m.text ++ rest) =
      (readString (m.key ++ '"' :: (m.behind ++ ':' :: (m.toItem.text ++ rest)))).map
        fun p => (some p.1, p.2) := by
    simp only [nextKey, skipSpace_member hspaced]
    rfl
  rw [← nextKey_first hspaced, hnext, toOption_map, hread, Option.map_map]
  rfl

/-! ### Reading members -/

theorem readMembers_spaces (r : Record σ) (first : Bool) (seen : List Text) (record : σ)
    {ws : Text} (h : Spaces ws) (t : Text) :
    r.readMembers first seen record (ws ++ t) = r.readMembers first seen record t := by
  rw [readMembers_eq, readMembers_eq, nextKey_spaces first h]

theorem readMembers_closing (r : Record σ) (first : Bool) (seen : List Text) (record : σ)
    (rest : Text) : r.readMembers first seen record ('}' :: rest) = .ok (record, rest) := by
  rw [readMembers_eq, nextKey_closing]

theorem readMembers_first (r : Record σ) (seen : List Text) (record : σ) {m : Member}
    (hspaced : m.Spaced) (rest : Text) :
    r.readMembers true seen record (m.text ++ rest) =
      r.readMembers false seen record (',' :: (m.text ++ rest)) := by
  rw [readMembers_eq, nextKey_first hspaced, ← readMembers_eq]

section Members

variable {r : Record σ} {m : Member} {rest : Text} (hspaced : m.Spaced) (hkey : IsBody m.key)
  (hvalue : IsValue m.value) (hrest : Delimited rest) (seen : List Text) (record : σ)

include hspaced hkey

theorem nextKey_of_name? {name : Text} (hname : m.name? = some name) (rest : Text) :
    nextKey false (',' :: (m.text ++ rest)) =
      .ok (some name, m.behind ++ ':' :: (m.toItem.text ++ rest)) := by
  rw [← toOption_eq_some_iff, toOption_nextKey hspaced hkey, hname]
  rfl

theorem readMembers_of_none (hname : m.name? = none) (rest : Text) :
    (r.readMembers false seen record (',' :: (m.text ++ rest))).toOption = none := by
  have hnext := toOption_nextKey hspaced hkey rest
  rw [hname, Option.map_none] at hnext
  obtain ⟨fault, hfault⟩ := toOption_eq_none_iff.mp hnext
  rw [readMembers_eq, hfault]
  rfl

include hvalue hrest

/-- A member that is not known is passed over. -/
theorem readMembers_of_unknown {name : Text} (hname : m.name? = some name)
    (hfind : r.fields.find? (·.name = name) = none) :
    r.readMembers false seen record (',' :: (m.text ++ rest)) =
      r.readMembers false seen record rest := by
  obtain ⟨hfront, hback⟩ := hspaced.2.2
  have hskip : skipValue [] (m.toItem.text ++ rest) = .ok (m.back ++ rest) := by
    simp only [Item.text, List.append_assoc]
    rw [skipValue_spaces _ hfront, hvalue.isPassed _ _ (hback.delimited_append hrest), skipAfter]
  rw [readMembers_eq, nextKey_of_name? hspaced hkey hname]
  simp only [hfind, skipColon_append hspaced.2.1, hskip]
  exact readMembers_spaces r false seen record hback rest

/-- A known member is read as its value is read alone, unless it was seen. -/
theorem readMembers_of_known {name : Text} {field : Field σ} (hname : m.name? = some name)
    (hfind : r.fields.find? (·.name = name) = some field) :
    (r.readMembers false seen record (',' :: (m.text ++ rest))).toOption =
      if name ∈ seen then none
      else (ownValues field.shape m.value).bind fun value =>
        (r.readMembers false (name :: seen) (field.set value record) rest).toOption := by
  have hread := ((readsAlone_shape field.shape).map field.set).item hspaced.2.2 hvalue hrest
  rw [valueOf?_map] at hread
  rw [readMembers_eq, nextKey_of_name? hspaced hkey hname]
  simp only [hfind, skipColon_append hspaced.2.1]
  split
  · rfl
  · rw [ownValues]
    cases hchange : valueOf? field.shape.reader.read m.value with
    | none =>
        rw [hchange, Option.map_none, Option.map_none] at hread
        obtain ⟨fault, hfault⟩ := toOption_eq_none_iff.mp hread
        rw [Field.update, hfault]
        rfl
    | some value =>
        rw [hchange] at hread
        rw [Field.update, toOption_eq_some_iff.mp hread]
        dsimp only
        rw [readMembers_spaces _ _ _ _ hspaced.2.2.2]
        rfl

end Members

/-- Reading goes through the members up to the closing bracket. -/
theorem readMembers_members {r : Record σ} {members : List Member}
    (hspaced : ∀ m ∈ members, m.Spaced) (hkeys : ∀ m ∈ members, IsBody m.key)
    (hvalues : ∀ m ∈ members, IsValue m.value) (seen : List Text) (record : σ) (rest : Text) :
    (r.readMembers false seen record
        ((members.map Member.text).flatMap (',' :: ·) ++ '}' :: rest)).toOption =
      (r.visit ownValues seen record members).map (·, rest) := by
  induction members generalizing seen record with
  | nil =>
      rw [List.map_nil, List.flatMap_nil, List.nil_append, readMembers_closing]
      rfl
  | cons m members ih =>
      rw [List.forall_mem_cons] at hspaced hkeys hvalues
      have ih := ih hspaced.2 hkeys.2 hvalues.2
      have hrest := delimited_flatMap (.inr rfl) (members.map Member.text) rest
      rw [List.map_cons, List.flatMap_cons, List.append_assoc, List.cons_append, visit]
      cases hname : m.name? with
      | none => exact readMembers_of_none hspaced.1 hkeys.1 seen record hname _
      | some name =>
          simp only [Option.bind_some]
          cases hfind : r.fields.find? (·.name = name) with
          | none =>
              rw [readMembers_of_unknown hspaced.1 hkeys.1 hvalues.1 hrest seen record hname hfind]
              exact ih seen record
          | some field =>
              rw [readMembers_of_known hspaced.1 hkeys.1 hvalues.1 hrest seen record hname hfind]
              simp only [ih, List.contains_eq_mem, decide_eq_true_eq]
              by_cases hseen : name ∈ seen
              · rw [if_pos hseen, if_pos hseen]
                rfl
              · rw [if_neg hseen, if_neg hseen, Option.map_bind]
                rfl

/-! ### Whole objects -/

theorem toOption_read_object (r : Record σ) (o : Object) (blank : σ) :
    (r.read blank o.text).toOption =
      (r.visit ownValues [] blank o.members).map (·, o.trail) := by
  obtain ⟨hlead, hgap, -⟩ := o.spaced
  have hmembers : r.read blank o.text =
      r.readMembers true [] blank (join [','] (o.members.map Member.text) ++ '}' :: o.trail) := by
    simp only [Object.text, List.append_assoc, List.cons_append]
    simp only [read, toValue_append hlead (c := '{') (by decide)]
    exact readMembers_spaces r true [] blank hgap _
  rw [hmembers, ← readMembers_members o.membersSpaced o.keys o.values [] blank o.trail]
  cases hlist : o.members with
  | nil =>
      have hempty : join [','] (List.map Member.text []) ++ '}' :: o.trail = '}' :: o.trail := rfl
      rw [hempty, readMembers_closing]
      exact congrArg _ (readMembers_closing r false [] blank o.trail).symm
  | cons m members =>
      have hm : m.Spaced := o.membersSpaced m (by rw [hlist]; exact List.mem_cons_self)
      rw [List.map_cons, join_cons, List.append_assoc, readMembers_first r [] blank hm,
        List.flatMap_cons, List.append_assoc, List.cons_append]

/-- The library's own reader reads every type of records from objects. -/
theorem readBy_ownValues (r : Record σ) (blank : σ) :
    r.ReadBy ownValues blank (parse (r.read blank)) := by
  intro o
  rw [toOption_parse, toOption_read_object]
  cases r.visit ownValues [] blank o.members with
  | none => rfl
  | some record => simp [o.spaced.2.2.skipSpace_eq_nil]

end Record

end Inlay.Json
