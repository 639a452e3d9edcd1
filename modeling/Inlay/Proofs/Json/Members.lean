import Inlay.Json.Record
import Inlay.Proofs.Json.Grammar

/-!
Records that are read from objects. A library for JSON goes through the members
of an object in their order: each known one changes the record, one that is not
known does nothing, and none of the known ones may come again. How it does that
is no part of this development; what is known of it is stated here.
-/

namespace Inlay.Json

open Text

variable {σ : Type}

/-! ### A library for JSON -/

/-- What a value is read as, if it is a value of the kind. -/
abbrev Values := (shape : Shape) → Text → Option shape.Value

def Shape.isOptional : Shape → Bool
  | .optional _ => true
  | _ => false

/-- A null stands for no value where there may be none, and nowhere else. -/
structure Values.Lawful (values : Values) : Prop where
  required : ∀ shape, shape.isOptional = false → values shape null = none
  missing : ∀ shape, values (.optional shape) null = some none
  given : ∀ shape v, IsValue v → v ≠ null →
    values (.optional shape) v = (values shape v).map some

/-- The name that the key of a member spells, if it spells any: see
`spelled?_eq_some_iff`. -/
def Member.name? (m : Member) : Option Text := spelled? m.key

namespace Record

/-- Goes through members from a record. `seen` are the known names that were
met. -/
def visit (values : Values) (r : Record σ) : List Text → σ → List Member → Option σ
  | _, record, [] => some record
  | seen, record, m :: members =>
    m.name?.bind fun name =>
      match r.fields.find? (·.name = name) with
      | none => r.visit values seen record members
      | some field =>
        if seen.contains name then none
        else (values field.shape m.value).bind fun value =>
          r.visit values (name :: seen) (field.set value record) members

/-- The parser reads a record from the members of an object. Fields that are not
given stay as they are in the blank record. -/
def ReadBy (values : Values) (r : Record σ) (blank : σ) (parse : Text → Except Complaint σ) :
    Prop :=
  ∀ o : Object, (parse o.text).toOption = r.visit values [] blank o.members

def names (r : Record σ) : List Text := r.fields.map Field.name

theorem find?_eq_none_iff {r : Record σ} {name : Text} :
    r.fields.find? (·.name = name) = none ↔ name ∉ r.names := by
  rw [List.find?_eq_none]
  simp [names]

theorem name_eq_of_find? {r : Record σ} {name : Text} {field : Field σ}
    (h : r.fields.find? (·.name = name) = some field) : field ∈ r.fields ∧ field.name = name :=
  ⟨List.mem_of_find?_eq_some h, by simpa using List.find?_some h⟩

theorem mem_names_of_find? {r : Record σ} {name : Text} {field : Field σ}
    (h : r.fields.find? (·.name = name) = some field) : name ∈ r.names := by
  obtain ⟨hmem, rfl⟩ := name_eq_of_find? h
  exact List.mem_map_of_mem hmem

/-! ### Members one by one -/

def change? (values : Values) (r : Record σ) (m : Member) : Option (σ → σ) :=
  m.name?.bind fun name =>
    match r.fields.find? (·.name = name) with
    | none => some id
    | some field => (values field.shape m.value).map field.set

def assign (values : Values) (r : Record σ) : σ → List Member → Option σ
  | record, [] => some record
  | record, m :: members =>
    (r.change? values m).bind fun change => r.assign values (change record) members

section Change

variable {values : Values} {r : Record σ} {m : Member} {name : Text}

theorem change?_of_none (h : m.name? = none) : r.change? values m = none := by
  rw [change?, h, Option.bind_none]

theorem change?_of_unknown (h : m.name? = some name)
    (hfind : r.fields.find? (·.name = name) = none) : r.change? values m = some id := by
  simp only [change?, h, Option.bind_some, hfind]

theorem change?_of_known (h : m.name? = some name) {field : Field σ}
    (hfind : r.fields.find? (·.name = name) = some field) :
    r.change? values m = (values field.shape m.value).map field.set := by
  simp only [change?, h, Option.bind_some, hfind]

end Change

end Record

/-- Those of the names that members give, in the order of the members. -/
def given (names : List Text) (members : List Member) : List Text :=
  (members.filterMap Member.name?).filter names.contains

/-! ### Names that are given -/

section Given

variable {names : List Text} {m : Member} {members : List Member}

theorem given_cons_of_unknown {name : Text} (h : m.name? = some name) (hname : name ∉ names) :
    given names (m :: members) = given names members := by
  rw [given, given, List.filterMap_cons_some h, List.filter_cons_of_neg (by simpa using hname)]

theorem given_cons_of_known {name : Text} (h : m.name? = some name) (hname : name ∈ names) :
    given names (m :: members) = name :: given names members := by
  rw [given, given, List.filterMap_cons_some h, List.filter_cons_of_pos (by simpa using hname)]

end Given

theorem given_filter_sublist (names : List Text) (chosen : Member → Bool)
    (members : List Member) :
    (given names (members.filter chosen)).Sublist (given names members) :=
  (List.filter_sublist.filterMap Member.name?).filter _

def Member.isUnknown (names : List Text) (m : Member) : Bool :=
  m.name?.any fun name => !names.contains name

theorem isUnknown_iff {names : List Text} {m : Member} :
    m.isUnknown names = true ↔ ∃ name, m.name? = some name ∧ name ∉ names := by
  simp [Member.isUnknown, Option.any_eq_true]

def Object.onlyKnown (names : List Text) (o : Object) : Object :=
  o.keep fun m => !m.isUnknown names

def Fresh (names seen : List Text) (members : List Member) : Prop :=
  (given names members).Nodup ∧ ∀ name ∈ given names members, name ∉ seen

instance (names seen : List Text) (members : List Member) :
    Decidable (Fresh names seen members) :=
  inferInstanceAs (Decidable (_ ∧ _))

theorem fresh_cons_of_known {names seen : List Text} {m : Member} {members : List Member}
    {name : Text} (h : m.name? = some name) (hname : name ∈ names) :
    Fresh names seen (m :: members) ↔ name ∉ seen ∧ Fresh names (name :: seen) members := by
  simp only [Fresh, given_cons_of_known h hname, List.nodup_cons, List.mem_cons,
    forall_eq_or_imp, not_or]
  constructor
  · rintro ⟨⟨hother, hnodup⟩, hseen, hfresh⟩
    exact ⟨hseen, hnodup, fun n hn => ⟨fun heq => hother (heq ▸ hn), hfresh n hn⟩⟩
  · rintro ⟨hseen, hnodup, hfresh⟩
    exact ⟨⟨fun hmem => (hfresh name hmem).1 rfl, hnodup⟩, hseen, fun n hn => (hfresh n hn).2⟩

theorem fresh_cons_of_unknown {names seen : List Text} {m : Member} {members : List Member}
    {name : Text} (h : m.name? = some name) (hname : name ∉ names) :
    Fresh names seen (m :: members) ↔ Fresh names seen members := by
  simp only [Fresh, given_cons_of_unknown h hname]

theorem fresh_nil_iff {names : List Text} {members : List Member} :
    Fresh names [] members ↔ (given names members).Nodup := by
  simp [Fresh]

namespace Record

/-- No known member comes again, and each one changes the record. -/
theorem visit_eq (values : Values) (r : Record σ) (seen : List Text) (record : σ)
    (members : List Member) : r.visit values seen record members =
      if Fresh r.names seen members then r.assign values record members else none := by
  -- a known member moves its name from those that are given to those that were seen
  induction members generalizing seen record with
  | nil => simp [visit, assign, Fresh, given]
  | cons m members ih =>
      rw [visit, assign]
      cases hname : m.name? with
      | none =>
          rw [change?_of_none hname]
          split <;> rfl
      | some name =>
          simp only [Option.bind_some]
          cases hfind : r.fields.find? (·.name = name) with
          | none =>
              have hunknown := find?_eq_none_iff.mp hfind
              simp only [change?_of_unknown hname hfind, Option.bind_some, id_eq, ih,
                fresh_cons_of_unknown hname hunknown]
          | some field =>
              simp only [change?_of_known hname hfind, ih,
                fresh_cons_of_known hname (mem_names_of_find? hfind)]
              by_cases hseen : name ∈ seen
              · simp [hseen]
              · simp only [List.contains_eq_mem, hseen, decide_false, Bool.false_eq_true, if_false,
                  not_false_eq_true, true_and]
                cases values field.shape m.value with
                | none => split <;> rfl
                | some value => rfl

theorem visit_blank_eq (values : Values) (r : Record σ) (blank : σ) (members : List Member) :
    r.visit values [] blank members =
      if (given r.names members).Nodup then r.assign values blank members else none := by
  rw [visit_eq]
  simp only [fresh_nil_iff]

/-- Members that are not known may be left out. -/
theorem visit_filter_known (values : Values) (r : Record σ) (seen : List Text) (record : σ)
    (members : List Member) :
    r.visit values seen record (members.filter fun m => !m.isUnknown r.names) =
      r.visit values seen record members := by
  induction members generalizing seen record with
  | nil => rfl
  | cons m members ih =>
      cases h : m.isUnknown r.names with
      | false => simp only [List.filter_cons, h, Bool.not_false, if_true, visit, ih]
      | true =>
          obtain ⟨name, hname, hunknown⟩ := isUnknown_iff.mp h
          simp [h, visit, hname, find?_eq_none_iff.mpr hunknown, ih]

end Record

end Inlay.Json
