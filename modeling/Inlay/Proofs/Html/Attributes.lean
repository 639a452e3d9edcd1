import Inlay.Html.Minify
import Inlay.Proofs.Text.Blank

/-!
The attributes of a tag as HTML reads them, character by character. A name ends
at white space, a slash, the tag's end or an equals sign, white space may stand
around that sign, and a value is quoted or goes up to white space or the tag's
end.
-/

namespace Inlay.Html

open Text

structure Attribute where
  name : Text
  value : Option Text
  deriving DecidableEq, Repr

/-- Where a reader is in a tag, with what it has read of an attribute. -/
inductive Place where
  | element
  | between
  | inName (name : Text)
  | behindName (name : Text)
  | beforeValue (name : Text)
  | bare (name value : Text)
  | quoted (name : Text) (quote : Char) (value : Text)
  | done
  deriving DecidableEq, Repr

namespace Place

/-- Reads one character and gives the attribute that it completes, if any. An
equals sign with no name in front of it starts a name. -/
def read : Place → Char → List Attribute × Place
  | element, c =>
    if c = '>' then ([], done) else if c = '/' ∨ isBlank c then ([], between) else ([], element)
  | between, c =>
    if c = '>' then ([], done) else if c = '/' ∨ isBlank c then ([], between)
    else ([], inName [c])
  | inName name, c =>
    if c = '>' then ([⟨name, none⟩], done) else if c = '/' then ([⟨name, none⟩], between)
    else if isBlank c then ([], behindName name) else if c = '=' then ([], beforeValue name)
    else ([], inName (name ++ [c]))
  | behindName name, c =>
    if c = '>' then ([⟨name, none⟩], done) else if c = '/' then ([⟨name, none⟩], between)
    else if isBlank c then ([], behindName name) else if c = '=' then ([], beforeValue name)
    else ([⟨name, none⟩], inName [c])
  | beforeValue name, c =>
    if c = '>' then ([⟨name, some []⟩], done) else if isBlank c then ([], beforeValue name)
    else if c = '"' ∨ c = '\'' then ([], quoted name c []) else ([], bare name [c])
  | bare name value, c =>
    if c = '>' then ([⟨name, some value⟩], done)
    else if isBlank c then ([⟨name, some value⟩], between) else ([], bare name (value ++ [c]))
  | quoted name quote value, c =>
    if c = quote then ([⟨name, some value⟩], between)
    else ([], quoted name quote (value ++ [c]))
  | done, _ => ([], done)

def finish : Place → List Attribute
  | inName name => [⟨name, none⟩]
  | behindName name => [⟨name, none⟩]
  | beforeValue name => [⟨name, some []⟩]
  | bare name value => [⟨name, some value⟩]
  | quoted name _ value => [⟨name, some value⟩]
  | _ => []

def readAll : Place → Text → List Attribute × Place
  | p, [] => ([], p)
  | p, c :: t => ((p.read c).1 ++ ((p.read c).2.readAll t).1, ((p.read c).2.readAll t).2)

def isQuoted : Place → Bool
  | quoted _ _ _ => true
  | _ => false

def isBare : Place → Bool
  | bare _ _ => true
  | _ => false

end Place

def attributesFrom (p : Place) (t : Text) : List Attribute :=
  (p.readAll t).1 ++ (p.readAll t).2.finish

def attributes (tag : Text) : List Attribute :=
  attributesFrom .element (tag.drop (opening tag).length)

/-- The name of a tag's element, which ends at white space, a slash or the tag's
end. -/
def elementName (tag : Text) : Text :=
  (tag.drop (opening tag).length).takeWhile fun c => !isBlank c && c != '/' && c != '>'

/-! ### Reading on -/

theorem attributesFrom_cons (p : Place) (c : Char) (t : Text) :
    attributesFrom p (c :: t) = (p.read c).1 ++ attributesFrom (p.read c).2 t := by
  simp [attributesFrom, Place.readAll]

theorem attributesFrom_append (p : Place) (run t : Text) :
    attributesFrom p (run ++ t) = (p.readAll run).1 ++ attributesFrom (p.readAll run).2 t := by
  induction run generalizing p with
  | nil => rfl
  | cons c run ih =>
      rw [List.cons_append, attributesFrom_cons, ih, Place.readAll, List.append_assoc]

/-- A quoted value goes up to its quote. -/
theorem exists_attributesFrom_quoted (name : Text) (quote : Char) (value t : Text) :
    ∃ more, attributesFrom (.quoted name quote value) t =
      ⟨name, some (value ++ t.takeWhile (· ≠ quote))⟩ :: more := by
  induction t generalizing value with
  | nil => exact ⟨[], by simp [attributesFrom, Place.readAll, Place.finish]⟩
  | cons c t ih =>
      rw [attributesFrom_cons]
      by_cases hc : c = quote
      · exact ⟨attributesFrom .between t, by simp [Place.read, hc]⟩
      · obtain ⟨more, hmore⟩ := ih (value ++ [c])
        exact ⟨more, by simp [Place.read, hc, hmore]⟩

def Place.Proper : Place → Prop
  | .quoted _ quote _ => isBlank quote = false
  | _ => True

theorem Place.Proper.read {p : Place} (hp : p.Proper) (c : Char) : (p.read c).2.Proper := by
  cases p with
  | beforeValue name =>
      simp only [Place.read]
      split
      · trivial
      · split
        · trivial
        · rename_i hblank
          split
          · exact Bool.eq_false_iff.mpr hblank
          · trivial
  | quoted name quote value =>
      simp only [Place.read]
      split
      · trivial
      · exact hp
  | done => trivial
  | _ =>
      simp only [Place.read]
      repeat' split
      all_goals trivial

theorem Place.Proper.readAll {p : Place} (hp : p.Proper) (t : Text) : (p.readAll t).2.Proper := by
  induction t generalizing p with
  | nil => exact hp
  | cons c t ih => exact ih (hp.read c)

/-- Outside of quoted values all white space is alike. -/
theorem Place.read_blank {p : Place} (hp : p.isQuoted = false) {c : Char}
    (hc : isBlank c = true) : p.read c = p.read ' ' := by
  have hend : c ≠ '>' := isBlank_ne hc rfl
  have hslash : c ≠ '/' := isBlank_ne hc rfl
  cases p with
  | quoted name quote value => simp [isQuoted] at hp
  | _ => simp [read, hc, isBlank_space, hend, hslash]

/-- Outside of quoted values white space counts only once. -/
theorem Place.read_space_read_blank {p : Place} (hp : p.isQuoted = false) {c : Char}
    (hc : isBlank c = true) : (p.read ' ').2.read c = ([], (p.read ' ').2) := by
  have hend : c ≠ '>' := isBlank_ne hc rfl
  have hslash : c ≠ '/' := isBlank_ne hc rfl
  cases p with
  | quoted name quote value => simp [isQuoted] at hp
  | _ => simp [read, hc, isBlank_space, hend, hslash]

theorem Place.readAll_blank {p : Place} (hp : p.isQuoted = false) {c : Char} {run : Text}
    (hrun : Blank (c :: run)) : p.readAll (c :: run) = p.read ' ' := by
  have hstay : (p.read ' ').2.readAll run = ([], (p.read ' ').2) := by
    induction run with
    | nil => rfl
    | cons d run ih =>
        have hd := p.read_space_read_blank hp (hrun d (by simp))
        have hrest := ih fun e he => hrun e (by
          rcases List.mem_cons.mp he with rfl | he
          · exact List.mem_cons_self
          · exact List.mem_cons_of_mem _ (List.mem_cons_of_mem _ he))
        rw [readAll, hd, hrest]
        rfl
  rw [readAll, p.read_blank hp (hrun c List.mem_cons_self), hstay, List.append_nil]

/-- White space at the tag's end or in front of its slash tells nothing, but for
the slash behind a value without quotes. -/
theorem attributesFrom_space {p : Place} (hp : p.isQuoted = false) {t : Text}
    (ht : ∀ c ∈ t.head?, c = '>' ∨ c = '/' ∧ p.isBare = false) :
    attributesFrom p t = (p.read ' ').1 ++ attributesFrom (p.read ' ').2 t := by
  have hblank : isBlank '/' = false := rfl
  cases t with
  | nil =>
      cases p with
      | quoted name quote value => simp [Place.isQuoted] at hp
      | _ => simp [attributesFrom, Place.readAll, Place.read, Place.finish, isBlank_space]
  | cons c t =>
      rw [attributesFrom_cons, attributesFrom_cons]
      rcases ht c rfl with rfl | ⟨rfl, hbare⟩
      · cases p with
        | quoted name quote value => simp [Place.isQuoted] at hp
        | _ => simp [Place.read, isBlank_space]
      · cases p with
        | quoted name quote value => simp [Place.isQuoted] at hp
        | bare name value => simp [Place.isBare] at hbare
        | _ => simp [Place.read, isBlank_space, hblank]

end Inlay.Html
