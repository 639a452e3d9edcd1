import Inlay.Path

/-!
The components of a path and its text. Apart from the root and a `.` in front
they are the steps that its segments stand for; paths that a slash joins have
the steps of both, and segments that were joined by slashes read back.
-/

namespace Inlay

/-! ### Splitting at a separator -/

theorem Text.split_eq_splitOn (sep : Char) (t : Text) : split sep t = t.splitOn sep := by
  induction t with
  | nil => rfl
  | cons c t ih =>
      rw [List.splitOn_cons_eq_if_modifyHead, split, ih]
      by_cases hc : c = sep
      · rw [if_pos hc, if_pos (beq_iff_eq.mpr hc)]
      · rw [if_neg hc, if_neg (by simpa using hc)]
        obtain ⟨part, parts, hparts⟩ := List.exists_cons_of_ne_nil (List.splitOn_ne_nil sep t)
        rw [hparts, List.modifyHead_cons]

theorem Text.split_append (sep : Char) (a b : Text) :
    split sep (a ++ sep :: b) = split sep a ++ split sep b := by
  simp only [split_eq_splitOn, List.splitOn_append_cons_self]

theorem Text.split_join {sep : Char} {parts : List Text} (hne : parts ≠ [])
    (h : ∀ part ∈ parts, sep ∉ part) : split sep (join [sep] parts) = parts := by
  rw [split_eq_splitOn]
  exact List.splitOn_intercalate sep h hne

theorem Text.join_split (sep : Char) (t : Text) : join [sep] (split sep t) = t := by
  rw [split_eq_splitOn]
  exact List.intercalate_splitOn sep

theorem Text.split_ne_nil (sep : Char) (t : Text) : split sep t ≠ [] := by
  rw [split_eq_splitOn]
  exact List.splitOn_ne_nil sep t

theorem Text.notMem_of_mem_split {sep : Char} {t part : Text} (h : part ∈ split sep t) :
    sep ∉ part := by
  induction t generalizing part with
  | nil => simp_all [split]
  | cons c t ih =>
      rw [split] at h
      split at h
      · rcases List.mem_cons.mp h with rfl | h
        · simp
        · exact ih h
      · rename_i hc
        obtain ⟨first, parts, hsplit⟩ := List.exists_cons_of_ne_nil (split_ne_nil sep t)
        rw [hsplit] at h ih
        rcases List.mem_cons.mp h with rfl | h
        · have hfirst := ih List.mem_cons_self
          simp [hfirst, Ne.symm hc]
        · exact ih (List.mem_cons_of_mem first h)

theorem Text.join_append_singleton {sep : Text} {parts : List Text} (h : parts ≠ [])
    (part : Text) : join sep (parts ++ [part]) = join sep parts ++ sep ++ part := by
  induction parts with
  | nil => exact absurd rfl h
  | cons first parts ih =>
      cases parts with
      | nil => simp [join]
      | cons second parts =>
          have hrest := ih (List.cons_ne_nil second parts)
          simp only [join, List.cons_append, List.intersperse_cons_cons, List.flatten_cons,
            List.append_assoc] at hrest ⊢
          rw [hrest]

namespace Path

/-! ### Names and steps -/

/-- What a segment has to be to stand for a name. -/
structure IsName (n : Text) : Prop where
  ne_nil : n ≠ []
  ne_current : n ≠ ['.']
  ne_parent : n ≠ ['.', '.']
  no_slash : '/' ∉ n

def steps (p : Text) : List Component := (Text.split '/' p).filterMap Component.ofSegment

def Component.IsStep : Component → Prop
  | .root => False
  | .current => False
  | .parent => True
  | .name n => IsName n

theorem IsName.ofSegment_eq {n : Text} (h : IsName n) : Component.ofSegment n = some (.name n) := by
  rw [Component.ofSegment, if_neg (not_or.mpr ⟨h.ne_nil, h.ne_current⟩), if_neg h.ne_parent]

theorem Component.isStep_of_ofSegment {s : Text} {c : Component} (hslash : '/' ∉ s)
    (h : Component.ofSegment s = some c) : c.IsStep := by
  unfold Component.ofSegment at h
  split at h
  · contradiction
  · rename_i hfiller
    split at h
    · obtain rfl := Option.some.inj h
      trivial
    · rename_i hparent
      obtain rfl := Option.some.inj h
      exact ⟨fun hs => hfiller (.inl hs), fun hs => hfiller (.inr hs), hparent, hslash⟩

theorem isStep_of_mem_steps {p : Text} {c : Component} (h : c ∈ steps p) : c.IsStep := by
  obtain ⟨s, hs, hc⟩ := List.mem_filterMap.mp h
  exact Component.isStep_of_ofSegment (Text.notMem_of_mem_split hs) hc

theorem steps_append (a b : Text) : steps (a ++ '/' :: b) = steps a ++ steps b := by
  rw [steps, Text.split_append, List.filterMap_append]
  rfl

theorem steps_join {segments : List Text} (h : ∀ s ∈ segments, '/' ∉ s) :
    steps (Text.join ['/'] segments) = segments.filterMap Component.ofSegment := by
  cases segments with
  | nil => rfl
  | cons s segments => rw [steps, Text.split_join (List.cons_ne_nil s segments) h]

theorem steps_nil : steps [] = [] := rfl

/-! ### What stands in front of the steps -/

theorem components_of_isRooted {p : Text} (h : isRooted p = true) :
    components p = .root :: steps p := by
  rw [components, if_pos h]
  rfl

theorem components_of_not_isRooted {p : Text} (h : isRooted p = false) :
    components p = steps p ∨ components p = .current :: steps p := by
  rw [components, if_neg (by simp [h])]
  split
  · exact .inr rfl
  · exact .inl rfl

/-- A root in front of the path is its only component that is no step, but for
a `.` in front. -/
theorem components_cases (p : Text) :
    (isRooted p = true ∧ components p = .root :: steps p) ∨
      isRooted p = false ∧ (components p = steps p ∨ components p = .current :: steps p) := by
  cases h : isRooted p with
  | true => exact .inl ⟨rfl, components_of_isRooted h⟩
  | false => exact .inr ⟨rfl, components_of_not_isRooted h⟩

end Path

end Inlay
