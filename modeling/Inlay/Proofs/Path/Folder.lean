import Inlay.Proofs.Path.Resolve

/-!
The directory of a joined path. A path whose last segment is a name lies in the
directory that its folder leads to; without a name at its end a joined path is
all steps up, and its directory has one of them less.
-/

namespace Inlay.Path

open Text

def folder (p : Text) : Text := join ['/'] (split '/' p).dropLast

def lastSegment (p : Text) : Text := (split '/' p).getLast (split_ne_nil '/' p)

theorem split_eq (p : Text) : split '/' p = (split '/' p).dropLast ++ [lastSegment p] :=
  (List.dropLast_concat_getLast _).symm

theorem lastSegment_mem_split (p : Text) : lastSegment p ∈ split '/' p := List.getLast_mem _

theorem steps_folder (p : Text) :
    steps (folder p) = (split '/' p).dropLast.filterMap Component.ofSegment :=
  steps_join fun _ hs => notMem_of_mem_split (List.dropLast_subset _ hs)

theorem steps_eq_of_isName {p : Text} (h : IsName (lastSegment p)) :
    steps p = steps (folder p) ++ [.name (lastSegment p)] := by
  rw [steps, split_eq, List.filterMap_append, steps_folder,
    List.filterMap_cons_some h.ofSegment_eq, List.filterMap_nil]

/-- What has no slash goes on with the last segment. -/
theorem split_append_of_notMem (p : Text) {s : Text} (hs : '/' ∉ s) :
    split '/' (p ++ s) = (split '/' p).dropLast ++ [lastSegment p ++ s] := by
  have hjoin : p ++ s = join ['/'] ((split '/' p).dropLast ++ [lastSegment p ++ s]) := by
    by_cases hfront : (split '/' p).dropLast = []
    · have hp : p = lastSegment p := by
        conv => lhs; rw [← join_split '/' p, split_eq, hfront]
        simp [join]
      conv => lhs; rw [hp]
      simp [hfront, join]
    · have hp : p = join ['/'] (split '/' p).dropLast ++ ['/'] ++ lastSegment p := by
        conv => lhs; rw [← join_split '/' p, split_eq, join_append_singleton hfront]
      rw [join_append_singleton hfront, ← List.append_assoc, ← hp]
  conv => lhs; rw [hjoin]
  refine split_join (by simp) fun part hpart => ?_
  rcases List.mem_append.mp hpart with hpart | hpart
  · exact notMem_of_mem_split (List.dropLast_subset _ hpart)
  · rw [List.mem_singleton.mp hpart, List.mem_append]
    exact not_or.mpr ⟨notMem_of_mem_split (lastSegment_mem_split p), hs⟩

theorem folder_append_of_notMem (p : Text) {s : Text} (hs : '/' ∉ s) :
    folder (p ++ s) = folder p := by
  rw [folder, split_append_of_notMem p hs, List.dropLast_concat, folder]

theorem lastSegment_append_of_notMem (p : Text) {s : Text} (hs : '/' ∉ s) :
    lastSegment (p ++ s) = lastSegment p ++ s := by
  simp only [lastSegment, split_append_of_notMem p hs, List.getLast_append_singleton]

/-- The folder of a path below another one leads through that one. -/
theorem steps_folder_append {front : Text} (hfront : front = [] ∨ front.getLast? = some '/')
    (p : Text) : steps (folder (front ++ p)) = steps front ++ steps (folder p) := by
  rcases hfront with rfl | hslash
  · rfl
  · obtain ⟨before, rfl⟩ := List.getLast?_eq_some_iff.mp hslash
    rw [steps_folder, steps_folder, List.append_assoc, List.singleton_append, split_append,
      List.dropLast_append_of_ne_nil (split_ne_nil '/' p), List.filterMap_append, steps_append,
      steps_nil, List.append_nil]
    rfl

/-! ### Directories -/

theorem Trail.Normal.parent?_render_eq_iff {t own : Trail} (ht : t.Normal) (hown : own.Normal) :
    parent? t.render = some own.path ↔ (∃ n, t = own.push (.name n)) ∨
      ∃ k, t = ⟨false, k, []⟩ ∧ own = ⟨false, k - 1, []⟩ := by
  obtain ⟨rooted, ups, names⟩ := t
  cases names with
  | cons n outer =>
      have houter : Normal ⟨rooted, ups, outer⟩ :=
        ⟨ht.ups_eq_zero, fun m hm => ht.isName m (List.mem_cons_of_mem n hm)⟩
      have hparent : parent? (render ⟨rooted, ups, n :: outer⟩) =
          some (path ⟨rooted, ups, outer⟩) := by
        have hpath : path ⟨rooted, ups, n :: outer⟩ ≠ [] := by simp [path_eq_nil_iff ht]
        have hsegments : segments ⟨rooted, ups, n :: outer⟩ =
            segments ⟨rooted, ups, outer⟩ ++ [n] := by simp [segments]
        rw [render, if_neg hpath, ht.parent?_path hsegments]
        rfl
      rw [hparent, Option.some.injEq]
      constructor
      · intro hpath
        rw [← houter.eq_of_path_eq hown hpath]
        exact .inl ⟨n, rfl⟩
      · rintro (⟨m, heq⟩ | ⟨k, heq, -⟩)
        · cases own
          simp only [Trail.push, mk.injEq, List.cons.injEq] at heq
          obtain ⟨rfl, rfl, -, rfl⟩ := heq
          rfl
        · simp at heq
  | nil =>
      have hpush : ∀ n, (⟨rooted, ups, []⟩ : Trail) ≠ own.push (.name n) := by simp [Trail.push]
      simp only [hpush, exists_false, false_or, mk.injEq, and_true]
      cases rooted with
      | true =>
          obtain rfl := ht.ups_eq_zero rfl
          have hparent : parent? (render ⟨true, 0, []⟩) = none := by decide
          simp [hparent]
      | false =>
          have hparent : parent? (render ⟨false, ups, []⟩) =
              some (path ⟨false, ups - 1, []⟩) := by
            cases ups with
            | zero => decide
            | succ k =>
                have hpath : path ⟨false, k + 1, []⟩ ≠ [] := by simp [path_eq_nil_iff ht]
                have hsegments : segments ⟨false, k + 1, []⟩ =
                    List.replicate k ['.', '.'] ++ [['.', '.']] := by
                  simp [segments, List.replicate_succ']
                rw [render, if_neg hpath, ht.parent?_path hsegments]
                simp [path, segments]
          have hless : Normal ⟨false, ups - 1, []⟩ := ⟨by simp, by simp⟩
          rw [hparent, Option.some.injEq]
          constructor
          · exact fun hpath => ⟨ups, ⟨rfl, rfl⟩, (hless.eq_of_path_eq hown hpath).symm⟩
          · rintro ⟨k, ⟨-, rfl⟩, rfl⟩
            rfl

theorem Trail.ofPaths_of_isName {base p : Text} (h : IsName (lastSegment p)) :
    ofPaths base p = (ofPaths base (folder p)).push (.name (lastSegment p)) := by
  rw [ofPaths_eq, ofPaths_eq, steps_eq_of_isName h, walk_append]
  rfl

theorem parent?_resolve_of_isName {base p : Text} (h : IsName (lastSegment p)) :
    parent? (resolve base p) = some (Trail.ofPaths base (folder p)).path := by
  rw [resolve_eq_render, (Trail.normal_ofPaths base p).parent?_render_eq_iff
    (Trail.normal_ofPaths base (folder p))]
  exact .inl ⟨lastSegment p, Trail.ofPaths_of_isName h⟩

/-! ### From any place -/

theorem Trail.ofPaths_nil_eq (p : Text) : ofPaths [] p = (start false).walk (Path.steps p) :=
  ofPaths_eq [] p

theorem Trail.ofPaths_eq_walk (base p : Text) :
    ofPaths base p =
      ((start (isRooted base)).walk (Path.steps base)).walk (ofPaths [] p).steps := by
  rw [ofPaths_nil_eq, walk_steps_walk, ofPaths_eq]

/-- A name in a directory is one wherever the directory is looked for. -/
theorem Trail.ofPaths_eq_push {p q n : Text} (h : ofPaths [] p = (ofPaths [] q).push (.name n))
    (base : Text) : ofPaths base p = (ofPaths base q).push (.name n) := by
  rw [ofPaths_eq_walk base p, h, walk_steps_push _ (rooted_ofPaths [] q), ← ofPaths_eq_walk]

end Inlay.Path
