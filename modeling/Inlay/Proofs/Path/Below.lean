import Inlay.Proofs.Path.Components

/-!
Paths of names below a path. Their segments are those of the path, but for the
one behind a slash at its end, and then the names, so that different names give
different paths.
-/

namespace Inlay

theorem Text.split_of_notMem {sep : Char} {t : Text} (h : sep ∉ t) : split sep t = [t] := by
  have hsplit := split_join (List.cons_ne_nil t []) (List.forall_mem_singleton.mpr h)
  rwa [join, List.intersperse_singleton, List.flatten_singleton] at hsplit

namespace Path

theorem IsName.isRooted_eq {n : Text} (h : IsName n) : isRooted n = false := by
  cases n with
  | nil => rfl
  | cons c n =>
      have hc : c ≠ '/' := fun hc => h.no_slash (hc ▸ List.mem_cons_self)
      simpa [isRooted] using hc

instance decidableIsName (n : Text) : Decidable (IsName n) :=
  decidable_of_iff (n ≠ [] ∧ n ≠ ['.'] ∧ n ≠ ['.', '.'] ∧ '/' ∉ n)
    ⟨fun ⟨hnil, hcurrent, hparent, hslash⟩ => ⟨hnil, hcurrent, hparent, hslash⟩,
      fun h => ⟨h.ne_nil, h.ne_current, h.ne_parent, h.no_slash⟩⟩

/-- The segments of a path in front of those that are appended to it. -/
def trunk (root : Text) : List Text :=
  if (Text.split '/' root).getLast? = some [] then (Text.split '/' root).dropLast
  else Text.split '/' root

theorem trunk_append_slash (root : Text) : trunk (root ++ ['/']) = Text.split '/' root := by
  have hsplit : Text.split '/' (root ++ ['/']) = Text.split '/' root ++ [[]] :=
    Text.split_append '/' root []
  rw [trunk, hsplit, if_pos List.getLast?_concat, List.dropLast_concat]

theorem trunk_of_ne {root : Text} (hne : root ≠ []) (hlast : root.getLast? ≠ some '/') :
    trunk root = Text.split '/' root := by
  refine if_neg fun hend => ?_
  obtain ⟨outer, hsplit⟩ := List.getLast?_eq_some_iff.mp hend
  have hroot := Text.join_split '/' root
  rw [hsplit] at hroot
  by_cases houter : outer = []
  · exact hne (by rw [← hroot, houter]; rfl)
  · rw [Text.join_append_singleton houter, List.append_nil] at hroot
    exact hlast (by rw [← hroot, List.getLast?_concat])

theorem split_append_name (root : Text) {n : Text} (hn : IsName n) :
    Text.split '/' (append root n) = trunk root ++ [n] := by
  have hsingle := Text.split_of_notMem hn.no_slash
  rw [append, if_neg (by simp [hn.isRooted_eq])]
  by_cases hnil : root = []
  · subst hnil
    exact hsingle
  · by_cases hslash : root.getLast? = some '/'
    · obtain ⟨front, rfl⟩ := List.getLast?_eq_some_iff.mp hslash
      rw [if_pos (.inr hslash), trunk_append_slash, List.append_assoc, List.singleton_append,
        Text.split_append, hsingle]
    · rw [if_neg (not_or.mpr ⟨hnil, hslash⟩), Text.split_append, hsingle,
        trunk_of_ne hnil hslash]

theorem trunk_append_name (root : Text) {n : Text} (hn : IsName n) :
    trunk (append root n) = trunk root ++ [n] := by
  rw [trunk, split_append_name root hn, List.getLast?_concat, if_neg (by simp [hn.ne_nil])]

abbrev below (root : Text) (names : List Text) : Text := names.foldl append root

theorem split_below {root : Text} {names : List Text} (hne : names ≠ [])
    (h : ∀ n ∈ names, IsName n) : Text.split '/' (below root names) = trunk root ++ names := by
  induction names generalizing root with
  | nil => exact absurd rfl hne
  | cons n names ih =>
      obtain ⟨hn, hnames⟩ := List.forall_mem_cons.mp h
      cases names with
      | nil => exact split_append_name root hn
      | cons next names =>
          have hsplit : Text.split '/' (below (append root n) (next :: names)) =
              trunk (append root n) ++ next :: names := ih (List.cons_ne_nil next names) hnames
          rw [trunk_append_name root hn, List.append_assoc] at hsplit
          exact hsplit

theorem isRooted_append_name (root : Text) {n : Text} (hn : IsName n) :
    isRooted (append root n) = isRooted root := by
  rw [append, if_neg (by simp [hn.isRooted_eq])]
  cases root with
  | nil =>
      rw [if_pos (.inl rfl)]
      exact hn.isRooted_eq
  | cons c root => split <;> rfl

theorem isRooted_below (root : Text) {names : List Text} (h : ∀ n ∈ names, IsName n) :
    isRooted (below root names) = isRooted root := by
  induction names generalizing root with
  | nil => rfl
  | cons n names ih =>
      obtain ⟨hn, hnames⟩ := List.forall_mem_cons.mp h
      exact (ih (append root n) hnames).trans (isRooted_append_name root hn)

theorem eq_of_below_eq {root : Text} {names others : List Text} (hne : names ≠ [])
    (hne' : others ≠ []) (h : ∀ n ∈ names, IsName n) (h' : ∀ n ∈ others, IsName n)
    (heq : below root names = below root others) : names = others := by
  have hsplit := congrArg (Text.split '/') heq
  rw [split_below hne h, split_below hne' h'] at hsplit
  exact List.append_cancel_left hsplit

end Path

end Inlay
