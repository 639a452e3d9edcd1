import Inlay.Proofs.Path.Folder
import Inlay.Proofs.Stylesheet.Classify
import Inlay.Stylesheet.Less

/-!
Where LESS looks for imports. It gets the address without the dots and slashes
in front, and the directory of that name is searched. This is the directory of
the style sheet itself where these dots and slashes lead nowhere, but not where
they lead up or are part of a name.
-/

namespace Inlay.Stylesheet

open Text Inlay.Path

/-! ### The stem of an address -/

def lessEnding : Text := '.' :: "less".toList

theorem slash_notMem_lessEnding : '/' ∉ lessEnding := by decide

theorem exists_front_of_less {url : Text} (h : (classify url).2 = .less) :
    ∃ front, url = front ++ ((classify url).1 ++ lessEnding) := by
  unfold classify at h ⊢
  cases hstripped : stripped url with
  | none => simp [hstripped] at h
  | some found =>
      obtain ⟨stem, dialect⟩ := found
      simp only [hstripped, Option.getD_some] at h ⊢
      subst h
      obtain ⟨front, extension, hmem, hurl⟩ := stripped_eq_some hstripped
      obtain rfl : extension = "less".toList := by simpa [Dialect.extensions] using hmem
      exact ⟨front, hurl⟩

/-- The file of a LESS sheet always has a name. -/
theorem isName_of_less {url : Text} (h : (classify url).2 = .less) :
    IsName (lastSegment url) := by
  obtain ⟨front, hurl⟩ := exists_front_of_less h
  have hlast : lastSegment url = lastSegment (front ++ (classify url).1) ++ lessEnding := by
    conv => lhs; rw [hurl, ← List.append_assoc]
    exact lastSegment_append_of_notMem _ slash_notMem_lessEnding
  have hlong : 5 ≤ (lastSegment url).length := by simp [hlast, lessEnding]
  refine ⟨?_, ?_, ?_, notMem_of_mem_split (lastSegment_mem_split url)⟩ <;>
    exact fun hshort => absurd (hshort ▸ hlong) (by decide)

/-! ### Directories that are searched -/

namespace Less

/-- The name that LESS gets stands in the directory of the style sheet. -/
def StandsBeside (options : Options) (dir url : Text) : Prop :=
  parent? (fileName (some dir) (Reference.of options (some dir) url)) =
    parent? (Reference.of options (some dir) url).path

instance (options : Options) (dir url : Text) : Decidable (StandsBeside options dir url) :=
  inferInstanceAs (Decidable (_ = _))

/-- Going from the directory, the stem of an address leads to a name in the
place that the address's own folder leads to; or it leads to no name but some
steps up, and the folder leads up one step less. -/
def LeadsBeside (dir url : Text) : Prop :=
  (∃ n, Trail.ofPaths dir (classify url).1 =
    (Trail.ofPaths dir (folder url)).push (.name n)) ∨
  ∃ ups, Trail.ofPaths dir (classify url).1 = ⟨false, ups, []⟩ ∧
    Trail.ofPaths dir (folder url) = ⟨false, ups - 1, []⟩

theorem path_of_relative {options : Options} (hrelative : options.relative = true)
    (dir url : Text) : (Reference.of options (some dir) url).path = resolve dir url := by
  simp [Reference.of, Options.resolve, hrelative]

theorem standsBeside_iff {options : Options} {url : Text} (hrelative : options.relative = true)
    (hless : (classify url).2 = .less) (dir : Text) :
    StandsBeside options dir url ↔ LeadsBeside dir url := by
  have hstem : fileName (some dir) (Reference.of options (some dir) url) =
      (Trail.ofPaths dir (classify url).1).render := resolve_eq_render dir (classify url).1
  rw [StandsBeside, path_of_relative hrelative, parent?_resolve_of_isName (isName_of_less hless),
    hstem]
  exact (Trail.normal_ofPaths dir (classify url).1).parent?_render_eq_iff
    (Trail.normal_ofPaths dir (folder url))

/-- The stem leads beside the style sheet from all directories exactly if by
itself it leads to a name in the address's own folder: at the root it has to
lead to a name, and the empty directory shows to which. -/
theorem forall_leadsBeside_iff (url : Text) :
    (∀ dir, LeadsBeside dir url) ↔
      ∃ n, Trail.ofPaths [] (classify url).1 = (Trail.ofPaths [] (folder url)).push (.name n) := by
  constructor
  · intro h
    rcases h [] with hname | ⟨ups, hstem, -⟩
    · exact hname
    · have hroot : Trail.ofPaths ['/'] (classify url).1 = Trail.start true := by
        have hslash : (Trail.start (isRooted ['/'])).walk (steps ['/']) = Trail.start true := rfl
        rw [Trail.ofPaths_eq_walk, hslash, hstem]
        simpa [Trail.steps] using Trail.walk_ups_root ups
      exfalso
      rcases h ['/'] with ⟨n, hname⟩ | ⟨_, hups, -⟩
      · simp [hroot, Trail.start, Trail.push] at hname
      · simp [hroot, Trail.start] at hups
  · rintro ⟨n, hname⟩ dir
    exact .inl ⟨n, Trail.ofPaths_eq_push hname dir⟩

/-- Dots and slashes in front that lead nowhere do no harm. -/
theorem exists_name_of_steps_eq_nil {url front : Text}
    (hurl : url = front ++ ((classify url).1 ++ lessEnding))
    (hfront : front = [] ∨ front.getLast? = some '/') (hsteps : steps front = [])
    (hname : IsName (lastSegment (classify url).1)) :
    ∃ n, Trail.ofPaths [] (classify url).1 =
      (Trail.ofPaths [] (folder url)).push (.name n) := by
  have hfolder : steps (folder url) = steps (folder (classify url).1) := by
    conv => lhs; rw [hurl, steps_folder_append hfront, hsteps, List.nil_append,
      folder_append_of_notMem _ slash_notMem_lessEnding]
  refine ⟨lastSegment (classify url).1, ?_⟩
  rw [Trail.ofPaths_of_isName hname, Trail.ofPaths_nil_eq, Trail.ofPaths_nil_eq, hfolder]

theorem head?_arguments {options : Options} {dir own : Text} {r : Reference}
    (hown : parent? (fileName (some dir) r) = some own) (hne : own ≠ []) :
    ∃ base, (arguments options (some dir) r).head? =
      some ("--include-path=".toList ++ join [':'] [base, own]) := by
  refine ⟨if options.base = [] then ['.'] else options.base, ?_⟩
  simp only [arguments, hown, Option.getD_some, if_neg hne]
  rfl

/-- With relative addresses a LESS sheet is always looked for in some directory.
The name that LESS gets stands in that directory exactly if the stem leads
beside the sheet, and then the directory is searched for imports. It does so
from all directories exactly if the stem by itself leads to a name in the
address's own folder; in particular where only `.` and slashes were cut off in
front of the stem, and a name is left. -/
theorem less_name_beside_sheet_iff (options : Options) (url : Text)
    (hrelative : options.relative = true) (hless : (classify url).2 = .less) :
    (∀ dir, ∃ own, parent? (Reference.of options (some dir) url).path = some own ∧
      (StandsBeside options dir url ↔ LeadsBeside dir url) ∧
      (StandsBeside options dir url → own ≠ [] → ∃ base,
        (arguments options (some dir) (Reference.of options (some dir) url)).head? =
          some ("--include-path=".toList ++ join [':'] [base, own]))) ∧
    ((∀ dir, StandsBeside options dir url) ↔ ∃ n, Trail.ofPaths [] (classify url).1 =
      (Trail.ofPaths [] (folder url)).push (.name n)) ∧
    ∀ front, url = front ++ ((classify url).1 ++ lessEnding) →
      front = [] ∨ front.getLast? = some '/' → steps front = [] →
      IsName (lastSegment (classify url).1) → ∀ dir, StandsBeside options dir url := by
  have hall : (∀ dir, StandsBeside options dir url) ↔ ∃ n, Trail.ofPaths [] (classify url).1 =
      (Trail.ofPaths [] (folder url)).push (.name n) :=
    (forall_congr' fun dir => standsBeside_iff hrelative hless dir).trans
      (forall_leadsBeside_iff url)
  refine ⟨fun dir => ?_, hall, fun front hurl hfront hsteps hname =>
    hall.mpr (exists_name_of_steps_eq_nil hurl hfront hsteps hname)⟩
  have hown : parent? (Reference.of options (some dir) url).path =
      some (Trail.ofPaths dir (folder url)).path := by
    rw [path_of_relative hrelative, parent?_resolve_of_isName (isName_of_less hless)]
  exact ⟨_, hown, standsBeside_iff hrelative hless dir,
    fun hbeside hne => head?_arguments (hbeside.trans hown) hne⟩

def relativeOptions : Options := { relative := true }

/-- Behind `./` the stem leads beside the sheet, wherever the directory is. -/
theorem less_name_beside_sheet_dotted :
    relativeOptions.relative = true ∧ (classify "./theme/button.less".toList).2 = .less ∧
    (∀ dir, StandsBeside relativeOptions dir "./theme/button.less".toList) ∧
    ∃ base, (arguments relativeOptions (some "/app".toList)
      (Reference.of relativeOptions (some "/app".toList)
        "./theme/button.less".toList)).head? =
      some ("--include-path=".toList ++ join [':'] [base, "/app/theme".toList]) := by
  have hless : (classify "./theme/button.less".toList).2 = .less := by decide +kernel
  obtain ⟨hdir, -, hfront⟩ := less_name_beside_sheet_iff relativeOptions _ rfl hless
  have hall := hfront "./".toList (by decide +kernel) (by decide +kernel) (by decide +kernel)
    (by constructor <;> decide +kernel)
  refine ⟨rfl, hless, hall, ?_⟩
  obtain ⟨own, hown, -, hsearched⟩ := hdir "/app".toList
  have happ : own = "/app/theme".toList :=
    Option.some.inj (hown.symm.trans (by decide +kernel))
  subst happ
  exact hsearched (hall _) (by decide)

/-- Behind `../` the stem stays in the directory, and the sheet does not: the
directory of the sheet is not searched. -/
theorem less_name_leaves_sheet :
    (classify "../b.less".toList).2 = .less ∧
    ¬StandsBeside relativeOptions "/app/src".toList "../b.less".toList ∧
    parent? (Reference.of relativeOptions (some "/app/src".toList)
      "../b.less".toList).path = some "/app".toList ∧
    arguments relativeOptions (some "/app/src".toList)
      (Reference.of relativeOptions (some "/app/src".toList) "../b.less".toList) =
      ["--include-path=./:/app/src".toList, ['-']] := by
  decide +kernel

end Less

end Inlay.Stylesheet
