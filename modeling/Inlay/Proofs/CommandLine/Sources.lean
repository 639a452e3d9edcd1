import Inlay.CommandLine.Sources
import Inlay.Proofs.Disk.Access
import Inlay.Proofs.Path.Below
import Inlay.Proofs.Text.Utf8

/-!
The sources in a directory are its plain files with the extension, each once,
in the order in which the names that lead to them compare one by one. The order
of whole paths is another one, as a slash is greater than some characters of
names: what is in `a` comes before `a.ts`.
-/

namespace Inlay

theorem Path.extension?_eq_some_iff {name ext : Text} :
    extension? name = some ext ↔ '.' ∉ ext ∧ ∃ stem ≠ [], name = stem ++ '.' :: ext := by
  constructor
  · intro h
    unfold extension? at h
    split at h
    · rename_i last rest hsplit
      rw [List.reverse_eq_cons_iff] at hsplit
      split at h
      · contradiction
      · rename_i hstem
        obtain rfl := Option.some.inj h
        refine ⟨?_, Text.join ['.'] rest.reverse, hstem, ?_⟩
        · exact Text.notMem_of_mem_split (t := name) (by simp [hsplit])
        · have hrest : rest.reverse ≠ [] := by
            intro hnil
            simp [hnil, Text.join] at hstem
          have hname := Text.join_split '.' name
          rw [hsplit, Text.join_append_singleton hrest] at hname
          simpa using hname.symm
    · contradiction
  · rintro ⟨hext, stem, hstem, rfl⟩
    simp [extension?, Text.split_append, Text.split_of_notMem hext, Text.join_split, hstem]

namespace CommandLine

open Disk (Folder)

theorem isSourceName_iff {name : Text} :
    isSourceName name = true ↔ ∃ stem ≠ [], name = stem ++ '.' :: sourceExtension := by
  rw [isSourceName, beq_iff_eq, Path.extension?_eq_some_iff]
  exact and_iff_right (by decide)

def LeadsToSource (inside : Folder) (names : List Text) : Prop :=
  ∃ outer stem content, stem ≠ [] ∧ names = outer ++ [stem ++ '.' :: sourceExtension] ∧
    inside.get? names = some (.file content)

def Precedes (names others : List Text) : Prop :=
  List.Lex (fun name other => Utf8.encode name < Utf8.encode other) names others

structure AreSourcesIn (root : Text) (inside : Folder) (sources : List Source) : Prop where
  exact : ∀ names, names ∈ sources.map Source.below ↔ LeadsToSource inside names
  once : (sources.map Source.below).Nodup
  path_eq : ∀ s ∈ sources, s.path = s.below.foldl Path.append root
  rising : sources.Pairwise fun s s' => Precedes s.below s'.below

def sourceNames (recursive : Bool) (inside : Folder) : List (List Text) :=
  ((inside.files recursive).map Prod.fst).filter fun names => names.getLast?.any isSourceName

theorem sourcesIn_eq (root : Text) (recursive : Bool) (inside : Folder) :
    sourcesIn root recursive inside =
      (sourceNames recursive inside).map fun names => ⟨names.foldl Path.append root, names⟩ := rfl

theorem map_below_sourcesIn (root : Text) (recursive : Bool) (inside : Folder) :
    (sourcesIn root recursive inside).map Source.below = sourceNames recursive inside := by
  rw [sourcesIn_eq, List.map_map]
  exact List.map_id _

theorem endsInSource_iff {names : List Text} : names.getLast?.any isSourceName = true ↔
    ∃ outer stem, stem ≠ [] ∧ names = outer ++ [stem ++ '.' :: sourceExtension] := by
  rw [Option.any_eq_true]
  constructor
  · rintro ⟨name, hlast, hname⟩
    obtain ⟨outer, rfl⟩ := List.getLast?_eq_some_iff.mp hlast
    obtain ⟨stem, hstem, rfl⟩ := isSourceName_iff.mp hname
    exact ⟨outer, stem, hstem, rfl⟩
  · rintro ⟨outer, stem, hstem, rfl⟩
    exact ⟨_, List.getLast?_concat, isSourceName_iff.mpr ⟨stem, hstem, rfl⟩⟩

theorem mem_sourceNames_iff {inside : Folder} (h : inside.Ordered) {names : List Text} :
    names ∈ sourceNames true inside ↔ LeadsToSource inside names := by
  rw [sourceNames, List.mem_filter, endsInSource_iff, List.mem_map]
  constructor
  · rintro ⟨⟨⟨found, content⟩, hfound, rfl⟩, outer, stem, hstem, hnames⟩
    exact ⟨outer, stem, content, hstem, hnames, (Folder.mem_files_iff h).mp hfound⟩
  · rintro ⟨outer, stem, content, hstem, hnames, hget⟩
    exact ⟨⟨(names, content), (Folder.mem_files_iff h).mpr hget, rfl⟩, outer, stem, hstem, hnames⟩

theorem sourceNames_pairwise {inside : Folder} (h : inside.Ordered) :
    (sourceNames true inside).Pairwise Precedes := by
  refine List.Pairwise.filter _ (List.pairwise_map.mpr ((Folder.files_pairwise h).imp ?_))
  exact List.Lex.imp (fun _ _ => Utf8.encode_lt_encode) _ _

theorem ne_of_precedes {names others : List Text} (h : Precedes names others) :
    names ≠ others := by
  rintro rfl
  exact List.lex_irrefl (fun name => List.lt_irrefl (Utf8.encode name)) names h

theorem areSourcesIn_sourcesIn (root : Text) {inside : Folder} (h : inside.Ordered) :
    AreSourcesIn root inside (sourcesIn root true inside) where
  exact names := by rw [map_below_sourcesIn, mem_sourceNames_iff h]
  once := by
    rw [map_below_sourcesIn]
    exact (sourceNames_pairwise h).imp ne_of_precedes
  path_eq s hs := by
    obtain ⟨names, -, rfl⟩ := List.mem_map.mp hs
    rfl
  rising := by
    rw [sourcesIn_eq, List.pairwise_map]
    exact sourceNames_pairwise h

/-- Without entering directories the sources right in the input are found. -/
theorem sourcesIn_false (root : Text) (inside : Folder) :
    sourcesIn root false inside =
      (sourcesIn root true inside).filter fun s => s.below.length = 1 := by
  have hfiles : (inside.files false).map Prod.fst =
      ((inside.files true).map Prod.fst).filter fun names => names.length = 1 := by
    rw [Folder.files_false, List.filter_map]
    rfl
  rw [sourcesIn_eq, sourcesIn_eq, List.filter_map, sourceNames, hfiles, List.filter_comm]
  rfl

theorem collect_of_folder {disk : Disk} {inside : Folder} {input : Text}
    (hinput : disk.entry input = .ok (.folder inside)) (recursive : Bool) :
    collect disk input recursive = .ok (sourcesIn input recursive inside) := by
  rw [collect, hinput]

/-- The sources of an input that is a directory are exactly the plain files at
any depth that have the extension, each once and in the order of the names that
lead to them. Without `recursive` they are those of them that lie right in the
input, in the same order. -/
theorem collect_sources_in_order {disk : Disk} {inside : Folder} {input : Text}
    (hdisk : disk.tree.Ordered) (hinput : disk.entry input = .ok (.folder inside)) :
    ∃ sources, collect disk input true = .ok sources ∧ AreSourcesIn input inside sources ∧
      collect disk input false = .ok (sources.filter fun s => s.below.length = 1) := by
  have hinside : inside.Ordered := Folder.hereditary_ordered.of_entry hdisk hinput
  refine ⟨sourcesIn input true inside, collect_of_folder hinput true, ?_, ?_⟩
  · exact areSourcesIn_sourcesIn input hinside
  · rw [collect_of_folder hinput, sourcesIn_false]

/-- A directory `a` beside `a.ts`, and names that are no sources. -/
def mixedFolder : Folder :=
  .file ".ts".toList [] <|
  .folder "a".toList (.file "b.ts".toList [] <| .file "c.tsx".toList [] .empty) <|
  .file "a.ts".toList [] <|
  .folder "b.ts".toList (.file "d.e.ts".toList [] .empty) .empty

def mixedDisk : Disk :=
  ⟨.folder "home".toList (.folder "app".toList mixedFolder .empty) .empty, ["home".toList]⟩

theorem collect_sources_in_order_mixed :
    mixedDisk.tree.Ordered ∧ mixedDisk.entry "app".toList = .ok (.folder mixedFolder) ∧
      ∃ sources, collect mixedDisk "app".toList true = .ok sources ∧
        AreSourcesIn "app".toList mixedFolder sources ∧
        collect mixedDisk "app".toList false =
          .ok (sources.filter fun s => s.below.length = 1) :=
  have hdisk : mixedDisk.tree.Ordered := by decide
  have hinput : mixedDisk.entry "app".toList = .ok (.folder mixedFolder) := by decide
  ⟨hdisk, hinput, collect_sources_in_order hdisk hinput⟩

example : (sourcesIn "app".toList true mixedFolder).map Source.path =
    ["app/a/b.ts".toList, "app/a.ts".toList, "app/b.ts/d.e.ts".toList] := by decide

end CommandLine

end Inlay
