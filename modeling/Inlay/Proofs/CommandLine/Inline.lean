import Inlay.BuiltIn
import Inlay.Proofs.CommandLine.Running
import Inlay.Proofs.CommandLine.Sources
import Inlay.Proofs.CommandLine.Turns
import Mathlib.Data.List.Pairwise

/-!
Inlining a directory, in place or into another one. Each source has its turn,
whatever became of those before it. The run writes what the sources were
transformed to, each to a file of its own, changes no other file, counts the
sources that failed, and ends well if there are none.
-/

namespace Inlay.CommandLine

open Disk (Folder Apart Place)

/-! ### Where the sources go -/

def InlineCommand.root (c : InlineCommand) : Text :=
  if c.inPlace then c.input else c.output.getD []

/-- The file that a source of a directory is written to: the source itself, or
the file of the same names below the output. -/
def InlineCommand.destination (c : InlineCommand) (s : Source) : Text :=
  if c.inPlace then s.path else s.below.foldl Path.append (c.output.getD [])

def InlineCommand.Writes (c : InlineCommand) : Prop := c.inPlace = true ∨ c.output.isSome = true

theorem destination?_target {c : InlineCommand} {disk : Disk} (hwrites : c.Writes)
    (hinput : disk.isFolder c.input = true) (s : Source) :
    (c.target disk).destination? s = some (c.destination s) := by
  unfold InlineCommand.target InlineCommand.destination
  cases hplace : c.inPlace with
  | true => rfl
  | false =>
      rcases hwrites with h | h
      · simp [hplace] at h
      · obtain ⟨path, hpath⟩ := Option.isSome_iff_exists.mp h
        simp [hpath, hinput, Target.destination?]

structure Found (root : Text) (sources : List Source) : Prop where
  path_eq : ∀ s ∈ sources, s.path = Path.below root s.below
  ne_nil : ∀ s ∈ sources, s.below ≠ []
  isName : ∀ s ∈ sources, ∀ name ∈ s.below, Path.IsName name
  once : sources.Pairwise fun s s' => s.below ≠ s'.below

theorem found_of_collect {disk : Disk} {input : Text} {recursive : Bool}
    {sources : List Source} (hordered : disk.tree.Ordered) (hnamed : disk.tree.Named)
    (hinput : disk.isFolder input = true)
    (hsources : collect disk input recursive = .ok sources) : Found input sources := by
  obtain ⟨inside, hinside⟩ := Disk.isFolder_iff.mp hinput
  obtain rfl := Except.ok.inj ((collect_of_folder hinside recursive).symm.trans hsources)
  have hnames : ∀ s ∈ sourcesIn input recursive inside,
      s.below ≠ [] ∧ ∀ name ∈ s.below, Path.IsName name := by
    intro s hs
    have hbelow := List.mem_map_of_mem (f := Source.below) hs
    rw [map_below_sourcesIn, sourceNames, List.mem_filter, List.mem_map] at hbelow
    obtain ⟨⟨p, hp, hnames⟩, -⟩ := hbelow
    rw [← hnames]
    exact Folder.isName_of_mem_files
      (Folder.hereditary_named.of_entry hnamed hinside) hp
  refine ⟨fun s hs => ?_, fun s hs => (hnames s hs).1, fun s hs => (hnames s hs).2, ?_⟩
  · obtain ⟨names, -, rfl⟩ := List.mem_map.mp hs
    rfl
  · have hall := (areSourcesIn_sourcesIn input
      (Folder.hereditary_ordered.of_entry hordered hinside)).once
    have honce := List.pairwise_map.mp hall
    cases recursive with
    | true => exact honce
    | false =>
        rw [sourcesIn_false]
        exact honce.filter _

section Found

variable {c : InlineCommand} {sources : List Source} (h : Found c.input sources)

include h

theorem Found.destination_eq {s : Source} (hs : s ∈ sources) :
    c.destination s = Path.below c.root s.below := by
  unfold InlineCommand.destination InlineCommand.root
  split
  · exact h.path_eq s hs
  · rfl

theorem Found.destinations_nodup : (sources.map c.destination).Nodup := by
  rw [List.nodup_iff_pairwise_ne, List.pairwise_map]
  refine h.once.imp_of_mem fun {s s'} hs hs' hne heq => hne ?_
  rw [h.destination_eq hs, h.destination_eq hs'] at heq
  exact Path.eq_of_below_eq (h.ne_nil s hs) (h.ne_nil s' hs') (h.isName s hs) (h.isName s' hs') heq

theorem Found.destinations_apart :
    sources.Pairwise fun s s' => Apart (c.destination s) (c.destination s') := by
  refine h.once.imp_of_mem fun {s s'} hs hs' hne => ?_
  rw [h.destination_eq hs, h.destination_eq hs']
  exact Disk.apart_below (h.isName s hs) (h.isName s' hs') (h.ne_nil s hs) (h.ne_nil s' hs') hne

end Found

/-! ### What a run changes -/

def SameFile (disk final : Disk) (place : Place) : Prop :=
  ∀ content, final.entryAt? place = some (.file content) ↔
    disk.entryAt? place = some (.file content)

/-- What an inlining run leaves of a disk: what the sources were inlined to, and
else the files that were there. -/
structure Inlined (c : InlineCommand) (disk : Disk) (sources : List Source)
    (results : List (Except Error Text)) (final : Disk) : Prop where
  length_eq : results.length = sources.length
  /-- No two sources are written to one file. -/
  distinct : (sources.map c.destination).Nodup
  written : ∀ s text, (s, .ok text) ∈ sources.zip results →
    final.read (c.destination s) = .ok (Utf8.encode text)
  /-- Files that were not written to are as they were. -/
  elsewhere : ∀ place, (∀ s text, (s, .ok text) ∈ sources.zip results →
    final.locate (c.destination s) ≠ .ok place) → SameFile disk final place
  /-- The destination of a source that failed is among them. -/
  failed : ∀ s e, (s, .error e) ∈ sources.zip results → ∀ place,
    final.locate (c.destination s) = .ok place → SameFile disk final place
  /-- In place, that is the source itself. -/
  kept : c.inPlace = true → ∀ base, disk.locate c.input = .ok base →
    ∀ s e, (s, .error e) ∈ sources.zip results → SameFile disk final (s.below.reverse ++ base)

/-- Of two sources one was written and one failed, so they are not one. -/
theorem rel_of_mem_zip {R : Source → Source → Prop} (hsymm : ∀ s s', R s s' → R s' s)
    {sources : List Source} {results : List (Except Error Text)}
    (hlength : results.length = sources.length) (h : sources.Pairwise R) {s s' : Source}
    {text : Text} {e : Error} (hs : (s, .ok text) ∈ sources.zip results)
    (hs' : (s', .error e) ∈ sources.zip results) : R s s' := by
  rw [← List.map_fst_zip (Nat.le_of_eq hlength.symm), List.pairwise_map] at h
  have hsymm' : Std.Symm fun p q : Source × Except Error Text => R p.1 q.1 :=
    ⟨fun p q => hsymm p.1 q.1⟩
  exact h.forall hs hs' (by simp)

theorem inlined_of_turns {c : InlineCommand} {disk final : Disk} {sources : List Source}
    {results : List (Except Error Text)} {transform : Disk → Text → Except Error Text}
    (hfound : Found c.input sources)
    (hturns : Turns transform c.destination disk sources results final) :
    Inlined c disk sources results final := by
  have hsame {place : Place} (h : ∀ s text, (s, .ok text) ∈ sources.zip results →
      final.locate (c.destination s) ≠ .ok place) : SameFile disk final place := by
    intro content
    rw [Disk.entryAt?_eq_file_iff, Disk.entryAt?_eq_file_iff]
    exact (hturns.elsewhere h).file_iff content
  refine ⟨hturns.length_eq, hfound.destinations_nodup,
    fun s text => hturns.read_written hfound.destinations_apart, fun place => hsame, ?_, ?_⟩
  · intro s e hs place hplace
    refine hsame fun s' text hs' hlocate => ?_
    have hsymm : ∀ s s', Apart (c.destination s) (c.destination s') →
        Apart (c.destination s') (c.destination s) :=
      fun _ _ h disk place hplace hplace' => h disk place hplace' hplace
    have hapart := rel_of_mem_zip hsymm hturns.length_eq hfound.destinations_apart hs' hs
    exact hapart final place hlocate hplace
  · intro hplace base hbase s e hs
    refine hsame fun s' text hs' hlocate => ?_
    have hne := rel_of_mem_zip (fun _ _ h => h.symm) hturns.length_eq hfound.once hs' hs
    have hmem := (List.of_mem_zip hs').1
    have hroot : c.root = c.input := if_pos hplace
    rw [hfound.destination_eq hmem, hroot] at hlocate
    obtain ⟨base', htrunk, hnames⟩ := Disk.exists_base_of_locate_below
      (hfound.isName s' hmem) (hfound.ne_nil s' hmem) hlocate
    -- both lie below the place of the input, which stays where it is
    have hbase' := hturns.keeps.follow (Disk.follow_trunk_of_locate hbase)
    rw [← hturns.keeps.origin_eq] at hbase'
    obtain rfl := Except.ok.inj (hbase'.symm.trans htrunk)
    exact hne (List.reverse_injective (List.append_cancel_right hnames)).symm

/-! ### The run -/

open Running

variable {setting : Setting} {disk changed final : Disk}

theorem leaves_writeOutput {path content : Text} (h : disk.save path content = .ok final) :
    Leaves (writeOutput path content) disk (.ok ()) final := by
  rw [Disk.save, Disk.bind_eq_ok_iff] at h
  obtain ⟨middle, hparents, hwrite⟩ := h
  exact (leaves_change hparents).bind (leaves_change hwrite)

theorem leaves_inlineSource_of_error {options : Options} {target : Target} {s : Source}
    {e : Error} (h : transformFile setting.toToolchain options disk s.path = .error e) :
    Leaves (inlineSource setting options target s) disk (.ok false) disk := by
  refine leaves_get_bind fun console hconsole => ?_
  rw [hconsole, h]
  exact (leaves_complain _).bind (leaves_pure false)

theorem leaves_inlineSource_of_ok {options : Options} {target : Target} {s : Source}
    {text destination : Text} (h : transformFile setting.toToolchain options disk s.path = .ok text)
    (hdestination : target.destination? s = some destination)
    (hsaved : disk.save destination text = .ok changed) :
    Leaves (inlineSource setting options target s) disk (.ok true) changed := by
  refine leaves_get_bind fun console hconsole => ?_
  rw [hconsole, h]
  dsimp only
  rw [hdestination]
  exact (leaves_writeOutput hsaved).bind ((leaves_print _).bind (leaves_pure true))

/-- The run tells of each source whether it was inlined. -/
theorem leaves_mapM_inlineSource {options : Options} {target : Target} {c : InlineCommand}
    {sources : List Source} {results : List (Except Error Text)}
    (hdestination : ∀ s, target.destination? s = some (c.destination s))
    (h : Turns (transformFile setting.toToolchain options) c.destination disk sources results
      final) :
    Leaves (sources.mapM (inlineSource setting options target)) disk
      (.ok (results.map Except.isOk)) final := by
  induction h with
  | done disk => exact leaves_pure []
  | fails failed _ ih =>
      rw [List.mapM_cons]
      exact (leaves_inlineSource_of_error failed).bind (ih.bind (leaves_pure _))
  | writes inlined saved _ ih =>
      rw [List.mapM_cons]
      exact (leaves_inlineSource_of_ok inlined (hdestination _) saved).bind
        (ih.bind (leaves_pure _))

def failures (results : List (Except Error Text)) : Nat := results.countP fun r => !r.isOk

theorem count_false_isOk (results : List (Except Error Text)) :
    (results.map Except.isOk).count false = failures results := by
  rw [List.count, List.countP_map, failures]
  refine List.countP_congr fun result _ => ?_
  cases result <;> simp [Except.isOk, Except.toBool]

section Command

variable {c : InlineCommand} {config : Config} {sources : List Source}
  {results : List (Except Error Text)} (hinput : disk.isFolder c.input = true)
  (hwrites : c.Writes) (hsources : collect disk c.input c.recursive = .ok sources)
  (hturns : Turns (transformFile setting.toToolchain (c.options config)) c.destination disk
    sources results final)

include hinput hwrites hsources hturns

theorem leaves_inlineSources :
    Leaves (inlineSources setting config c (c.target disk)) disk
      (.ok ⟨sources.length, failures results⟩) final := by
  refine leaves_get_bind fun console hconsole => ?_
  rw [hconsole, hsources]
  refine (leaves_except _).bind ?_
  refine (leaves_mapM_inlineSource (destination?_target hwrites hinput) hturns).bind ?_
  rw [count_false_isOk]
  dsimp only
  split
  · exact (leaves_print _).bind (leaves_pure _)
  · exact leaves_pure _

theorem leaves_inline (hwatch : c.watch = false) :
    Leaves (inline setting config c) disk
      (if failures results > 0 then .error (.someFailed (failures results) sources.length)
        else .ok ()) final := by
  refine leaves_get_bind fun console hconsole => ?_
  rw [hconsole, hwatch]
  refine (leaves_inlineSources hinput hwrites hsources hturns).bind ?_
  dsimp only
  split
  · exact leaves_throw _
  · exact leaves_pure ()

end Command

def configAt (formats : Config.Formats) (disk : Disk) (path : Text) : Except Error Config :=
  match disk.readText path with
  | .error fault => .error (.configNotFound path fault)
  | .ok content => (formats.parse path content).mapError .config

def Arguments.configOn (a : Arguments) (formats : Config.Formats) (disk : Disk) :
    Except Error Config :=
  match a.config with
  | none => .ok {}
  | some path => configAt formats disk path

theorem leaves_loadConfig (formats : Config.Formats) (path : Text) (disk : Disk) :
    Leaves (loadConfig formats path) disk (configAt formats disk path) disk := by
  refine leaves_get_bind fun console hconsole => ?_
  rw [hconsole, configAt]
  cases disk.readText path with
  | error fault => exact leaves_throw _
  | ok content =>
      dsimp only
      cases formats.parse path content with
      | error refusal => exact leaves_throw _
      | ok config => exact leaves_pure _

theorem leaves_perform {a : Arguments} {c : InlineCommand} {config : Config}
    {result : Except Error Unit} (hcommand : a.command = .inline c)
    (hconfig : a.configOn setting.formats disk = .ok config)
    (h : Leaves (inline setting config c) disk result final) :
    Leaves (perform setting a) disk result final := by
  rw [Arguments.configOn] at hconfig
  rw [perform, hcommand]
  cases hpath : a.config with
  | none =>
      rw [hpath] at hconfig
      obtain rfl := Except.ok.inj hconfig
      exact (leaves_pure _).bind h
  | some path =>
      rw [hpath] at hconfig
      exact Leaves.bind (hconfig ▸ leaves_loadConfig setting.formats path disk) h

theorem run_of_leaves {arguments : List Text} {a : Arguments}
    (hread : Arguments.read arguments = .ok a) {result : Except Error Unit}
    (h : Leaves (perform setting a) disk result final) :
    (run setting disk arguments).console.disk = final ∧
      ((run setting disk arguments).exit = 0 ↔ result = .ok ()) := by
  obtain ⟨after, hrun, hafter⟩ := h ⟨disk, [], []⟩ rfl
  rw [exec] at hrun
  rw [run, hread]
  dsimp only
  rw [hrun]
  cases result with
  | ok a => exact ⟨hafter, by simp⟩
  | error e => exact ⟨hafter, by simp⟩

/-- Inlining a directory, if every write succeeds, goes on through all sources,
writes those that are inlined to files of their own, changes no other file,
counts the ones that failed, and ends with status 0 exactly if none did. -/
theorem inline_changes_only_destinations {disk final : Disk} {arguments : List Text}
    {a : Arguments} {c : InlineCommand} {config : Config} {sources : List Source}
    {results : List (Except Error Text)} (hordered : disk.tree.Ordered)
    (hnamed : disk.tree.Named) (hread : Arguments.read arguments = .ok a)
    (hcommand : a.command = .inline c) (hconfig : a.configOn setting.formats disk = .ok config)
    (hwatch : c.watch = false) (hwrites : c.Writes)
    (hinput : disk.isFolder c.input = true)
    (hsources : collect disk c.input c.recursive = .ok sources)
    (hturns : Turns (transformFile setting.toToolchain (c.options config)) c.destination disk
      sources results final) :
    (∀ s, (c.target disk).destination? s = some (c.destination s)) ∧
      Inlined c disk sources results final ∧
      Leaves (inlineSources setting config c (c.target disk)) disk
        (.ok ⟨sources.length, failures results⟩) final ∧
      (run setting disk arguments).console.disk = final ∧
      ((run setting disk arguments).exit = 0 ↔ failures results = 0) := by
  have hperform := leaves_perform hcommand hconfig
    (leaves_inline hinput hwrites hsources hturns hwatch)
  obtain ⟨hdisk, hexit⟩ := run_of_leaves hread hperform
  refine ⟨destination?_target hwrites hinput, ?_,
    leaves_inlineSources hinput hwrites hsources hturns, hdisk, hexit.trans ?_⟩
  · exact inlined_of_turns (found_of_collect hordered hnamed hinput hsources) hturns
  · split <;> simp <;> omega

/-- Three sources, of which the second one names a template that is not there. -/
def pagesApp : Folder :=
  .file "a.html".toList (Utf8.encode "<p>x</p>".toList) <|
    .file "a.ts".toList (Utf8.encode "templateUrl: 'a.html'".toList) <|
    .file "b.ts".toList (Utf8.encode "templateUrl: 'no.html'".toList) <|
    .folder "c".toList (.file "c.ts".toList (Utf8.encode "let c;".toList) .empty) .empty

def pagesDiskWith (beside : Folder) : Disk :=
  ⟨.folder "home".toList (.folder "app".toList pagesApp .empty) beside, ["home".toList]⟩

def pagesDisk : Disk := pagesDiskWith .empty

def pagesInlined : Text := "template: '<p>x</p>'".toList

def pagesBetween : Disk :=
  pagesDiskWith (.folder "out".toList
    (.file "a.ts".toList (Utf8.encode pagesInlined) .empty) .empty)

def pagesAfter : Disk :=
  pagesDiskWith (.folder "out".toList
    (.file "a.ts".toList (Utf8.encode pagesInlined) <|
      .folder "c".toList (.file "c.ts".toList (Utf8.encode "let c;".toList) .empty) .empty) .empty)

def pagesSetting : Setting := BuiltIn.setting fun _ _ _ => .notStarted .noProcesses

def pagesArguments : List Text :=
  ["inline", "app", "-r", "--relative", "-o", "../out"].map String.toList

def pagesCommand : InlineCommand :=
  ⟨"app".toList, some "../out".toList, false, true, none, true, [], false, false, none, false⟩

def pagesSources : List Source :=
  [⟨"app/a.ts".toList, ["a.ts".toList]⟩, ⟨"app/b.ts".toList, ["b.ts".toList]⟩,
    ⟨"app/c/c.ts".toList, ["c".toList, "c.ts".toList]⟩]

def pagesResults : List (Except Error Text) :=
  [.ok pagesInlined, .error (.notFound "app/no.html".toList (.disk .noEntry)),
    .ok "let c;".toList]

theorem turns_pages :
    Turns (transformFile pagesSetting.toToolchain (pagesCommand.options {}))
      pagesCommand.destination pagesDisk pagesSources pagesResults pagesAfter :=
  have hfirst : pagesDisk.save "../out/a.ts".toList pagesInlined = .ok pagesBetween := by
    decide +kernel
  have hlast : pagesBetween.save "../out/c/c.ts".toList "let c;".toList = .ok pagesAfter := by
    decide +kernel
  .writes (by decide +kernel) hfirst
    (.fails (by decide +kernel) (.writes (by decide +kernel) hlast (.done pagesAfter)))

theorem inline_changes_only_destinations_pages :
    (∀ s, (pagesCommand.target pagesDisk).destination? s = some (pagesCommand.destination s)) ∧
      Inlined pagesCommand pagesDisk pagesSources pagesResults pagesAfter ∧
      Leaves (inlineSources pagesSetting {} pagesCommand (pagesCommand.target pagesDisk)) pagesDisk
        (.ok ⟨pagesSources.length, failures pagesResults⟩) pagesAfter ∧
      (run pagesSetting pagesDisk pagesArguments).console.disk = pagesAfter ∧
      ((run pagesSetting pagesDisk pagesArguments).exit = 0 ↔ failures pagesResults = 0) :=
  have hread : Arguments.read pagesArguments = .ok ⟨none, .inline pagesCommand⟩ := by
    decide +kernel
  inline_changes_only_destinations (by decide) (by decide) hread rfl rfl rfl (.inr rfl)
    (by decide) (by decide) turns_pages

example : (run pagesSetting pagesDisk pagesArguments).exit = 1 := by decide +kernel

end Inlay.CommandLine
