import HackVM.Proofs.Linking
import HackVM.Proofs.RunEffects
import Mathlib.Data.List.Sort

/-! # Runs agree with linking

A run reads a source file, adds it and goes on to the next, while linking reads all sources before it adds
the first. Both come to the same program. They come to the same failure too, unless a source that cannot be
read follows one that has no code: then the run has failed before it gets to read.
-/

namespace HackVM

open Runs HackVM.Path

/-! ## The sources of an input -/

namespace FileTree

/-- A file of a directory that counts as a source: it has the extension, and the path by which the
directory is given leaves room for its name. -/
structure IsSource (tree : FileTree) (input : String) (place : Place) (name : String) : Prop where
  file : ∃ bytes, tree.node? (place ++ [name]) = some (.file bytes)
  extension : extension? name = some "vm"
  fits : (join input name).utf8ByteSize ≤ maxBytes

/-- The text of a file at a place. -/
def HasText (tree : FileTree) (place : Place) (text : String) : Prop :=
  ∃ bytes, tree.node? place = some (.file bytes) ∧ String.fromUTF8? bytes = some text

/-- The stems and texts of the source files of an input: the input itself, or the sources in a directory
in the order of the bytes of their names. -/
inductive HasSources (tree : FileTree) (input : String) : List (String × String) → Prop
  | file {stem text : String} (readable : tree.readText input = .ok text) (named : stem? input = some stem) :
      HasSources tree input [(stem, text)]
  | directory {place : Place} {names : List String} {sources : List (String × String)}
      (resolved : tree.resolve input = .ok place) (inside : tree.node? place = some .directory)
      (nonempty : names ≠ []) (sorted : names.Pairwise BytesBefore)
      (complete : ∀ name, name ∈ names ↔ tree.IsSource input place name)
      (contents : List.Forall₂
        (fun name source => stem? name = some source.1 ∧ tree.HasText (place ++ [name]) source.2) names sources) :
      HasSources tree input sources

/-- An input that is a file with a text, or a directory with sources all of which have texts. -/
inductive IsReadable (tree : FileTree) (input : String) : Prop
  | file {text : String} (readable : tree.readText input = .ok text)
  | directory {place : Place} {name : String} (resolved : tree.resolve input = .ok place)
      (inside : tree.node? place = some .directory) (nonempty : tree.IsSource input place name)
      (texts : ∀ name, tree.IsSource input place name → ∃ text, tree.HasText (place ++ [name]) text)

theorem readText_of_hasText {tree : FileTree} {path text : String} {place : Place}
    (resolved : tree.resolve path = .ok place) (content : tree.HasText place text) :
    tree.readText path = .ok text := by
  obtain ⟨bytes, file, decoded⟩ := content
  exact readText_eq_ok_iff.mpr ⟨bytes, readBytes_eq_ok_iff.mpr ⟨place, resolved, file⟩, decoded⟩

theorem isDirectory_of_readText {tree : FileTree} {path text : String} (readable : tree.readText path = .ok text) :
    tree.isDirectory path = false := by
  obtain ⟨bytes, read, -⟩ := readText_eq_ok_iff.mp readable
  obtain ⟨place, resolved, file⟩ := readBytes_eq_ok_iff.mp read
  simp [isDirectory, resolved, file]

section Directory

variable {tree : FileTree} (wellFormed : tree.WellFormed) {input : String} {place : Place}
  (resolved : tree.resolve input = .ok place) (inside : tree.node? place = some .directory)
include wellFormed resolved inside

theorem WellFormed.resolve_of_isSource {name : String} (source : tree.IsSource input place name) :
    tree.resolve (join input name) = .ok (place ++ [name]) := by
  obtain ⟨bytes, file⟩ := source.file
  exact (wellFormed.resolve_join_iff resolved inside (by simp [file])).mpr ⟨source.fits, rfl⟩

private theorem WellFormed.isSource_iff {name : String} (present : (tree.node? (place ++ [name])).isSome) :
    (tree.isFile (join input name) && extension? (join input name) = some Invocation.sourceExtension) = true ↔
      tree.IsSource input place name := by
  rw [Bool.and_eq_true, isFile_eq_true_iff, decide_eq_true_eq, extension?_join input (wellFormed.isName present)]
  constructor
  · rintro ⟨⟨found, bytes, reached, file⟩, extension⟩
    obtain ⟨fits, rfl⟩ := (wellFormed.resolve_join_iff resolved inside present).mp reached
    exact ⟨⟨bytes, file⟩, extension, fits⟩
  · intro source
    obtain ⟨bytes, file⟩ := source.file
    exact ⟨⟨_, bytes, wellFormed.resolve_of_isSource resolved inside source, file⟩, source.extension⟩

/-- The sources of a directory are found in the order of the bytes of their names. -/
theorem WellFormed.exists_sourcePaths :
    ∃ names : List String, Invocation.sourcePaths tree input place = names.map (join input) ∧
      names.Pairwise BytesBefore ∧ ∀ name, name ∈ names ↔ tree.IsSource input place name := by
  let before : String → String → Bool := fun left right => (compare left right).isLE
  let names := (tree.children place).map Prod.fst
  let isSource : String → Bool := fun path =>
    tree.isFile path && extension? path = some Invocation.sourceExtension
  refine ⟨(names.mergeSort before).filter (isSource ∘ join input), List.filter_map, ?_, fun name => ?_⟩
  · apply List.Pairwise.filter
    have ordered : (names.mergeSort before).Pairwise fun left right => before left right = true := by
      apply List.pairwise_mergeSort
      · intro first second third
        simp only [before, isLE_compare_iff]
        exact le_trans
      · intro first second
        simp only [before, Bool.or_eq_true, isLE_compare_iff]
        exact le_total first second
    have distinct : (names.mergeSort before).Nodup :=
      (List.mergeSort_perm names before).nodup_iff.mpr (wellFormed.names_nodup place)
    refine (ordered.and distinct).imp fun {left right} ⟨ordered, different⟩ => bytesBefore_iff.mpr ?_
    exact lt_of_le_of_ne (isLE_compare_iff.mp ordered) different
  · rw [List.mem_filter, List.mem_mergeSort, mem_names_iff]
    constructor
    · rintro ⟨present, passes⟩
      exact (wellFormed.isSource_iff resolved inside present).mp passes
    · intro source
      obtain ⟨bytes, file⟩ := source.file
      have present : (tree.node? (place ++ [name])).isSome := by simp [file]
      exact ⟨present, (wellFormed.isSource_iff resolved inside present).mpr source⟩

private theorem WellFormed.sourcePaths_eq {names : List String} (sorted : names.Pairwise BytesBefore)
    (complete : ∀ name, name ∈ names ↔ tree.IsSource input place name) :
    Invocation.sourcePaths tree input place = names.map (join input) := by
  obtain ⟨found, paths, ordered, members⟩ := wellFormed.exists_sourcePaths resolved inside
  rw [paths, eq_of_bytesBefore ordered sorted fun name => (members name).trans (complete name).symm]

end Directory

/-- The sources of an input that is readable exist. -/
theorem IsReadable.exists_sources {tree : FileTree} (wellFormed : tree.WellFormed) {input : String}
    (readable : tree.IsReadable input) : ∃ sources, tree.HasSources input sources := by
  cases readable with
  | file readable =>
    obtain ⟨stem, named⟩ := wellFormed.exists_stem? readable
    exact ⟨_, .file readable named⟩
  | @directory place name resolved inside nonempty texts =>
    obtain ⟨names, -, sorted, complete⟩ := wellFormed.exists_sourcePaths resolved inside
    have content (name : String) (member : name ∈ names) : ∃ source : String × String,
        stem? name = some source.1 ∧ tree.HasText (place ++ [name]) source.2 := by
      have source := (complete name).mp member
      obtain ⟨text, content⟩ := texts name source
      obtain ⟨bytes, file⟩ := source.file
      have present : (tree.node? (place ++ [name])).isSome := by simp [file]
      have alone : components name = [] ++ [name] := (wellFormed.isName present).components_eq
      obtain ⟨stem, stemmed⟩ := exists_stem?_of_components (wellFormed.isName present) alone
      exact ⟨(stem, text), stemmed, content⟩
    choose! source content using content
    refine ⟨names.map source, .directory resolved inside ?_ sorted complete ?_⟩
    · exact List.ne_nil_of_mem ((complete name).mpr nonempty)
    · rw [List.forall₂_map_right_iff, List.forall₂_same]
      exact content

end FileTree

/-! ## Reading and adding source by source -/

/-- A draft with a source read and appended. -/
def Draft.addSource (draft : Draft) (source : String × String) : Except UnitError Draft := do
  let unit ← SourceUnit.ofSource source.1 source.2
  return (← draft.add unit).1

/-- A program from sources each of which is added before the next is read. -/
def linkInTurn (options : BuildOptions) (sources : List (String × String)) : Except UnitError (List Line) := do
  let draft ← sources.foldlM Draft.addSource (Draft.empty options)
  return draft.finish.1

private theorem foldlM_addSource {sources : List (String × String)} {units : List SourceUnit}
    (read : (sources.mapM fun source => SourceUnit.ofSource source.1 source.2) = .ok units) (draft : Draft) :
    sources.foldlM Draft.addSource draft = units.foldlM (fun draft unit => return (← draft.add unit).1) draft := by
  rw [mapM_eq_ok_iff] at read
  induction read generalizing draft with
  | nil => rfl
  | cons first _ ih =>
    rw [List.foldlM_cons, List.foldlM_cons, Draft.addSource, first]
    exact bind_congr ih

/-- Sources that can all be read make the program of their units. -/
theorem linkInTurn_of_read {options : BuildOptions} {sources : List (String × String)} {units : List SourceUnit}
    (read : (sources.mapM fun source => SourceUnit.ofSource source.1 source.2) = .ok units) :
    linkInTurn options sources = link options units := by
  rw [linkInTurn, foldlM_addSource read, link]

/-- A source that cannot be read is only met if those before it link. -/
theorem linkInTurn_of_unread {options : BuildOptions} {before after : List (String × String)}
    {source : String × String} {units : List SourceUnit} {error : UnitError}
    (read : (before.mapM fun source => SourceUnit.ofSource source.1 source.2) = .ok units)
    (unread : SourceUnit.ofSource source.1 source.2 = .error error) :
    linkInTurn options (before ++ source :: after) = link options units >>= fun _ => .error error := by
  rw [linkInTurn, List.foldlM_append, foldlM_addSource read, link]
  simp only [List.foldlM_cons, Draft.addSource, unread]
  cases units.foldlM (fun draft unit => return (← draft.add unit).1) (Draft.empty options) with
  | error other => rfl
  | ok draft => rfl

/-- The first of some units that has no code after those before it. -/
def FirstFailure (options : BuildOptions) (units : List SourceUnit) (error : UnitError) : Prop :=
  ∃ before unit after lines, units = before ++ unit :: after ∧ link options before = .ok lines ∧
    link options (before ++ [unit]) = .error error

private theorem link_eq_error_iff_firstFailure {options : BuildOptions} {units : List SourceUnit} {error : UnitError} :
    link options units = .error error ↔ FirstFailure options units error := by
  constructor
  · intro failed
    obtain ⟨before, unit, after, draft, rfl, added, failed⟩ := link_eq_error_iff_add.mp failed
    exact ⟨before, unit, after, draft.finish.1, rfl, bind_eq_ok_iff.mpr ⟨draft, added, rfl⟩,
      link_eq_error_iff_add.mpr ⟨before, unit, [], draft, rfl, added, failed⟩⟩
  · rintro ⟨before, unit, after, _, rfl, -, failed⟩
    rw [link_eq_error_iff_foldlM] at failed ⊢
    rw [List.append_cons, List.foldlM_append, failed]
    rfl

/-- A source that cannot be read, with `error`, comes after a unit that fails with `other`. -/
def Overtakes (options : BuildOptions) (sources : List (String × String)) (error other : UnitError) : Prop :=
  ∃ before source after units, sources = before ++ source :: after ∧
    (before.mapM fun source => SourceUnit.ofSource source.1 source.2) = .ok units ∧
    SourceUnit.ofSource source.1 source.2 = .error error ∧ FirstFailure options units other

private theorem linkInTurn_of_ok {options : BuildOptions} {sources : List (String × String)} {lines : List Line}
    (linked : linkSources options sources = .ok lines) : linkInTurn options sources = .ok lines := by
  obtain ⟨units, read, linked⟩ := bind_eq_ok_iff.mp linked
  rw [linkInTurn_of_read read, linked]

private theorem linkInTurn_of_overtakes {options : BuildOptions} {sources : List (String × String)}
    {error other : UnitError} (overtakes : Overtakes options sources error other) :
    linkInTurn options sources = .error other := by
  obtain ⟨before, source, after, units, rfl, read, unread, first⟩ := overtakes
  rw [linkInTurn_of_unread read unread, link_eq_error_iff_firstFailure.mpr first]
  rfl

private theorem linkInTurn_of_error {options : BuildOptions} {sources : List (String × String)} {error : UnitError}
    (failed : linkSources options sources = .error error) (alone : ¬ ∃ other, Overtakes options sources error other) :
    linkInTurn options sources = .error error := by
  rcases bind_eq_error_iff.mp failed with unread | ⟨units, read, failed⟩
  · obtain ⟨before, source, after, units, rfl, read, unread⟩ := mapM_eq_error_iff.mp unread
    rw [linkInTurn_of_unread read unread]
    cases linked : link options units with
    | ok lines => rfl
    | error other =>
      have first := link_eq_error_iff_firstFailure.mp linked
      exact absurd ⟨other, before, source, after, units, rfl, read, unread, first⟩ alone
  · rw [linkInTurn_of_read read, failed]

/-! ## Runs on readable inputs -/

namespace Invocation

open Work

theorem gives_sources_of_file {tree : FileTree} {input : String} (other : tree.isDirectory input = false) :
    (sources input).Gives tree (.ok [input]) := by
  refine (gives_files tree).bind ?_
  rw [other, if_neg Bool.false_ne_true]
  split
  · exact (gives_report _ tree).bind (gives_pure [input] tree)
  · exact (gives_pure _ tree).bind (gives_pure [input] tree)

theorem gives_sources_of_directory {tree : FileTree} {input : String} {place : Place}
    (resolved : tree.resolve input = .ok place) (inside : tree.node? place = some .directory) :
    (sources input).Gives tree
      (if (sourcePaths tree input place).isEmpty then .error (.noSources input)
        else .ok (sourcePaths tree input place)) := by
  refine (gives_files tree).bind ?_
  rw [FileTree.isDirectory_eq_true_iff.mpr ⟨place, resolved, inside⟩, if_pos rfl, resolved]
  refine (gives_lift _ (.ok place) tree).bind ?_
  dsimp only
  split
  · exact (gives_throw _ tree).bind_error
  · exact (gives_pure _ tree).bind (gives_pure _ tree)

/-- A run finds the sources of an input. -/
theorem exists_gives_sources {tree : FileTree} (wellFormed : tree.WellFormed) {input : String}
    {texts : List (String × String)} (sourced : tree.HasSources input texts) :
    ∃ paths, (sources input).Gives tree (.ok paths) ∧
      List.Forall₂ (fun path source => stem? path = some source.1 ∧ tree.readText path = .ok source.2) paths texts := by
  cases sourced with
  | file readable named =>
    have other := FileTree.isDirectory_of_readText readable
    exact ⟨[input], gives_sources_of_file other, .cons ⟨named, readable⟩ .nil⟩
  | @directory place names _ resolved inside nonempty sorted complete contents =>
    have gives := gives_sources_of_directory resolved inside
    rw [wellFormed.sourcePaths_eq resolved inside sorted complete, if_neg (by simpa using nonempty)] at gives
    refine ⟨_, gives, ?_⟩
    rw [List.forall₂_map_left_iff]
    have sources : ∀ name ∈ names, tree.IsSource input place name := fun name => (complete name).mp
    refine (List.forall₂_and_left _ _).mpr ⟨sources, contents⟩ |>.imp ?_
    rintro name source ⟨isSource, named, content⟩
    obtain ⟨bytes, file⟩ := isSource.file
    have present : (tree.node? (place ++ [name])).isSome := by simp [file]
    rw [stem?_join input (wellFormed.isName present)]
    exact ⟨named, FileTree.readText_of_hasText (wellFormed.resolve_of_isSource resolved inside isSource) content⟩

private theorem gives_readUnit {tree : FileTree} {path name text : String} (named : stem? path = some name)
    (readable : tree.readText path = .ok text) :
    (readUnit path).Gives tree ((SourceUnit.ofSource name text).mapError .unit) := by
  refine (gives_files tree).bind ?_
  rw [readable]
  refine (gives_lift _ (.ok text) tree).bind ?_
  rw [named, ← bind_pure (SourceUnit.ofSource name text)]
  refine (gives_lift _ _ tree).bind_mapError fun unit => ?_
  exact (gives_report _ tree).bind (gives_pure unit tree)

private theorem gives_addFile {tree : FileTree} {path : String} {source : String × String}
    (named : stem? path = some source.1) (readable : tree.readText path = .ok source.2) (draft : Draft) :
    (addFile draft path).Gives tree ((draft.addSource source).mapError .unit) := by
  refine (gives_readUnit named readable).bind_mapError fun unit => ?_
  refine (gives_lift _ _ tree).bind_mapError fun (next, event) => ?_
  exact (gives_report event tree).bind (gives_pure next tree)

private theorem gives_foldlM_addFile {tree : FileTree} {paths : List String} {texts : List (String × String)}
    (read : List.Forall₂ (fun path source => stem? path = some source.1 ∧ tree.readText path = .ok source.2)
      paths texts) (draft : Draft) :
    (paths.foldlM addFile draft).Gives tree ((texts.foldlM Draft.addSource draft).mapError .unit) := by
  induction read generalizing draft with
  | nil => exact gives_pure draft tree
  | cons first _ ih =>
    rw [List.foldlM_cons, List.foldlM_cons]
    exact (gives_addFile first.1 first.2 draft).bind_mapError ih

/-- A run builds the program of its sources in turn. -/
theorem gives_build {tree : FileTree} (wellFormed : tree.WellFormed) {invocation : Invocation}
    {texts : List (String × String)} (sourced : tree.HasSources invocation.input texts) :
    (build invocation).Gives tree ((linkInTurn invocation.buildOptions texts).mapError .unit) := by
  obtain ⟨paths, found, read⟩ := exists_gives_sources wellFormed sourced
  refine found.bind ((gives_foldlM_addFile read _).bind_mapError fun draft => ?_)
  exact (gives_forM_report draft.finish.2 tree).bind (gives_pure draft.finish.1 tree)

/-- The path of an output: the one that is given, else beside a file or inside a directory. -/
inductive IsOutput (invocation : Invocation) (tree : FileTree) : String → Prop
  | given {path : String} (chosen : invocation.output = some path) : IsOutput invocation tree path
  | beside (unset : invocation.output = none) (file : tree.isDirectory invocation.input = false) :
      IsOutput invocation tree (withExtension invocation.input "asm")
  | inside {parent : Place} {name : String} (unset : invocation.output = none)
      (resolved : tree.resolve invocation.input = .ok (parent ++ [name]))
      (inside : tree.node? (parent ++ [name]) = some .directory) :
      IsOutput invocation tree (join (ofNames (parent ++ [name])) (name ++ ".asm"))

theorem gives_outputPath {invocation : Invocation} {tree : FileTree} {path : String}
    (output : invocation.IsOutput tree path) : (outputPath invocation).Gives tree (.ok path) := by
  rw [outputPath]
  cases output with
  | given chosen =>
    rw [chosen]
    exact gives_pure path tree
  | beside unset file =>
    rw [unset]
    refine (gives_files tree).bind ?_
    rw [file]
    exact gives_pure _ tree
  | @inside parent name unset resolved inside =>
    rw [unset]
    refine (gives_files tree).bind ?_
    rw [FileTree.isDirectory_eq_true_iff.mpr ⟨_, resolved, inside⟩, if_pos rfl, resolved]
    refine (gives_lift _ (.ok (parent ++ [name])) tree).bind ?_
    simpa using gives_pure (join (ofNames (parent ++ [name])) (name ++ ".asm")) tree

end Invocation

theorem fromUTF8?_toUTF8 (text : String) : String.fromUTF8? text.toUTF8 = some text := by
  rw [String.fromUTF8?, dif_pos (show text.toUTF8.IsValidUTF8 from text.isValidUTF8)]
  rfl

/-- A text that is written as the output is read from there. -/
theorem readText_overwrite {tree : FileTree} {path : String} {place : Place} (found : tree.target path = .ok place)
    (text : String) : (tree.overwrite place text.toUTF8).readText path = .ok text := by
  obtain ⟨parent, name, rfl, -⟩ := FileTree.exists_isTarget found
  refine FileTree.readText_of_hasText (FileTree.resolve_overwrite found _) ?_
  exact ⟨_, FileTree.node?_overwrite (by simp) _, fromUTF8?_toUTF8 text⟩

/-- A run writes what linking gives, or fails as linking does, unless a unit without code comes before a source that
cannot be read. -/
theorem run_agrees_with_linkSources {tree : FileTree} (wellFormed : tree.WellFormed) {invocation : Invocation}
    (readable : tree.IsReadable invocation.input) {path : String} (output : invocation.IsOutput tree path)
    (creatable : ∃ created, tree.create path = .ok created) :
    (∃ sources, tree.HasSources invocation.input sources) ∧
      ∀ sources, tree.HasSources invocation.input sources →
        ((∃ written, (invocation.run tree).result = .ok written) ↔
            ∃ lines, linkSources invocation.buildOptions sources = .ok lines) ∧
          (∀ lines, linkSources invocation.buildOptions sources = .ok lines →
            (invocation.run tree).result = .ok path ∧
              (invocation.run tree).files.readText path =
                .ok (String.join (lines.map fun line => line.render ++ "\n"))) ∧
          ∀ error, linkSources invocation.buildOptions sources = .error error →
            (∀ other, Overtakes invocation.buildOptions sources error other →
                (invocation.run tree).result = .error (.unit other)) ∧
              ((¬ ∃ other, Overtakes invocation.buildOptions sources error other) →
                (invocation.run tree).result = .error (.unit error)) := by
  refine ⟨readable.exists_sources wellFormed, fun sources sourced => ?_⟩
  have built := Invocation.gives_build wellFormed sourced
  obtain ⟨created, creatable⟩ := creatable
  obtain ⟨place, found, -⟩ := bind_eq_ok_iff.mp creatable
  have failing {error : UnitError} (failed : linkInTurn invocation.buildOptions sources = .error error) :
      (invocation.run tree).result = .error (.unit error) := by
    rw [failed] at built
    exact (Invocation.run_of_error built.bind_error).1
  have succeeding {lines : List Line} (linked : linkSources invocation.buildOptions sources = .ok lines) :
      (invocation.run tree).result = .ok path ∧
        (invocation.run tree).files = tree.overwrite place (Invocation.fileBytes lines) := by
    rw [linkInTurn_of_ok linked] at built
    exact Invocation.run_of_target built (Invocation.gives_outputPath output) found
  have failure {error : UnitError} (failed : linkSources invocation.buildOptions sources = .error error) :
      (∀ other, Overtakes invocation.buildOptions sources error other →
          (invocation.run tree).result = .error (.unit other)) ∧
        ((¬ ∃ other, Overtakes invocation.buildOptions sources error other) →
          (invocation.run tree).result = .error (.unit error)) :=
    ⟨fun _ overtakes => failing (linkInTurn_of_overtakes overtakes),
      fun alone => failing (linkInTurn_of_error failed alone)⟩
  refine ⟨⟨fun ⟨written, success⟩ => ?_, fun ⟨lines, linked⟩ => ⟨path, (succeeding linked).1⟩⟩, ?_, fun _ => failure⟩
  · cases linked : linkSources invocation.buildOptions sources with
    | ok lines => exact ⟨lines, rfl⟩
    | error error =>
      by_cases overtaken : ∃ other, Overtakes invocation.buildOptions sources error other
      · obtain ⟨other, overtakes⟩ := overtaken
        rw [(failure linked).1 other overtakes] at success
        contradiction
      · rw [(failure linked).2 overtaken] at success
        contradiction
  · intro lines linked
    obtain ⟨success, files⟩ := succeeding linked
    rw [files]
    exact ⟨success, readText_overwrite found _⟩

/-- A directory with a unit that has no code, one that cannot be read, and a file that is no source. -/
def mixedTree : FileTree where
  nodes :=
    [(["work"], .directory), (["work", "Prog"], .directory), (["work", "Prog", "B.vm"], .file "bogus".toUTF8),
      (["work", "Prog", "A.vm"], .file "pop constant 0".toUTF8), (["work", "Prog", "notes"], .file "add".toUTF8)]
  here := ["work"]

private theorem mixedTree_wellFormed : mixedTree.WellFormed where
  distinct := by decide
  named := by decide +kernel
  within := by
    intro entry member
    simp only [mixedTree, List.mem_cons, List.not_mem_nil, or_false] at member
    rcases member with rfl | rfl | rfl | rfl | rfl <;> rfl

private theorem mixedTree_isSource_iff {name : String} :
    mixedTree.IsSource "Prog" ["work", "Prog"] name ↔ name = "A.vm" ∨ name = "B.vm" := by
  constructor
  · rintro ⟨⟨bytes, file⟩, extension, -⟩
    have member := FileTree.mem_nodes_of_node? file (by simp)
    simp [mixedTree] at member
    rcases member with ⟨rfl, -⟩ | ⟨rfl, -⟩ | ⟨rfl, -⟩
    · exact .inr rfl
    · exact .inl rfl
    · exact absurd extension (by decide +kernel)
  · rintro (rfl | rfl)
    · exact ⟨⟨_, rfl⟩, by decide +kernel, by decide +kernel⟩
    · exact ⟨⟨_, rfl⟩, by decide +kernel, by decide +kernel⟩

private theorem mixedTree_resolve : mixedTree.resolve "Prog" = .ok ["work", "Prog"] := by decide +kernel

theorem run_agrees_with_linkSources_mixedTree :
    mixedTree.WellFormed ∧ mixedTree.IsReadable "Prog" ∧
      linkSources {} [("A", "pop constant 0"), ("B", "bogus")] =
        .error ⟨"B", 1, .reading (.unrecognizedMnemonic "bogus")⟩ ∧
      (Invocation.run { input := "Prog" } mixedTree).result =
        .error (.unit ⟨"A", 1, .lowering (.popToSegment .constant)⟩) := by
  have first : mixedTree.HasText ["work", "Prog", "A.vm"] "pop constant 0" := ⟨_, rfl, fromUTF8?_toUTF8 _⟩
  have second : mixedTree.HasText ["work", "Prog", "B.vm"] "bogus" := ⟨_, rfl, fromUTF8?_toUTF8 _⟩
  have readable : mixedTree.IsReadable "Prog" := by
    refine .directory mixedTree_resolve rfl (mixedTree_isSource_iff.mpr (.inl rfl)) fun name source => ?_
    rcases mixedTree_isSource_iff.mp source with rfl | rfl
    · exact ⟨_, first⟩
    · exact ⟨_, second⟩
  have sourced : mixedTree.HasSources "Prog" [("A", "pop constant 0"), ("B", "bogus")] := by
    refine @FileTree.HasSources.directory _ _ _ ["A.vm", "B.vm"] _ mixedTree_resolve rfl (by simp) ?_ ?_ ?_
    · simpa [bytesBefore_iff] using (by decide : "A.vm" < "B.vm")
    · simp [mixedTree_isSource_iff]
    · exact .cons ⟨by decide +kernel, first⟩ (.cons ⟨by decide +kernel, second⟩ .nil)
  have output : Invocation.IsOutput { input := "Prog" } mixedTree "/work/Prog/Prog.asm" :=
    @Invocation.IsOutput.inside _ _ ["work"] "Prog" rfl mixedTree_resolve rfl
  have failed : linkSources {} [("A", "pop constant 0"), ("B", "bogus")] =
      .error ⟨"B", 1, .reading (.unrecognizedMnemonic "bogus")⟩ := by decide +kernel
  have overtakes : Overtakes {} [("A", "pop constant 0"), ("B", "bogus")]
      ⟨"B", 1, .reading (.unrecognizedMnemonic "bogus")⟩ ⟨"A", 1, .lowering (.popToSegment .constant)⟩ :=
    ⟨[("A", "pop constant 0")], ("B", "bogus"), [], [⟨"A", [⟨1, .pop .constant 0⟩]⟩], rfl, by decide +kernel,
      by decide +kernel, link_eq_error_iff_firstFailure.mp (by decide +kernel)⟩
  have agrees := run_agrees_with_linkSources mixedTree_wellFormed readable output ⟨_, rfl⟩
  exact ⟨mixedTree_wellFormed, readable, failed, (agrees.2 _ sourced).2.2 _ failed |>.1 _ overtakes⟩

/-! ## Sources beyond the limit of a path -/

theorem Invocation.run_of_no_source {tree : FileTree} (wellFormed : tree.WellFormed) {invocation : Invocation}
    {place : Place} (resolved : tree.resolve invocation.input = .ok place)
    (inside : tree.node? place = some .directory) (absent : ∀ name, ¬ tree.IsSource invocation.input place name) :
    (invocation.run tree).result = .error (.noSources invocation.input) := by
  have missing := gives_sources_of_directory resolved inside
  rw [wellFormed.sourcePaths_eq resolved inside .nil fun name => by simp [absent name]] at missing
  exact (run_of_error (missing.bind_error.bind_error)).1

/-- A slash at the end of a directory's path changes nothing but its length. -/
theorem FileTree.resolve_slash {tree : FileTree} {path : String} {place : Place} (nonempty : path ≠ "")
    (resolved : tree.resolve path = .ok place) (inside : tree.node? place = some .directory)
    (fits : (path ++ "/").utf8ByteSize ≤ maxBytes) : tree.resolve (path ++ "/") = .ok place := by
  obtain ⟨checked, walked⟩ := resolve_eq_ok_iff.mp resolved
  have split : components (path ++ "/") = components path ++ components "" := by
    simpa using components_append path ""
  have start : tree.start (path ++ "/") = tree.start path := by
    have more : path.toList ≠ [] := by simpa using nonempty
    simp [FileTree.start, isAbsolute, List.head?_append_of_ne_nil _ more]
  have clean : '\x00' ∉ (path ++ "/").toList := by simpa using (checkPath_eq_ok_iff.mp checked).1
  rw [resolve_eq_ok_iff, split, start]
  exact ⟨checkPath_eq_ok_iff.mpr ⟨clean, fits⟩, walk_concat_eq_ok_iff.mpr ⟨place, walked, .stay inside rfl⟩⟩

/-- A path with slashes at its end. -/
def withSlashes (path : String) (count : Nat) : String := path ++ String.ofList (List.replicate count '/')

private theorem withSlashes_succ (path : String) (count : Nat) :
    withSlashes path (count + 1) = withSlashes path count ++ "/" := by
  apply String.toList_inj.mp
  simp [withSlashes, List.replicate_succ']

private theorem utf8ByteSize_withSlashes (path : String) (count : Nat) :
    (withSlashes path count).utf8ByteSize = path.utf8ByteSize + count := by
  induction count with
  | zero => simp [withSlashes]
  | succ count ih =>
    rw [withSlashes_succ, String.utf8ByteSize_append, ih]
    rfl

private theorem FileTree.resolve_withSlashes {tree : FileTree} {path : String} {place : Place} (nonempty : path ≠ "")
    (resolved : tree.resolve path = .ok place) (inside : tree.node? place = some .directory) {count : Nat}
    (fits : path.utf8ByteSize + count ≤ maxBytes) : tree.resolve (withSlashes path count) = .ok place := by
  induction count with
  | zero => simpa [withSlashes] using resolved
  | succ count ih =>
    have more : withSlashes path count ≠ "" := by simp [withSlashes, nonempty]
    rw [withSlashes_succ]
    apply resolve_slash more (ih (by omega)) inside
    rw [← withSlashes_succ, utf8ByteSize_withSlashes]
    exact fits

/-- A directory with one source. -/
def plainTree : FileTree where
  nodes := [(["work"], .directory), (["work", "Prog"], .directory), (["work", "Prog", "Main.vm"], .file "add".toUTF8)]
  here := ["work"]

private theorem plainTree_wellFormed : plainTree.WellFormed where
  distinct := by decide
  named := by decide +kernel
  within := by
    intro entry member
    simp only [plainTree, List.mem_cons, List.not_mem_nil, or_false] at member
    rcases member with rfl | rfl | rfl <;> rfl

private theorem plainTree_file_iff {name : String} {bytes : ByteArray} :
    plainTree.node? (["work", "Prog"] ++ [name]) = some (.file bytes) ↔ name = "Main.vm" ∧ bytes = "add".toUTF8 := by
  constructor
  · intro file
    have member := FileTree.mem_nodes_of_node? file (by simp)
    simpa [plainTree] using member
  · rintro ⟨rfl, rfl⟩
    rfl

/-- The only source of a directory is passed over when the path of the directory leaves no room for its name. -/
theorem source_passed_over_beyond_limit :
    plainTree.WellFormed ∧ plainTree.resolve (withSlashes "Prog" 4085) = .ok ["work", "Prog"] ∧
      plainTree.node? ["work", "Prog"] = some .directory ∧
      (∀ name bytes, plainTree.node? (["work", "Prog"] ++ [name]) = some (.file bytes) ∧ extension? name = some "vm" ↔
        name = "Main.vm" ∧ bytes = "add".toUTF8) ∧
      Invocation.IsOutput { input := withSlashes "Prog" 4085 } plainTree "/work/Prog/Prog.asm" ∧
      (∃ created, plainTree.create "/work/Prog/Prog.asm" = .ok created) ∧
      (∃ lines, linkSources {} [("Main", "add")] = .ok lines) ∧
      (Invocation.run { input := withSlashes "Prog" 4085 } plainTree).result =
        .error (.noSources (withSlashes "Prog" 4085)) := by
  have short : plainTree.resolve "Prog" = .ok ["work", "Prog"] := by decide +kernel
  have resolved : plainTree.resolve (withSlashes "Prog" 4085) = .ok ["work", "Prog"] :=
    FileTree.resolve_withSlashes (by decide) short rfl (by decide +kernel)
  have absent (name : String) : ¬ plainTree.IsSource (withSlashes "Prog" 4085) ["work", "Prog"] name := by
    rintro ⟨⟨bytes, file⟩, -, fits⟩
    obtain ⟨rfl, -⟩ := plainTree_file_iff.mp file
    have joined : join (withSlashes "Prog" 4085) "Main.vm" = withSlashes "Prog" 4085 ++ "Main.vm" := by
      rw [join, withSlashes_succ]
      simp
    rw [joined, String.utf8ByteSize_append, utf8ByteSize_withSlashes] at fits
    exact absurd fits (by decide +kernel)
  obtain ⟨lines, linked, -⟩ := @exists_of_any _ _ (linkSources {} [("Main", "add")]) (fun _ => true) (by decide +kernel)
  refine ⟨plainTree_wellFormed, resolved, rfl, fun name bytes => ?_, ?_, ⟨_, rfl⟩, ⟨lines, linked⟩, ?_⟩
  · rw [plainTree_file_iff]
    refine ⟨And.left, fun both => ⟨both, ?_⟩⟩
    rw [both.1]
    decide +kernel
  · exact @Invocation.IsOutput.inside _ _ ["work"] "Prog" rfl resolved rfl
  · exact Invocation.run_of_no_source plainTree_wellFormed resolved rfl absent

end HackVM
