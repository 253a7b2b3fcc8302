import HackVM.Proofs.RunAgreement

/-! # Default outputs

Without a path for the output, a run writes beside the file that it reads, or inside the directory that it
reads under the directory's own name. A name inside a directory ends with the extension of outputs, so it is no
source's name. Beside a file the extension is replaced, and the path is that of the file again exactly if the
file has the extension of outputs. Such a file is read as a source and overwritten; every other source stays.
-/

namespace HackVM

open HackVM.Path Runs

namespace Path

/-- What follows the last slash of a path is a name, and what comes before it is empty or ends with the slash. -/
theorem splitLast_spec (path : String) :
    path = (splitLast path).1 ++ (splitLast path).2 ∧ '/' ∉ (splitLast path).2.toList ∧
      ((splitLast path).1 = "" ∨ ∃ before, (splitLast path).1 = before ++ "/") := by
  cases split : path.toList.reverse.span (· != '/') with
  | mk last rest =>
    obtain ⟨whole, plain, stop⟩ := Text.span_eq_iff.mp split
    simp only [splitLast, split]
    refine ⟨?_, ?_, ?_⟩
    · apply String.toList_inj.mp
      rw [← List.reverse_inj, whole]
      simp
    · intro member
      have other := plain '/' (by simpa using member)
      contradiction
    · cases rest with
      | nil => exact .inl rfl
      | cons c before =>
        obtain rfl : c = '/' := by simpa using stop c rfl
        exact .inr ⟨String.ofList before.reverse, String.toList_inj.mp (by simp)⟩

/-- Where the last name of a path is replaced, the way to it stays. -/
theorem exists_front (path : String) :
    ∃ front absolute, ∀ name : String, '/' ∉ name.toList →
      components ((splitLast path).1 ++ name) = front ++ [name] ∧
        isAbsolute ((splitLast path).1 ++ name) = absolute := by
  obtain ⟨-, -, empty | ⟨before, slash⟩⟩ := splitLast_spec path
  · refine ⟨[], false, fun name noSlash => ?_⟩
    have other : name.toList.head? ≠ some '/' := fun first => noSlash (List.mem_of_head? first)
    rw [empty, String.empty_append, components_of_noSlash noSlash]
    exact ⟨rfl, by simpa [isAbsolute] using other⟩
  · refine ⟨components before, isAbsolute (before ++ "/"), fun name noSlash => ?_⟩
    rw [slash, components_append, components_of_noSlash noSlash]
    have more : (before ++ "/").toList ≠ [] := by simp
    exact ⟨rfl, by rw [isAbsolute, isAbsolute, String.toList_append, List.head?_append_of_ne_nil _ more]⟩

/-- A name without an extension is its stem; one with an extension is the stem, a dot and the extension. -/
theorem splitExtension_spec (name : String) :
    (splitExtension name = (name, none)) ∨
      ∃ stem extension, splitExtension name = (stem, some extension) ∧ name = stem ++ "." ++ extension := by
  cases split : name.toList.reverse.span (· != '.') with
  | mk last rest =>
    obtain ⟨whole, -, stop⟩ := Text.span_eq_iff.mp split
    simp only [splitExtension, split]
    rcases rest with _ | ⟨c, _ | ⟨d, stem⟩⟩
    · exact .inl rfl
    · exact .inl rfl
    · obtain rfl : c = '.' := by simpa using stop c rfl
      refine .inr ⟨_, _, rfl, String.toList_inj.mp ?_⟩
      rw [← List.reverse_inj, whole]
      simp

private theorem noSlash_stem {name : String} (noSlash : '/' ∉ name.toList) : '/' ∉ (splitExtension name).1.toList := by
  rcases splitExtension_spec name with split | ⟨stem, old, split, whole⟩
  · rwa [split]
  · rw [split]
    rw [whole] at noSlash
    simp only [String.toList_append, List.mem_append, not_or] at noSlash
    exact noSlash.1.1

/-- A name keeps its text under another extension only if it has the extension already. -/
theorem stem_append_eq_iff (name extension : String) :
    (splitExtension name).1 ++ "." ++ extension = name ↔ (splitExtension name).2 = some extension := by
  rcases splitExtension_spec name with split | ⟨stem, old, split, whole⟩
  · rw [split]
    refine ⟨fun same => ?_, fun some => by contradiction⟩
    have dot : ".".length = 1 := rfl
    have lengths := congrArg String.length same
    simp only [String.length_append, dot] at lengths
    omega
  · rw [split, Option.some.injEq]
    nth_rewrite 1 [whole]
    simp [eq_comm]

/-- A name that ends with the extension of outputs does not have that of sources. -/
theorem extension_append_asm (stem : String) : (splitExtension (stem ++ ".asm")).2 ≠ some "vm" := by
  intro extension
  have same := congrArg String.toList ((stem_append_eq_iff _ _).mpr extension)
  have reversed := congrArg List.reverse same
  simp at reversed

/-- Two paths that differ in their last names only. -/
structure Beside (path other name renamed : String) : Prop where
  way : ∃ front, components path = front ++ [name] ∧ components other = front ++ [renamed]
  absolute : isAbsolute other = isAbsolute path

/-- Another extension for a path is another last name, or a step to the parent. -/
theorem exists_beside_withExtension (path : String) {extension : String} (noSlash : '/' ∉ extension.toList) :
    ∃ name renamed, Beside path (withExtension path extension) name renamed ∧
      (renamed = ".." ∨ renamed = (splitExtension name).1 ++ "." ++ extension) := by
  obtain ⟨whole, plain, -⟩ := splitLast_spec path
  obtain ⟨front, absolute, replaced⟩ := exists_front path
  have beside {renamed : String} (noSlash : '/' ∉ renamed.toList) :
      Beside path ((splitLast path).1 ++ renamed) (splitLast path).2 renamed := by
    obtain ⟨split, start⟩ := replaced _ plain
    obtain ⟨splitToo, startToo⟩ := replaced _ noSlash
    rw [← whole] at split start
    exact ⟨⟨front, split, splitToo⟩, startToo.trans start.symm⟩
  have stemPlain := noSlash_stem plain
  rw [withExtension]
  dsimp only
  split
  · exact ⟨_, _, beside (by simp), .inl rfl⟩
  · next stem old _ split =>
    refine ⟨(splitLast path).2, _, ?_, .inr rfl⟩
    rw [split] at stemPlain ⊢
    have text : (splitLast path).1 ++ stem ++ "." ++ extension = (splitLast path).1 ++ (stem ++ "." ++ extension) := by
      simp only [String.append_assoc]
    rw [text]
    apply beside
    simp [stemPlain, noSlash]

end Path

/-! ## The target of a default output -/

namespace FileTree

variable {tree : FileTree} {input : String} {place output : Place} {bytes : ByteArray}

section Beside

variable (wellFormed : tree.WellFormed) (resolved : tree.resolve input = .ok place)
  (file : tree.node? place = some (.file bytes))
include wellFormed resolved file

/-- A file and the target of a path beside its own lie in one directory. -/
theorem WellFormed.target_beside {other name renamed : String} (beside : Beside input other name renamed)
    (found : tree.target other = .ok output) :
    renamed ≠ ".." ∧ extension? input = (splitExtension name).2 ∧
      ∃ parent, place = parent ++ [name] ∧ output = parent ++ [renamed] := by
  obtain ⟨parent, last, rfl, isTarget⟩ := exists_isTarget found
  obtain ⟨front, split, splitToo⟩ := beside.way
  obtain ⟨before, way, walked⟩ := isTarget.way
  obtain ⟨rfl, rfl⟩ : front = before ∧ renamed = last := by simpa using splitToo.symm.trans way
  obtain ⟨-, reached⟩ := resolve_eq_ok_iff.mp resolved
  rw [split, walk_concat_eq_ok_iff] at reached
  obtain ⟨middle, toMiddle, step⟩ := reached
  have start : tree.start other = tree.start input := by rw [FileTree.start, FileTree.start, beside.absolute]
  obtain rfl : middle = parent := by
    rw [start, toMiddle] at walked
    exact Except.ok.inj walked
  obtain ⟨rfl, named⟩ := wellFormed.step_to_file step file
  refine ⟨isTarget.notUp, ?_, middle, rfl, rfl⟩
  rw [extension?, fileName?_of_components named split]
  rfl

/-- The output beside a file is the file itself exactly if the file has the extension of outputs. -/
theorem WellFormed.target_withExtension_iff (found : tree.target (withExtension input "asm") = .ok output) :
    output = place ↔ extension? input = some "asm" := by
  obtain ⟨name, renamed, beside, up | rfl⟩ := exists_beside_withExtension input (show '/' ∉ "asm".toList by simp)
  · exact absurd up (wellFormed.target_beside resolved file beside found).1
  · obtain ⟨-, extension, parent, rfl, rfl⟩ := wellFormed.target_beside resolved file beside found
    rw [extension, ← stem_append_eq_iff, List.append_cancel_left_eq, List.cons.injEq, and_iff_left rfl]

end Beside

/-- The output inside a directory has a name that no source has. -/
theorem WellFormed.target_join_ne (wellFormed : tree.WellFormed) {directory : String} {stem name : String}
    (plain : '/' ∉ stem.toList) (file : tree.node? (place ++ [name]) = some (.file bytes))
    (extension : extension? name = some "vm") (found : tree.target (join directory (stem ++ ".asm")) = .ok output) :
    output ≠ place ++ [name] := by
  obtain ⟨parent, last, rfl, isTarget⟩ := exists_isTarget found
  obtain ⟨before, way, -⟩ := isTarget.way
  have noSlash : '/' ∉ (stem ++ ".asm").toList := by simp [plain]
  obtain ⟨front, split, -⟩ := components_join directory noSlash
  obtain ⟨-, rfl⟩ : front = before ∧ stem ++ ".asm" = last := by simpa using split.symm.trans way
  intro same
  obtain ⟨-, rfl⟩ : parent = place ∧ stem ++ ".asm" = name := by simpa using same
  have named : IsName (stem ++ ".asm") := wellFormed.isName (by rw [file]; rfl)
  have alone : components (stem ++ ".asm") = [] ++ [stem ++ ".asm"] := named.components_eq
  rw [extension?, fileName?_of_components named alone] at extension
  exact extension_append_asm stem extension

/-- The files that an input stands for: the input itself, whatever its extension, or those in a directory
that have the extension of sources. -/
inductive IsSourceFile (tree : FileTree) (input : String) : Place → Prop
  | itself {place : Place} {bytes : ByteArray} (resolved : tree.resolve input = .ok place)
      (file : tree.node? place = some (.file bytes)) : IsSourceFile tree input place
  | member {place : Place} {name : String} {bytes : ByteArray} (resolved : tree.resolve input = .ok place)
      (inside : tree.node? place = some .directory) (file : tree.node? (place ++ [name]) = some (.file bytes))
      (extension : extension? name = some "vm") : IsSourceFile tree input (place ++ [name])

/-- Whether an input is a file that has the extension of outputs already. -/
def isAssembly (tree : FileTree) (input : String) : Bool := tree.isFile input && extension? input = some "asm"

end FileTree

namespace Invocation

open Work

variable {tree : FileTree} {invocation : Invocation} {path : String}

private theorem isOutput_of_gives (chosen : (outputPath invocation).Gives tree (.ok path)) :
    invocation.IsOutput tree path := by
  have found {other : String} (output : invocation.IsOutput tree other) : invocation.IsOutput tree path := by
    obtain rfl : other = path := Except.ok.inj ((gives_outputPath output).unique chosen)
    exact output
  cases unset : invocation.output with
  | some given => exact found (.given unset)
  | none =>
    cases directory : tree.isDirectory invocation.input with
    | false => exact found (.beside unset directory)
    | true =>
      obtain ⟨place, resolved, inside⟩ := FileTree.isDirectory_eq_true_iff.mp directory
      rcases List.eq_nil_or_concat' place with rfl | ⟨parent, name, rfl⟩
      · -- the root has no name to give to an output
        have refused : (outputPath invocation).Gives tree (.error (.unnamedOutput (ofNames []))) := by
          rw [outputPath, unset]
          refine (gives_files tree).bind ?_
          rw [directory, if_pos rfl, resolved]
          exact (gives_lift _ (.ok []) tree).bind (gives_throw _ tree)
        cases refused.unique chosen
      · exact found (.inside unset resolved inside)

/-- A default output takes the place of a source only if the input is a file with the extension of outputs. -/
theorem target_eq_iff (wellFormed : tree.WellFormed) (unset : invocation.output = none)
    (output : invocation.IsOutput tree path) {target place : Place} (found : tree.target path = .ok target)
    (source : tree.IsSourceFile invocation.input place) :
    target = place ↔ tree.isAssembly invocation.input = true := by
  cases output with
  | given chosen => rw [unset] at chosen; contradiction
  | beside _ other =>
    cases source with
    | itself resolved file =>
      have isFile := FileTree.isFile_eq_true_iff.mpr ⟨_, _, resolved, file⟩
      rw [wellFormed.target_withExtension_iff resolved file found]
      simp [FileTree.isAssembly, isFile]
    | member resolved inside =>
      rw [FileTree.isDirectory_eq_true_iff.mpr ⟨_, resolved, inside⟩] at other
      contradiction
  | @inside parent name _ resolved inside =>
    have directory : tree.isFile invocation.input = false := by simp [FileTree.isFile, resolved, inside]
    have named : IsName name := wellFormed.isName (by rw [inside]; rfl)
    cases source with
    | itself same file =>
      rw [resolved] at same
      cases same
      rw [inside] at file
      cases file
    | member same _ file extension =>
      rw [resolved] at same
      cases same
      have different := wellFormed.target_join_ne named.noSlash file extension found
      rw [FileTree.isAssembly, directory, Bool.false_and]
      exact iff_of_false different Bool.false_ne_true

/-- A program is built from source files that are there. -/
theorem exists_sources_of_build (wellFormed : tree.WellFormed) {lines : List Line}
    (built : (build invocation).Gives tree (.ok lines)) :
    ∃ paths, (sources invocation.input).Gives tree (.ok paths) ∧
      ∀ source ∈ paths, ∃ place, tree.resolve source = .ok place ∧ tree.IsSourceFile invocation.input place := by
  cases directory : tree.isDirectory invocation.input with
  | true =>
    obtain ⟨place, resolved, inside⟩ := FileTree.isDirectory_eq_true_iff.mp directory
    have gives := gives_sources_of_directory resolved inside
    obtain ⟨names, paths, -, complete⟩ := wellFormed.exists_sourcePaths resolved inside
    split_ifs at gives with empty
    · cases gives.bind_error.unique built
    · refine ⟨_, gives, fun source member => ?_⟩
      rw [paths, List.mem_map] at member
      obtain ⟨name, member, rfl⟩ := member
      have isSource := (complete name).mp member
      obtain ⟨bytes, file⟩ := isSource.file
      have reached := wellFormed.resolve_of_isSource resolved inside isSource
      exact ⟨_, reached, .member resolved inside file isSource.extension⟩
  | false =>
    have gives := gives_sources_of_file directory
    refine ⟨_, gives, fun source member => ?_⟩
    obtain rfl : source = invocation.input := by simpa using member
    cases read : tree.readText invocation.input with
    | error error =>
      have unread : (readUnit invocation.input).Gives tree (.error (.unreadable invocation.input error)) := by
        refine (gives_files tree).bind ?_
        rw [read]
        exact (gives_lift _ (.error error) tree).bind_error
      have failed : (build invocation).Gives tree (.error (.unreadable invocation.input error)) := by
        refine gives.bind (Gives.bind_error ?_)
        rw [List.foldlM_cons]
        exact unread.bind_error.bind_error
      cases failed.unique built
    | ok text =>
      obtain ⟨bytes, found, -⟩ := FileTree.readText_eq_ok_iff.mp read
      obtain ⟨place, resolved, file⟩ := FileTree.readBytes_eq_ok_iff.mp found
      exact ⟨place, resolved, .itself resolved file⟩

/-- A run on a file that links writes the program beside it. -/
theorem run_of_file (wellFormed : tree.WellFormed) (unset : invocation.output = none) {stem text : String}
    (named : stem? invocation.input = some stem) (readable : tree.readText invocation.input = .ok text)
    {lines : List Line} (linked : linkInTurn invocation.buildOptions [(stem, text)] = .ok lines) {place : Place}
    (found : tree.target (withExtension invocation.input "asm") = .ok place) :
    (invocation.run tree).result = .ok (withExtension invocation.input "asm") ∧
      (invocation.run tree).files = tree.overwrite place (fileBytes lines) := by
  have built := gives_build wellFormed (.file readable named)
  rw [linked] at built
  have output : invocation.IsOutput tree _ := .beside unset (FileTree.isDirectory_of_readText readable)
  exact run_of_target built (gives_outputPath output) found

end Invocation

open Work Invocation

/-- A run with a default output leaves its sources as they were, unless the input is a file that has the extension
of outputs already. -/
theorem default_output_spares_sources {tree : FileTree} (wellFormed : tree.WellFormed) {invocation : Invocation}
    (unset : invocation.output = none) {path : String} (success : (invocation.run tree).result = .ok path) :
    ∃ paths lines, (sources invocation.input).Gives tree (.ok paths) ∧ (build invocation).Gives tree (.ok lines) ∧
      (∀ source ∈ paths, ∃ place, tree.resolve source = .ok place ∧ tree.IsSourceFile invocation.input place) ∧
      ∀ place, tree.IsSourceFile invocation.input place →
        (tree.target path = .ok place ↔ tree.isAssembly invocation.input = true) ∧
        (invocation.run tree).files.node? place =
          if tree.isAssembly invocation.input then some (.file (fileBytes lines)) else tree.node? place := by
  rcases invocation.run_outcome tree with ⟨error, failed, -⟩ | succeeded
  · rw [failed] at success
    contradiction
  obtain ⟨lines, chosen, target, built, gives, found, result, files⟩ := succeeded
  obtain rfl : chosen = path := by
    rw [result] at success
    exact Except.ok.inj success
  obtain ⟨paths, sources, present⟩ := exists_sources_of_build wellFormed built
  refine ⟨paths, lines, sources, built, present, fun place source => ?_⟩
  have same := target_eq_iff wellFormed unset (isOutput_of_gives gives) found source
  refine ⟨by rw [found, Except.ok.injEq, same], ?_⟩
  rw [files]
  split_ifs with assembly
  · obtain rfl := same.mpr assembly
    obtain ⟨parent, name, rfl, -⟩ := FileTree.exists_isTarget found
    exact FileTree.node?_overwrite (by simp) _
  · have different : place ≠ target := fun equal => assembly (same.mp equal.symm)
    exact FileTree.node?_overwrite_of_ne different _

/-- Two source files with the extension of outputs at their ends. The second has no stem in front of it, so
there it is no extension. -/
def assemblyTree : FileTree where
  nodes :=
    [(["work"], .directory), (["work", "Main.asm"], .file "goto END\n".toUTF8),
      (["work", ".asm"], .file "goto END\n".toUTF8)]
  here := ["work"]

private theorem assemblyTree_wellFormed : assemblyTree.WellFormed where
  distinct := by decide
  named := by decide +kernel
  within := by
    intro entry member
    simp only [assemblyTree, List.mem_cons, List.not_mem_nil, or_false] at member
    rcases member with rfl | rfl | rfl <;> rfl

private theorem assemblyTree_readText {path : String} {place : Place} (resolved : assemblyTree.resolve path = .ok place)
    (file : assemblyTree.node? place = some (.file "goto END\n".toUTF8)) :
    assemblyTree.readText path = .ok "goto END\n" :=
  FileTree.readText_of_hasText resolved ⟨_, file, fromUTF8?_toUTF8 _⟩

/-- The file without an extension gets an output of its own, and stays as it was. -/
theorem default_output_spares_assemblyTree :
    assemblyTree.WellFormed ∧ (Invocation.run { input := ".asm" } assemblyTree).result = .ok ".asm.asm" ∧
      assemblyTree.IsSourceFile ".asm" ["work", ".asm"] ∧
      (Invocation.run { input := ".asm" } assemblyTree).files.node? ["work", ".asm"] =
        some (.file "goto END\n".toUTF8) := by
  have resolved : assemblyTree.resolve ".asm" = .ok ["work", ".asm"] := by decide +kernel
  have source : assemblyTree.IsSourceFile ".asm" ["work", ".asm"] := .itself resolved rfl
  have found : assemblyTree.target (withExtension ".asm" "asm") = .ok ["work", ".asm.asm"] := by decide +kernel
  obtain ⟨lines, linked, -⟩ := @exists_of_any _ _ (linkInTurn {} [(".asm", "goto END\n")]) (fun _ => true)
    (by decide +kernel)
  have success : (Invocation.run { input := ".asm" } assemblyTree).result = .ok ".asm.asm" :=
    (@run_of_file assemblyTree { input := ".asm" } assemblyTree_wellFormed rfl ".asm" _ (by decide +kernel)
      (assemblyTree_readText resolved rfl) lines linked _ found).1
  obtain ⟨_, _, -, -, -, spared⟩ := default_output_spares_sources assemblyTree_wellFormed rfl success
  have bare : assemblyTree.isAssembly ".asm" = false := by decide +kernel
  have kept := (spared _ source).2
  rw [bare] at kept
  exact ⟨assemblyTree_wellFormed, success, source, kept⟩

/-- A source file with the extension of outputs is lost: the run succeeds, and where the source was there is the
program. -/
theorem assembly_input_overwritten :
    assemblyTree.WellFormed ∧ assemblyTree.IsSourceFile "Main.asm" ["work", "Main.asm"] ∧
      assemblyTree.readText "Main.asm" = .ok "goto END\n" ∧
      (Invocation.run { input := "Main.asm", noComments := true } assemblyTree).result = .ok "Main.asm" ∧
      (Invocation.run { input := "Main.asm", noComments := true } assemblyTree).files.readText "Main.asm" =
        .ok "@Main$END\n0;JMP\n" := by
  have resolved : assemblyTree.resolve "Main.asm" = .ok ["work", "Main.asm"] := by decide +kernel
  have readable := assemblyTree_readText resolved rfl
  have found : assemblyTree.target (withExtension "Main.asm" "asm") = .ok ["work", "Main.asm"] := by decide +kernel
  obtain ⟨lines, linked, text⟩ := @exists_of_any _ _ (linkInTurn { annotate := false } [("Main", "goto END\n")])
    (fun lines => String.join (lines.map fun line => line.render ++ "\n") = "@Main$END\n0;JMP\n") (by decide +kernel)
  obtain ⟨success, files⟩ := @run_of_file assemblyTree { input := "Main.asm", noComments := true }
    assemblyTree_wellFormed rfl "Main" _ (by decide +kernel) readable lines linked _ found
  refine ⟨assemblyTree_wellFormed, .itself resolved rfl, readable, success, ?_⟩
  rw [files, fileBytes, of_decide_eq_true text]
  exact readText_overwrite found _

end HackVM
