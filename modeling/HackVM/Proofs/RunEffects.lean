import HackVM.CommandLine.Run
import HackVM.Proofs.FileTrees

/-! # What a run does to the files

Reading the sources, building the program and choosing the output leave the files alone, whether they
succeed or fail. Only then is the output created, and from there on nothing fails. So a run that fails
has changed nothing, and one that succeeds has changed its output only.
-/

namespace HackVM

open Runs

namespace Work

variable {α β σ : Type}

/-- Work that leaves the files of a tree as they are and comes to a result, whatever was reported before. -/
def Gives (work : Work α) (tree : FileTree) (result : Except RunError α) : Prop :=
  ∀ log, ∃ more, work ⟨log, tree⟩ =
    match result with
    | .ok value => .ok value ⟨more, tree⟩
    | .error error => .error error ⟨more, tree⟩

theorem gives_pure (value : α) (tree : FileTree) : Gives (pure value) tree (.ok value) :=
  fun log => ⟨log, rfl⟩

theorem gives_throw (error : RunError) (tree : FileTree) : Gives (throw error : Work α) tree (.error error) :=
  fun log => ⟨log, rfl⟩

theorem gives_files (tree : FileTree) : files.Gives tree (.ok tree) :=
  fun log => ⟨log, rfl⟩

theorem gives_report (event : Event) (tree : FileTree) : (report event).Gives tree (.ok ()) :=
  fun log => ⟨log ++ [event], rfl⟩

theorem gives_lift {ε : Type} (explain : ε → RunError) (action : Except ε α) (tree : FileTree) :
    (lift explain action).Gives tree (action.mapError explain) := by
  cases action with
  | ok value => exact gives_pure value tree
  | error error => exact gives_throw (explain error) tree

theorem Gives.bind {work : Work α} {next : α → Work β} {tree : FileTree} {value : α} {result : Except RunError β}
    (first : work.Gives tree (.ok value)) (second : (next value).Gives tree result) :
    (work >>= next).Gives tree result := by
  intro log
  obtain ⟨more, ran⟩ := first log
  obtain ⟨most, ran'⟩ := second more
  refine ⟨most, ?_⟩
  rw [← ran']
  simp only [Bind.bind, EStateM.bind, ran]

theorem Gives.bind_error {work : Work α} {next : α → Work β} {tree : FileTree} {error : RunError}
    (failed : work.Gives tree (.error error)) : (work >>= next).Gives tree (.error error) := by
  intro log
  obtain ⟨more, ran⟩ := failed log
  exact ⟨more, by simp only [Bind.bind, EStateM.bind, ran]⟩

/-- Work on a tree comes to one result. -/
theorem Gives.unique {work : Work α} {tree : FileTree} {first second : Except RunError α}
    (former : work.Gives tree first) (latter : work.Gives tree second) : first = second := by
  obtain ⟨more, ran⟩ := former []
  obtain ⟨most, ranToo⟩ := latter []
  rw [ran] at ranToo
  cases first <;> cases second <;> simp_all

/-- Work in steps that follow those of an action without effects. -/
theorem Gives.bind_mapError {ε : Type} {explain : ε → RunError} {work : Work α} {next : α → Work β} {tree : FileTree}
    {action : Except ε α} {later : α → Except ε β} (first : work.Gives tree (action.mapError explain))
    (second : ∀ value, (next value).Gives tree ((later value).mapError explain)) :
    (work >>= next).Gives tree ((action >>= later).mapError explain) := by
  cases action with
  | error error => exact first.bind_error
  | ok value => exact first.bind (second value)

theorem gives_forM_report (events : List Event) (tree : FileTree) : Gives (events.forM report) tree (.ok ()) := by
  induction events with
  | nil => exact gives_pure () tree
  | cons event rest ih => exact (gives_report event tree).bind ih

/-- Work that leaves every tree as it is. -/
def KeepsFiles (work : Work α) : Prop := ∀ tree, ∃ result, work.Gives tree result

private theorem keepsFiles_pure (value : α) : KeepsFiles (pure value) := fun tree => ⟨_, gives_pure value tree⟩

private theorem keepsFiles_throw (error : RunError) : KeepsFiles (throw error : Work α) :=
  fun tree => ⟨_, gives_throw error tree⟩

private theorem keepsFiles_files : KeepsFiles files := fun tree => ⟨_, gives_files tree⟩

private theorem keepsFiles_report (event : Event) : KeepsFiles (report event) :=
  fun tree => ⟨_, gives_report event tree⟩

private theorem keepsFiles_lift {ε : Type} (explain : ε → RunError) (action : Except ε α) :
    KeepsFiles (lift explain action) :=
  fun tree => ⟨_, gives_lift explain action tree⟩

theorem KeepsFiles.bind {work : Work α} {next : α → Work β} (first : KeepsFiles work)
    (second : ∀ value, KeepsFiles (next value)) : KeepsFiles (work >>= next) := by
  intro tree
  obtain ⟨result, gives⟩ := first tree
  cases result with
  | error error => exact ⟨_, gives.bind_error⟩
  | ok value =>
    obtain ⟨result, later⟩ := second value tree
    exact ⟨result, gives.bind later⟩

private theorem keepsFiles_foldlM {step : σ → α → Work σ} (kept : ∀ state item, KeepsFiles (step state item))
    (items : List α) (start : σ) : KeepsFiles (items.foldlM step start) := by
  induction items generalizing start with
  | nil => exact keepsFiles_pure start
  | cons item rest ih =>
    rw [List.foldlM_cons]
    exact (kept start item).bind ih

end Work

namespace Invocation

open Work

private theorem keepsFiles_sources (input : String) : KeepsFiles (sources input) := by
  refine keepsFiles_files.bind fun tree => ?_
  split
  · refine (keepsFiles_lift _ _).bind fun place => ?_
    dsimp only
    split
    · exact (keepsFiles_throw _).bind fun _ => keepsFiles_pure _
    · exact (keepsFiles_pure _).bind fun _ => keepsFiles_pure _
  · split
    · exact (keepsFiles_report _).bind fun _ => keepsFiles_pure _
    · exact (keepsFiles_pure _).bind fun _ => keepsFiles_pure _

private theorem keepsFiles_readUnit (path : String) : KeepsFiles (readUnit path) := by
  refine keepsFiles_files.bind fun tree => (keepsFiles_lift _ _).bind fun text => ?_
  split
  · exact keepsFiles_throw _
  · refine (keepsFiles_lift _ _).bind fun unit => ?_
    exact (keepsFiles_report _).bind fun _ => keepsFiles_pure _

private theorem keepsFiles_addFile (draft : Draft) (path : String) : KeepsFiles (addFile draft path) := by
  refine (keepsFiles_readUnit path).bind fun unit => (keepsFiles_lift _ _).bind fun (next, event) => ?_
  exact (keepsFiles_report event).bind fun _ => keepsFiles_pure next

private theorem keepsFiles_build (invocation : Invocation) : KeepsFiles (build invocation) := by
  refine (keepsFiles_sources _).bind fun paths => ?_
  refine (keepsFiles_foldlM keepsFiles_addFile paths _).bind fun draft => ?_
  exact KeepsFiles.bind (fun tree => ⟨_, gives_forM_report _ tree⟩) fun _ => keepsFiles_pure _

private theorem keepsFiles_outputPath (invocation : Invocation) : KeepsFiles (outputPath invocation) := by
  rw [outputPath]
  split
  · exact keepsFiles_pure _
  · refine keepsFiles_files.bind fun tree => ?_
    split
    · refine (keepsFiles_lift _ _).bind fun place => ?_
      dsimp only
      split
      · exact keepsFiles_pure _
      · exact keepsFiles_throw _
    · exact keepsFiles_pure _

end Invocation

/-! ## Writing the output -/

/-- A file created at a place and then written. -/
def FileTree.overwrite (tree : FileTree) (place : Place) (bytes : ByteArray) : FileTree :=
  (tree.put place (.file .empty)).put place (.file bytes)

namespace FileTree

variable {tree : FileTree} {place : Place}

theorem node?_overwrite (below : place ≠ []) (bytes : ByteArray) :
    (tree.overwrite place bytes).node? place = some (.file bytes) :=
  node?_put _ below _

theorem node?_overwrite_of_ne {other : Place} (different : other ≠ place) (bytes : ByteArray) :
    (tree.overwrite place bytes).node? other = tree.node? other := by
  rw [overwrite, node?_put_of_ne _ different, node?_put_of_ne _ different]

private theorem keeps_overwrite (below : place ≠ []) (free : tree.node? place ≠ some .directory) (bytes : ByteArray) :
    tree.Keeps (tree.overwrite place bytes) := by
  have emptied : (tree.put place (.file .empty)).node? place = some (.file .empty) := node?_put tree below _
  exact (keeps_put below free .empty).trans (keeps_put below (by simp [emptied]) bytes)

/-- An overwritten target is what its path leads to. -/
theorem resolve_overwrite {path : String} (found : tree.target path = .ok place) (bytes : ByteArray) :
    (tree.overwrite place bytes).resolve path = .ok place := by
  obtain ⟨parent, name, rfl, isTarget⟩ := exists_isTarget found
  have below : parent ++ [name] ≠ [] := by simp
  exact isTarget.resolve (keeps_overwrite below isTarget.free bytes) (node?_overwrite below bytes)

end FileTree

namespace Invocation

open Work

private theorem gives_createFile_of_error {tree : FileTree} {path : String} {error : FileError}
    (refused : tree.target path = .error error) :
    (createFile path).Gives tree (.error (.unwritable path error)) := by
  have create : tree.create path = .error error := by rw [FileTree.create, refused]; rfl
  refine (gives_files tree).bind (Gives.bind_error ?_)
  rw [create]
  exact gives_lift _ _ tree

private theorem createFile_of_target {tree : FileTree} {path : String} {place : Place}
    (found : tree.target path = .ok place) (log : List Event) :
    createFile path ⟨log, tree⟩ = .ok place ⟨log, tree.put place (.file .empty)⟩ := by
  have create : tree.create path = .ok (place, tree.put place (.file .empty)) := by rw [FileTree.create, found]; rfl
  refine state_bind_eq_ok_iff.mpr ⟨tree, _, rfl, ?_⟩
  rw [create]
  rfl

/-- Once the program is built and the output has a target, nothing fails. -/
theorem carryOut_of_target {invocation : Invocation} {tree : FileTree} {lines : List Line} {path : String}
    {place : Place} (built : (build invocation).Gives tree (.ok lines))
    (chosen : (outputPath invocation).Gives tree (.ok path)) (found : tree.target path = .ok place) (log : List Event) :
    ∃ more, carryOut invocation ⟨log, tree⟩ = .ok path ⟨more, tree.overwrite place (fileBytes lines)⟩ := by
  obtain ⟨log, built⟩ := built log
  obtain ⟨log, chosen⟩ := chosen log
  refine ⟨log ++ [.wrote lines.length path], ?_⟩
  refine state_bind_eq_ok_iff.mpr ⟨_, _, built, ?_⟩
  refine state_bind_eq_ok_iff.mpr ⟨_, _, chosen, ?_⟩
  exact state_bind_eq_ok_iff.mpr ⟨_, _, createFile_of_target found log, rfl⟩

theorem run_of_error {invocation : Invocation} {tree : FileTree} {error : RunError}
    (failed : (carryOut invocation).Gives tree (.error error)) :
    (invocation.run tree).result = .error error ∧ (invocation.run tree).files = tree := by
  obtain ⟨log, failed⟩ := failed []
  simp [run, failed]

theorem run_of_target {invocation : Invocation} {tree : FileTree} {lines : List Line} {path : String} {place : Place}
    (built : (build invocation).Gives tree (.ok lines)) (chosen : (outputPath invocation).Gives tree (.ok path))
    (found : tree.target path = .ok place) :
    (invocation.run tree).result = .ok path ∧
      (invocation.run tree).files = tree.overwrite place (fileBytes lines) := by
  obtain ⟨log, succeeded⟩ := carryOut_of_target built chosen found []
  simp [run, succeeded]

/-- A run fails with the files as they were, or writes the program that it builds to the output that it chooses. -/
theorem run_outcome (invocation : Invocation) (tree : FileTree) :
    (∃ error, (invocation.run tree).result = .error error ∧ (invocation.run tree).files = tree) ∨
      ∃ lines path place, (build invocation).Gives tree (.ok lines) ∧ (outputPath invocation).Gives tree (.ok path) ∧
        tree.target path = .ok place ∧ (invocation.run tree).result = .ok path ∧
        (invocation.run tree).files = tree.overwrite place (fileBytes lines) := by
  -- every failure below lies before the output is created
  obtain ⟨built | lines, built⟩ := keepsFiles_build invocation tree
  · exact .inl ⟨_, run_of_error built.bind_error⟩
  obtain ⟨error | path, chosen⟩ := keepsFiles_outputPath invocation tree
  · exact .inl ⟨_, run_of_error (built.bind chosen.bind_error)⟩
  cases found : tree.target path with
  | error error =>
    have refused := gives_createFile_of_error found
    exact .inl ⟨_, run_of_error (built.bind (chosen.bind refused.bind_error))⟩
  | ok place => exact .inr ⟨lines, path, place, built, chosen, found, run_of_target built chosen found⟩

end Invocation

/-- A run that fails leaves the files as they were. One that succeeds writes the program and
leaves everything else. -/
theorem run_all_or_nothing (invocation : Invocation) (tree : FileTree) :
    (∀ error, (invocation.run tree).result = .error error → (invocation.run tree).files = tree) ∧
      ∀ path, (invocation.run tree).result = .ok path →
        ∃ place lines, tree.target path = .ok place ∧ tree.node? place ≠ some .directory ∧
          (invocation.run tree).files.resolve path = .ok place ∧
          (Invocation.build invocation).Gives tree (.ok lines) ∧
          (invocation.run tree).files.node? place = some (.file (Invocation.fileBytes lines)) ∧
          ∀ other, other ≠ place → (invocation.run tree).files.node? other = tree.node? other := by
  rcases invocation.run_outcome tree with ⟨error, failed, same⟩ | ⟨lines, path, place, built, -, found, ran, files⟩
  · refine ⟨fun _ _ => same, fun path succeeded => ?_⟩
    rw [failed] at succeeded
    contradiction
  · refine ⟨fun error failed => ?_, fun returned success => ?_⟩
    · rw [ran] at failed
      contradiction
    · rw [ran] at success
      cases success
      rw [files]
      obtain ⟨parent, name, rfl, isTarget⟩ := FileTree.exists_isTarget found
      exact ⟨_, lines, found, isTarget.free, FileTree.resolve_overwrite found _, built,
        FileTree.node?_overwrite (by simp) _, fun _ different => FileTree.node?_overwrite_of_ne different _⟩

end HackVM
