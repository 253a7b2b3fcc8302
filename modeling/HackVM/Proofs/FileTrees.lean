import HackVM.Files.Tree
import HackVM.Proofs.Paths
import HackVM.Proofs.Runs
import Mathlib.Data.List.Nodup

/-! # Walks in file trees

A walk is a chain of steps, one for each component of a path. A tree that keeps what stood in an earlier
one, up to the contents of files, keeps its walks, so a file that was put at the place of a path is what
the path leads to. In a well-formed tree a name joined to a directory's path leads to what has that name
in the directory.
-/

namespace HackVM.FileTree

open HackVM.Path Runs

/-! ## Putting something at a place -/

theorem lookup_map_put (nodes : List (Place × FileNode)) (place other : Place) (node : FileNode) :
    (nodes.map fun entry => if entry.1 = place then (place, node) else entry).lookup other =
      if other = place then (nodes.lookup place).map fun _ => node else nodes.lookup other := by
  induction nodes with
  | nil => simp
  | cons entry rest ih =>
    obtain ⟨first, old⟩ := entry
    simp only [List.map_cons, List.lookup_cons]
    grind

@[simp] theorem here_put (tree : FileTree) (place : Place) (node : FileNode) :
    (tree.put place node).here = tree.here := by
  rw [put]
  split <;> rfl

theorem node?_put (tree : FileTree) {place : Place} (below : place ≠ []) (node : FileNode) :
    (tree.put place node).node? place = some node := by
  rw [node?, if_neg below, put]
  split
  · next present =>
    obtain ⟨old, found⟩ := Option.isSome_iff_exists.mp present
    simp [lookup_map_put, found]
  · next missing => simp [List.lookup_append, Option.not_isSome_iff_eq_none.mp missing]

theorem node?_put_of_ne (tree : FileTree) {place other : Place} (different : other ≠ place) (node : FileNode) :
    (tree.put place node).node? other = tree.node? other := by
  rw [node?, node?, put]
  split
  · rfl
  split
  · simp [lookup_map_put, different]
  · simp [List.lookup_append, List.lookup_cons, beq_false_of_ne different]

/-! ## Walks -/

/-- One component leads from a place to another. -/
inductive Step (tree : FileTree) (place : Place) : String → Place → Prop
  | stay {component : String} (directory : tree.node? place = some .directory) (idle : isIdle component = true) :
      Step tree place component place
  | up {component : String} (directory : tree.node? place = some .directory) (up : component = "..") :
      Step tree place component place.dropLast
  | down {component : String} {node : FileNode} (directory : tree.node? place = some .directory)
      (busy : isIdle component = false) (notUp : component ≠ "..")
      (present : tree.child? place component = .ok (some node)) : Step tree place component (place ++ [component])

theorem Step.directory {tree : FileTree} {place next : Place} {component : String}
    (step : tree.Step place component next) : tree.node? place = some .directory := by
  cases step <;> assumption

private theorem walk_cons_eq_ok_iff {tree : FileTree} {place final : Place} {component : String} {rest : List String} :
    tree.walk place (component :: rest) = .ok final ↔
      ∃ next, tree.Step place component next ∧ tree.walk next rest = .ok final := by
  constructor
  · intro walked
    rw [walk] at walked
    split at walked
    · next directory =>
      split_ifs at walked with idle up
      · exact ⟨place, .stay directory idle, walked⟩
      · exact ⟨_, .up directory up, walked⟩
      · split at walked
        · next present => exact ⟨_, .down directory (Bool.not_eq_true _ ▸ idle) up present, walked⟩
        · contradiction
        · contradiction
    · contradiction
  · rintro ⟨next, step, walked⟩
    have directory := step.directory
    cases step with
    | stay _ idle => simpa [walk, directory, idle] using walked
    | up _ up => simpa [walk, directory, up, show isIdle ".." = false by decide] using walked
    | down _ busy notUp present => simpa [walk, directory, busy, notUp, present] using walked

/-- A walk can be cut anywhere. -/
theorem walk_append_eq_ok_iff {tree : FileTree} {place final : Place} {before after : List String} :
    tree.walk place (before ++ after) = .ok final ↔
      ∃ middle, tree.walk place before = .ok middle ∧ tree.walk middle after = .ok final := by
  induction before generalizing place with
  | nil => simp [walk]
  | cons component rest ih =>
    simp only [List.cons_append, walk_cons_eq_ok_iff, ih]
    constructor
    · rintro ⟨next, step, middle, first, second⟩
      exact ⟨middle, ⟨next, step, first⟩, second⟩
    · rintro ⟨middle, ⟨next, step, first⟩, second⟩
      exact ⟨next, step, middle, first, second⟩

theorem walk_concat_eq_ok_iff {tree : FileTree} {place final : Place} {before : List String} {component : String} :
    tree.walk place (before ++ [component]) = .ok final ↔
      ∃ middle, tree.walk place before = .ok middle ∧ tree.Step middle component final := by
  have ends (middle last : Place) : tree.walk middle [] = .ok last ↔ middle = last := by simp [walk]
  simp only [walk_append_eq_ok_iff, walk_cons_eq_ok_iff, ends, exists_eq_right]

theorem resolve_eq_ok_iff {tree : FileTree} {path : String} {place : Place} :
    tree.resolve path = .ok place ↔
      checkPath path = .ok () ∧ tree.walk (tree.start path) (components path) = .ok place := by
  rw [resolve, bind_eq_ok_iff]
  exact ⟨fun ⟨(), checked, walked⟩ => ⟨checked, walked⟩, fun ⟨checked, walked⟩ => ⟨(), checked, walked⟩⟩

theorem isDirectory_eq_true_iff {tree : FileTree} {path : String} :
    tree.isDirectory path = true ↔ ∃ place, tree.resolve path = .ok place ∧ tree.node? place = some .directory := by
  rw [isDirectory]
  grind

theorem isFile_eq_true_iff {tree : FileTree} {path : String} :
    tree.isFile path = true ↔ ∃ place bytes, tree.resolve path = .ok place ∧ tree.node? place = some (.file bytes) := by
  rw [isFile]
  grind

theorem readBytes_eq_ok_iff {tree : FileTree} {path : String} {bytes : ByteArray} :
    tree.readBytes path = .ok bytes ↔
      ∃ place, tree.resolve path = .ok place ∧ tree.node? place = some (.file bytes) := by
  rw [readBytes, bind_eq_ok_iff]
  refine exists_congr fun place => and_congr_right fun _ => ?_
  split <;> simp_all [pure, Except.pure, throw, throwThe, MonadExceptOf.throw]

theorem readText_eq_ok_iff {tree : FileTree} {path text : String} :
    tree.readText path = .ok text ↔ ∃ bytes, tree.readBytes path = .ok bytes ∧ String.fromUTF8? bytes = some text := by
  rw [readText, bind_eq_ok_iff]
  refine exists_congr fun bytes => and_congr_right fun _ => ?_
  split <;> simp_all [pure, Except.pure, throw, throwThe, MonadExceptOf.throw]

/-! ## Trees that keep what stood in an earlier one -/

/-- Directories stay, and where something stood something stands. -/
structure Keeps (tree later : FileTree) : Prop where
  here : later.here = tree.here
  directory {place : Place} : tree.node? place = some .directory → later.node? place = some .directory
  present {place : Place} : (tree.node? place).isSome → (later.node? place).isSome

theorem Keeps.trans {first second third : FileTree} (former : first.Keeps second) (latter : second.Keeps third) :
    first.Keeps third where
  here := latter.here.trans former.here
  directory found := latter.directory (former.directory found)
  present found := latter.present (former.present found)

/-- A file that takes no directory's place keeps all else. -/
theorem keeps_put {tree : FileTree} {place : Place} (below : place ≠ []) (free : tree.node? place ≠ some .directory)
    (bytes : ByteArray) : tree.Keeps (tree.put place (.file bytes)) where
  here := here_put ..
  directory {other} found := by
    have different : other ≠ place := fun same => free (same ▸ found)
    rwa [node?_put_of_ne tree different]
  present {other} found := by
    by_cases same : other = place
    · rw [same, node?_put tree below]
      rfl
    · rwa [node?_put_of_ne tree same]

theorem Keeps.step {tree later : FileTree} (keeps : tree.Keeps later) {place next : Place} {component : String}
    (step : tree.Step place component next) : later.Step place component next := by
  cases step with
  | stay directory idle => exact .stay (keeps.directory directory) idle
  | up directory up => exact .up (keeps.directory directory) up
  | down directory busy notUp present =>
    rw [child?] at present
    split_ifs at present with long
    have found := keeps.present (Option.isSome_of_mem (Except.ok.inj present))
    obtain ⟨node, found⟩ := Option.isSome_iff_exists.mp found
    exact .down (keeps.directory directory) busy notUp (by rw [child?, if_neg long, found])

theorem Keeps.walk {tree later : FileTree} (keeps : tree.Keeps later) {place final : Place} {way : List String}
    (walked : tree.walk place way = .ok final) : later.walk place way = .ok final := by
  induction way generalizing place with
  | nil => exact walked
  | cons component rest ih =>
    obtain ⟨next, step, walked⟩ := walk_cons_eq_ok_iff.mp walked
    exact walk_cons_eq_ok_iff.mpr ⟨next, keeps.step step, ih walked⟩

theorem Keeps.start {tree later : FileTree} (keeps : tree.Keeps later) (path : String) :
    later.start path = tree.start path := by
  rw [FileTree.start, FileTree.start, keeps.here]

/-! ## The place of a file to be written -/

/-- Where a path lets a file be written: its last component is a new name, or that of a file, in the
directory that the others lead to. -/
structure IsTarget (tree : FileTree) (path : String) (parent : Place) (name : String) : Prop where
  checked : checkPath path = .ok ()
  way : ∃ before, components path = before ++ [name] ∧ tree.walk (tree.start path) before = .ok parent
  directory : tree.node? parent = some .directory
  busy : isIdle name = false
  notUp : name ≠ ".."
  short : name.utf8ByteSize ≤ maxNameBytes
  free : tree.node? (parent ++ [name]) ≠ some .directory

theorem exists_isTarget {tree : FileTree} {path : String} {place : Place} (found : tree.target path = .ok place) :
    ∃ parent name, place = parent ++ [name] ∧ tree.IsTarget path parent name := by
  rw [target, bind_eq_ok_iff] at found
  obtain ⟨_, checked, found⟩ := found
  dsimp only at found
  split at found
  · contradiction
  next name parents last =>
  obtain ⟨parent, walked, found⟩ := bind_eq_ok_iff.mp found
  split at found
  · next directory =>
    split_ifs at found with odd
    simp only [Bool.or_eq_true, decide_eq_true_eq, beq_iff_eq, not_or, Bool.not_eq_true] at odd
    obtain ⟨node?, child, found⟩ := bind_eq_ok_iff.mp found
    rw [child?] at child
    split_ifs at child with long
    cases child
    split at found
    · contradiction
    · next other =>
      cases found
      have kept : (components path).reverse = name :: parents := by
        rw [← last]
        apply Eq.symm
        apply (List.dropWhile_suffix _).eq_of_length_le
        rw [List.length_reverse]
        omega
      refine ⟨parent, name, rfl, checked, ⟨parents.reverse, ?_, walked⟩, directory, odd.1.2, odd.2, by omega, other⟩
      rw [← List.reverse_reverse (components path), kept, List.reverse_cons]
  · contradiction

/-- A file that is put where a path says is what the path leads to. -/
theorem IsTarget.resolve {tree later : FileTree} {path name : String} {parent : Place}
    (isTarget : tree.IsTarget path parent name) (keeps : tree.Keeps later) {node : FileNode}
    (present : later.node? (parent ++ [name]) = some node) : later.resolve path = .ok (parent ++ [name]) := by
  obtain ⟨before, split, walked⟩ := isTarget.way
  have child : later.child? parent name = .ok (some node) := by
    rw [child?, if_neg (Nat.not_lt.mpr isTarget.short), present]
  rw [resolve_eq_ok_iff, split, keeps.start, walk_concat_eq_ok_iff]
  exact ⟨isTarget.checked, parent, keeps.walk walked,
    .down (keeps.directory isTarget.directory) isTarget.busy isTarget.notUp child⟩

/-! ## Well-formed trees -/

/-- Every place has one entry and proper names, and lies in a directory. -/
structure WellFormed (tree : FileTree) : Prop where
  distinct : (tree.nodes.map Prod.fst).Nodup
  named : ∀ entry ∈ tree.nodes, entry.1 ≠ [] ∧ ∀ name ∈ entry.1, IsName name
  within : ∀ entry ∈ tree.nodes, tree.node? entry.1.dropLast = some .directory

theorem mem_nodes_of_node? {tree : FileTree} {place : Place} {node : FileNode} (found : tree.node? place = some node)
    (below : place ≠ []) : (place, node) ∈ tree.nodes := by
  rw [node?, if_neg below] at found
  obtain ⟨before, after, split, -⟩ := List.lookup_eq_some_iff.mp found
  rw [split]
  simp

theorem WellFormed.parent {tree : FileTree} (wellFormed : tree.WellFormed) {place : Place} {node : FileNode}
    (found : tree.node? place = some node) : tree.node? place.dropLast = some .directory := by
  by_cases root : place = []
  · rw [root]
    rfl
  · exact wellFormed.within _ (mem_nodes_of_node? found root)

theorem WellFormed.isName {tree : FileTree} (wellFormed : tree.WellFormed) {place : Place} {name : String}
    (present : (tree.node? (place ++ [name])).isSome) : IsName name := by
  obtain ⟨node, found⟩ := Option.isSome_iff_exists.mp present
  have member := mem_nodes_of_node? found (by simp)
  exact (wellFormed.named _ member).2 name (by simp)

/-- Only a step down leads to a file. -/
theorem WellFormed.step_to_file {tree : FileTree} (wellFormed : tree.WellFormed) {parent place : Place} {name : String}
    {bytes : ByteArray} (step : tree.Step parent name place) (file : tree.node? place = some (.file bytes)) :
    place = parent ++ [name] ∧ IsName name := by
  cases step with
  | stay directory =>
    rw [directory] at file
    cases file
  | up directory =>
    rw [wellFormed.parent directory] at file
    cases file
  | down => exact ⟨rfl, wellFormed.isName (by rw [file]; rfl)⟩

/-- A path that leads to a file ends with the file's name. -/
theorem WellFormed.exists_components {tree : FileTree} (wellFormed : tree.WellFormed) {path : String} {place : Place}
    {bytes : ByteArray} (resolved : tree.resolve path = .ok place) (file : tree.node? place = some (.file bytes)) :
    ∃ before name, components path = before ++ [name] ∧ IsName name := by
  obtain ⟨before, name, split⟩ := List.eq_nil_or_concat' (components path) |>.resolve_left (components_ne_nil path)
  obtain ⟨-, walked⟩ := resolve_eq_ok_iff.mp resolved
  rw [split, walk_concat_eq_ok_iff] at walked
  obtain ⟨parent, -, step⟩ := walked
  exact ⟨before, name, split, (wellFormed.step_to_file step file).2⟩

theorem WellFormed.exists_stem? {tree : FileTree} (wellFormed : tree.WellFormed) {path text : String}
    (readable : tree.readText path = .ok text) : ∃ stem, stem? path = some stem := by
  obtain ⟨bytes, read, -⟩ := readText_eq_ok_iff.mp readable
  obtain ⟨place, resolved, file⟩ := readBytes_eq_ok_iff.mp read
  obtain ⟨before, name, split, named⟩ := wellFormed.exists_components resolved file
  exact exists_stem?_of_components named split

theorem checkPath_eq_ok_iff {path : String} :
    checkPath path = .ok () ↔ '\x00' ∉ path.toList ∧ path.utf8ByteSize ≤ maxBytes := by
  rw [checkPath]
  split_ifs with nul long <;> simp_all

private theorem checkPath_join_iff {directory name : String} (checked : checkPath directory = .ok ())
    (named : IsName name) :
    checkPath (join directory name) = .ok () ↔ (join directory name).utf8ByteSize ≤ maxBytes := by
  have clean : '\x00' ∉ (join directory name).toList := by
    intro member
    rcases mem_join member with member | slash | member
    · exact (checkPath_eq_ok_iff.mp checked).1 member
    · contradiction
    · exact named.noNul member
  rw [checkPath_eq_ok_iff]
  exact and_iff_right clean

/-- The walk along a joined path is that along the directory's path, and a step to the name. -/
theorem walk_join_iff {tree : FileTree} {directory name : String} {place found : Place}
    (walked : tree.walk (tree.start directory) (components directory) = .ok place)
    (inside : tree.node? place = some .directory) (named : IsName name) :
    tree.walk (tree.start (join directory name)) (components (join directory name)) = .ok found ↔
      tree.Step place name found := by
  obtain ⟨before, split, whole⟩ := components_join directory named.noSlash
  have first : tree.walk (tree.start directory) before = .ok place := by
    rcases whole with whole | whole
    · rwa [whole] at walked
    · rw [whole, walk_concat_eq_ok_iff] at walked
      obtain ⟨middle, first, last⟩ := walked
      cases last with
      | stay => exact first
      | up _ up => contradiction
      | down _ busy => contradiction
  rw [split, FileTree.start, isAbsolute_join directory named, ← FileTree.start, walk_concat_eq_ok_iff, first]
  simp

/-- A name joined to the path of a directory leads to what has the name there, unless the path gets too
long. -/
theorem WellFormed.resolve_join_iff {tree : FileTree} (wellFormed : tree.WellFormed) {directory name : String}
    {place found : Place} (resolved : tree.resolve directory = .ok place)
    (inside : tree.node? place = some .directory) (present : (tree.node? (place ++ [name])).isSome) :
    tree.resolve (join directory name) = .ok found ↔
      (join directory name).utf8ByteSize ≤ maxBytes ∧ found = place ++ [name] := by
  have named := wellFormed.isName present
  obtain ⟨checked, walked⟩ := resolve_eq_ok_iff.mp resolved
  obtain ⟨node, present⟩ := Option.isSome_iff_exists.mp present
  rw [resolve_eq_ok_iff, checkPath_join_iff checked named, walk_join_iff walked inside named]
  refine and_congr_right fun _ => ⟨fun step => ?_, ?_⟩
  · cases step with
    | stay _ idle => exact absurd idle (by simp [named.busy])
    | up _ up => exact absurd up named.notUp
    | down => rfl
  · rintro rfl
    exact .down inside named.busy named.notUp (by rw [child?, if_neg (Nat.not_lt.mpr named.short), present])

/-- The name of a place that lies directly in another. -/
def nameIn? (place child : Place) : Option String :=
  child.getLast?.bind fun name => if child.dropLast = place then some name else none

private theorem nameIn?_eq_some_iff {place child : Place} {name : String} :
    nameIn? place child = some name ↔ child = place ++ [name] := by
  rw [nameIn?]
  constructor
  · intro found
    obtain ⟨last, ends, found⟩ := Option.bind_eq_some_iff.mp found
    obtain ⟨before, rfl⟩ := List.getLast?_eq_some_iff.mp ends
    grind
  · rintro rfl
    simp

/-- The names in a directory. -/
theorem map_fst_children (tree : FileTree) (place : Place) :
    (tree.children place).map Prod.fst = (tree.nodes.map Prod.fst).filterMap (nameIn? place) := by
  rw [children, List.map_filterMap, List.filterMap_map]
  congr 1
  funext ⟨child, node⟩
  simp only [nameIn?, Function.comp_apply]
  cases child.getLast? with
  | none => rfl
  | some name => simp [apply_ite (Option.map Prod.fst)]

theorem mem_names_iff {tree : FileTree} {place : Place} {name : String} :
    name ∈ (tree.children place).map Prod.fst ↔ (tree.node? (place ++ [name])).isSome := by
  rw [map_fst_children, node?, if_neg (by simp), List.mem_filterMap]
  simp only [nameIn?_eq_some_iff, exists_eq_right]
  rw [List.lookup_isSome_iff]
  simp

theorem WellFormed.names_nodup {tree : FileTree} (wellFormed : tree.WellFormed) (place : Place) :
    ((tree.children place).map Prod.fst).Nodup := by
  rw [map_fst_children]
  apply wellFormed.distinct.filterMap
  intro first second name member again
  rw [nameIn?_eq_some_iff.mp member, nameIn?_eq_some_iff.mp again]

end HackVM.FileTree
