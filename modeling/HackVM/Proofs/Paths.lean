import HackVM.Files.Path
import HackVM.Proofs.Lines
import Mathlib.Data.String.Basic

/-! # Paths and names

A name joined to a directory's path is its last component, so the joined path has the stem and the
extension of the name. Names in the order of their characters are in the order of their bytes in UTF-8.
-/

namespace HackVM

private theorem Text.pieces_append_pieces (mark : Char) (left right : List Char) :
    pieces mark (left ++ mark :: right) = pieces mark left ++ pieces mark right := by
  simp only [pieces_eq_splitOn, List.splitOn_eq_splitOnP]
  exact List.splitOnP_append_cons _ _ (beq_self_eq_true mark)

namespace Path

/-- What a file or directory can be called in the directory it is in. -/
structure IsName (name : String) : Prop where
  busy : isIdle name = false
  notUp : name ≠ ".."
  noSlash : '/' ∉ name.toList
  noNul : '\x00' ∉ name.toList
  short : name.utf8ByteSize ≤ maxNameBytes

instance (name : String) : Decidable (IsName name) :=
  decidable_of_iff
    (isIdle name = false ∧ name ≠ ".." ∧ '/' ∉ name.toList ∧ '\x00' ∉ name.toList ∧
      name.utf8ByteSize ≤ maxNameBytes)
    ⟨fun ⟨busy, notUp, noSlash, noNul, short⟩ => ⟨busy, notUp, noSlash, noNul, short⟩,
      fun ⟨busy, notUp, noSlash, noNul, short⟩ => ⟨busy, notUp, noSlash, noNul, short⟩⟩

theorem components_of_noSlash {name : String} (noSlash : '/' ∉ name.toList) : components name = [name] := by
  simp [components, Text.pieces_of_not_mem noSlash]

theorem IsName.components_eq {name : String} (named : IsName name) : components name = [name] :=
  components_of_noSlash named.noSlash

theorem components_append (left right : String) :
    components (left ++ "/" ++ right) = components left ++ components right := by
  have mark : (left ++ "/" ++ right).toList = left.toList ++ '/' :: right.toList := by simp
  rw [components, mark, Text.pieces_append_pieces, List.map_append]
  rfl

theorem components_ne_nil (path : String) : components path ≠ [] := by
  simp [components, Text.pieces_ne_nil]

/-- A path that ends with a slash is one without it, and a slash. -/
theorem exists_of_getLast {path : String} (slash : path.toList.getLast? = some '/') :
    ∃ before, path = before ++ "/" ++ "" := by
  obtain ⟨before, split⟩ := List.getLast?_eq_some_iff.mp slash
  refine ⟨String.ofList before, String.toList_inj.mp ?_⟩
  simp [split]

/-- The components of a joined path are those of the directory, but for an empty one at the end, and
the name. -/
theorem components_join (directory : String) {name : String} (noSlash : '/' ∉ name.toList) :
    ∃ before, components (join directory name) = before ++ [name] ∧
      (components directory = before ∨ components directory = before ++ [""]) := by
  by_cases empty : directory = ""
  · subst empty
    exact ⟨[], by simp [join, components_of_noSlash noSlash], .inr rfl⟩
  by_cases slash : directory.toList.getLast? = some '/'
  · obtain ⟨before, rfl⟩ := exists_of_getLast slash
    refine ⟨components before, ?_, .inr (components_append before "")⟩
    have joined : join (before ++ "/" ++ "") name = before ++ "/" ++ name := by simp [join]
    rw [joined, components_append, components_of_noSlash noSlash]
  · refine ⟨components directory, ?_, .inl rfl⟩
    have joined : join directory name = directory ++ "/" ++ name := by simp [join, empty, slash]
    rw [joined, components_append, components_of_noSlash noSlash]

theorem isAbsolute_join (directory : String) {name : String} (named : IsName name) :
    isAbsolute (join directory name) = isAbsolute directory := by
  by_cases empty : directory = ""
  · subst empty
    have other : name.toList.head? ≠ some '/' := fun first => named.noSlash (List.mem_of_head? first)
    simp [join, isAbsolute, other]
  · have more : directory.toList ≠ [] := by simpa using empty
    rw [isAbsolute, isAbsolute, join]
    split <;> simp [List.head?_append_of_ne_nil _ more]

theorem mem_join {directory name : String} {c : Char} (member : c ∈ (join directory name).toList) :
    c ∈ directory.toList ∨ c = '/' ∨ c ∈ name.toList := by
  rw [join] at member
  split at member <;> simp at member <;> tauto

theorem fileName?_of_components {path name : String} {before : List String} (named : IsName name)
    (split : components path = before ++ [name]) : fileName? path = some name := by
  have last : ((components path).filter fun component => !isIdle component).getLast? = some name := by
    simp [split, named.busy]
  rw [fileName?, last]
  split
  · next up => exact absurd (Option.some.inj up) named.notUp
  · rfl

private theorem fileName?_join (directory : String) {name : String} (named : IsName name) :
    fileName? (join directory name) = fileName? name := by
  obtain ⟨before, split, -⟩ := components_join directory named.noSlash
  have alone : components name = [] ++ [name] := named.components_eq
  rw [fileName?_of_components named split, fileName?_of_components named alone]

theorem extension?_join (directory : String) {name : String} (named : IsName name) :
    extension? (join directory name) = extension? name := by
  rw [extension?, extension?, fileName?_join directory named]

theorem stem?_join (directory : String) {name : String} (named : IsName name) :
    stem? (join directory name) = stem? name := by
  rw [stem?, stem?, fileName?_join directory named]

theorem exists_stem?_of_components {path name : String} {before : List String} (named : IsName name)
    (split : components path = before ++ [name]) : ∃ stem, stem? path = some stem := by
  rw [stem?, fileName?_of_components named split]
  exact ⟨_, rfl⟩

section ByteOrder

/-- A name comes before another by the bytes of their UTF-8 encodings. -/
def BytesBefore (left right : String) : Prop := left.toUTF8.data.toList < right.toUTF8.data.toList

private theorem utf8EncodeChar_append_lt {c d : Char} (less : c < d) (left right : List UInt8) :
    String.utf8EncodeChar c ++ left < String.utf8EncodeChar d ++ right := by
  have order : c.val.toNat < d.val.toNat := less
  have largest : d.val.toNat < 1114112 := by
    rcases d.valid with low | ⟨-, high⟩
    · exact Nat.lt_trans low (by decide)
    · exact high
  simp only [String.utf8EncodeChar]
  generalize c.val.toNat = v at *
  generalize d.val.toNat = w at *
  have middle (n : Nat) : n / 4096 = n / 64 / 64 := by omega
  have high (n : Nat) : n / 262144 = n / 64 / 64 / 64 := by omega
  split_ifs <;> try omega
  all_goals
    simp (disch := omega) only [List.cons_append, List.nil_append, List.cons_lt_cons_iff, UInt8.lt_iff_toNat_lt,
      ← UInt8.toNat_inj, UInt8.toNat_ofNat', Nat.mod_eq_of_lt, middle, high]
    omega

private theorem flatMap_utf8EncodeChar_lt {left right : List Char} (less : left < right) :
    left.flatMap String.utf8EncodeChar < right.flatMap String.utf8EncodeChar := by
  induction less with
  | nil =>
    rename_i c rest
    rw [List.flatMap_cons, List.flatMap_nil]
    cases bytes : String.utf8EncodeChar c with
    | nil => exact absurd bytes String.utf8EncodeChar_ne_nil
    | cons byte others => exact List.nil_lt_cons ..
  | rel less => exact utf8EncodeChar_append_lt less _ _
  | cons _ ih => exact List.append_left_lt ih

private theorem toUTF8_data (text : String) : text.toUTF8.data.toList = text.toList.flatMap String.utf8EncodeChar := by
  have bytes : text.toByteArray = text.toList.utf8Encode := by
    conv_lhs => rw [← String.ofList_toList (s := text)]
    exact String.toByteArray_ofList
  rw [String.toUTF8_eq_toByteArray, bytes, List.utf8Encode, List.data_toByteArray]

theorem bytesBefore_iff {left right : String} : BytesBefore left right ↔ left < right := by
  have forward {left right : String} (less : left < right) : BytesBefore left right := by
    rw [BytesBefore, toUTF8_data, toUTF8_data]
    exact flatMap_utf8EncodeChar_lt (String.lt_iff_toList_lt.mp less)
  refine ⟨fun before => ?_, forward⟩
  rcases lt_trichotomy left right with less | rfl | greater
  · exact less
  · exact absurd before (List.lt_irrefl _)
  · exact absurd before (List.lt_asymm (forward greater))

theorem isLE_compare_iff {left right : String} : (compare left right).isLE = true ↔ left ≤ right := by
  rw [← not_lt, ← compare_gt_iff_gt]
  cases compare left right <;> simp

private theorem nodup_of_bytesBefore {names : List String} (sorted : names.Pairwise BytesBefore) : names.Nodup := by
  refine sorted.imp fun {left right} before => ?_
  rintro rfl
  exact List.lt_irrefl _ before

/-- Names have one order. -/
theorem eq_of_bytesBefore {names others : List String} (sorted : names.Pairwise BytesBefore)
    (ordered : others.Pairwise BytesBefore) (same : ∀ name, name ∈ names ↔ name ∈ others) : names = others := by
  have perm : names.Perm others :=
    (List.perm_ext_iff_of_nodup (nodup_of_bytesBefore sorted) (nodup_of_bytesBefore ordered)).mpr same
  refine perm.eq_of_pairwise ?_ sorted ordered
  intro left right _ _ before after
  exact absurd after (List.lt_asymm before)

end ByteOrder

end Path

end HackVM
