import Mathlib.Data.Finset.Card
import HackVM.Proofs.References

/-! # Entries of segments share no place

The place of an entry tells its segment: constants are values, the entries of the four frame segments lie at an
offset from a pointer, and of the cells with names only those of static variables have a dot in theirs. Within a
segment the place tells the index and, for a static variable, the unit. The table of static variables knows only
names, but a name stands for one variable, so it counts the variables that were accessed.
-/

namespace HackVM

/-- The segment whose entries have a place of this form. -/
def Location.owner : Location → Segment
  | immediate _ => .constant
  | indirect .locals _ => .locals
  | indirect .argument _ => .argument
  | indirect .this _ => .this
  | indirect .that _ => .that
  | direct name =>
    if '.' ∈ name.toList then .static else if name.toList.head? = some 'R' then .temp else .pointer

namespace Segment

/-- A place tells the segment that it belongs to. -/
theorem owner_place (unit : String) (segment : Segment) (index : Word) :
    (segment.place unit index).owner = segment := by
  cases segment with
  | constant | locals | argument | this | that => rfl
  | static => simp [place, Location.owner, staticSymbol]
  | pointer =>
    rw [place]
    split <;> decide
  | temp =>
    have noDot : '.' ∉ ("R" ++ (tempBase + index).decimal).toList := by
      intro member
      rw [String.toList_append, List.mem_append] at member
      rcases member with letter | digit
      · exact absurd letter (by decide)
      · exact absurd (isDigit_of_mem_repr digit) (by decide)
    rw [place, Location.owner, if_neg noDot, if_pos (by simp)]

/-- The two pointers that are entries of a segment have different cells. -/
theorem pointer_place_inj {unit other : String} {left right : Word} (low : left ≤ 1) (bound : right ≤ 1)
    (same : pointer.place unit left = pointer.place other right) : left = right := by
  have apart : Pointer.this.symbol ≠ Pointer.that.symbol := by decide
  simp only [place, Location.direct.injEq] at same
  split_ifs at same with first second second
  · rw [first, second]
  · exact absurd same apart
  · exact absurd same.symm apart
  · bv_omega

/-- Within a segment a place tells the index and, for a static variable, the unit. -/
theorem index_eq_of_place {unit other : String} {segment : Segment} {left right : Word}
    (inRange : ∀ limit ∈ segment.limit?, left ≤ limit) (inRangeToo : ∀ limit ∈ segment.limit?, right ≤ limit)
    (same : segment.place unit left = segment.place other right) :
    left = right ∧ (segment = .static → unit = other) := by
  cases segment with
  | constant | locals | argument | this | that =>
    cases same
    exact ⟨rfl, fun static => by contradiction⟩
  | static =>
    obtain ⟨units, indices⟩ := staticSymbol_inj.mp (Location.direct.inj same)
    exact ⟨indices, fun _ => units⟩
  | pointer =>
    exact ⟨pointer_place_inj (inRange 1 rfl) (inRangeToo 1 rfl) same, fun static => by contradiction⟩
  | temp =>
    have registers : (tempBase + left).decimal = (tempBase + right).decimal := by
      simpa [place, ← String.toList_inj] using same
    have sums := BitVec.eq_of_toNat_eq (repr_injective registers)
    exact ⟨(BitVec.add_right_inj tempBase).mp sums, fun static => by contradiction⟩

/-- Entries in range have the same place iff they are the same entry. -/
theorem place_eq_place_iff {unit other : String} {segment kind : Segment} {left right : Word}
    (inRange : ∀ limit ∈ segment.limit?, left ≤ limit) (inRangeToo : ∀ limit ∈ kind.limit?, right ≤ limit) :
    segment.place unit left = kind.place other right ↔
      segment = kind ∧ left = right ∧ (segment = .static → unit = other) := by
  constructor
  · intro same
    have owners := congrArg Location.owner same
    rw [owner_place, owner_place] at owners
    cases owners
    exact ⟨rfl, index_eq_of_place inRange inRangeToo same⟩
  · rintro ⟨rfl, rfl, units⟩
    cases segment with
    | static => rw [units rfl]
    | constant | locals | argument | this | that | pointer | temp => rfl

end Segment

/-- What is asked of a table of static variables: where an entry of a segment is, or the name of a static
variable. -/
inductive Access where
  | place (unit : String) (segment : Segment) (index : Word)
  | name (unit : String) (index : Word)
deriving DecidableEq, Repr

/-- The unit and the index of the static variable that is accessed. -/
def Access.variable? : Access → Option (String × Word)
  | place unit .static index | name unit index => some (unit, index)
  | place _ _ _ => none

namespace StaticTable

/-- The table after an access. -/
def after (table : StaticTable) : Access → StaticTable
  | .place unit segment index => (table.resolve unit segment index).2
  | .name unit index => table.record unit index

/-- The table after accesses, the first of which finds it empty. -/
def ofAccesses (accesses : List Access) : StaticTable := accesses.foldl after {}

/-- An access adds the name of the static variable that is accessed, and nothing else. -/
theorem contains_after (table : StaticTable) (access : Access) (name : String) :
    (table.after access).contains name = true ↔
      table.contains name = true ∨ ∃ slot ∈ access.variable?, name = staticSymbol slot.1 slot.2 := by
  have recorded : ∀ unit index, (table.record unit index).contains name = true ↔
      table.contains name = true ∨ name = staticSymbol unit index :=
    fun unit index => table.symbols.contains_insert_iff _ name
  cases access with
  | name unit index => simpa [after, Access.variable?] using recorded unit index
  | place unit segment index =>
    cases segment with
    | static => simpa [after, resolve, Access.variable?] using recorded unit index
    | constant | locals | argument | this | that | pointer | temp => simp [after, resolve, Access.variable?]

/-- The table holds the names of the static variables that were accessed. -/
theorem contains_ofAccesses (accesses : List Access) (name : String) :
    (ofAccesses accesses).contains name = true ↔
      ∃ slot ∈ accesses.filterMap Access.variable?, name = staticSymbol slot.1 slot.2 := by
  have run : ∀ table : StaticTable, (accesses.foldl after table).contains name = true ↔
      table.contains name = true ∨
        ∃ slot ∈ accesses.filterMap Access.variable?, name = staticSymbol slot.1 slot.2 := by
    induction accesses with
    | nil => simp
    | cons access rest ih =>
      intro table
      rw [List.foldl_cons, ih, contains_after, or_assoc]
      cases accessed : access.variable? <;> simp [accessed]
  rw [ofAccesses, run]
  simp [contains]

/-- The table counts the static variables that were accessed, since no two of them have the same name. -/
theorem count_ofAccesses (accesses : List Access) :
    (ofAccesses accesses).count = (accesses.filterMap Access.variable?).toFinset.card := by
  let table := ofAccesses accesses
  let slots := accesses.filterMap Access.variable?
  have distinct : table.symbols.toList.Nodup :=
    table.symbols.distinct_toList.imp fun {first second} differ same => differ (by simp [same])
  have injective : Function.Injective fun slot : String × Word => staticSymbol slot.1 slot.2 := by
    intro first second same
    exact Prod.ext_iff.mpr (staticSymbol_inj.mp same)
  have names : table.symbols.toList.toFinset = slots.toFinset.image fun slot => staticSymbol slot.1 slot.2 := by
    ext name
    rw [List.mem_toFinset, Std.TreeSet.mem_toList, Finset.mem_image]
    simp only [List.mem_toFinset, @eq_comm _ _ name]
    exact contains_ofAccesses accesses name
  calc table.count
    _ = table.symbols.toList.length := Std.TreeSet.length_toList.symm
    _ = table.symbols.toList.toFinset.card := (List.toFinset_card_of_nodup distinct).symm
    _ = slots.toFinset.card := by rw [names, Finset.card_image_of_injective _ injective]

end StaticTable

/-- What a static table tells apart after accesses, against a table after others. -/
structure SegmentsApart (accesses others : List Access) : Prop where
  /-- Two entries that are found have one place only if they are one entry. -/
  places : ∀ (unit other : String) (segment kind : Segment) (left right : Word) (here there : Location),
    ((StaticTable.ofAccesses accesses).resolve unit segment left).1 = .ok here →
    ((StaticTable.ofAccesses others).resolve other kind right).1 = .ok there →
      (here = there ↔ segment = kind ∧ left = right ∧ (segment = .static → unit = other))
  /-- No static variable has the name of a cell of another segment. -/
  cells : ∀ (unit : String) (index : Word),
    staticSymbol unit index ∉ ["THIS", "THAT", "R5", "R6", "R7", "R8", "R9", "R10", "R11", "R12"]
  names : ∀ (unit other : String) (left right : Word),
    staticSymbol unit left = staticSymbol other right ↔ (unit, left) = (other, right)
  count : (StaticTable.ofAccesses accesses).count = (accesses.filterMap Access.variable?).toFinset.card
  members : ∀ name, (StaticTable.ofAccesses accesses).contains name = true ↔
    ∃ slot ∈ accesses.filterMap Access.variable?, name = staticSymbol slot.1 slot.2
  found : ∀ (unit : String) (index : Word),
    ((StaticTable.ofAccesses accesses).resolve unit .static index).1 = .ok (.direct (staticSymbol unit index))
  /-- Looking for an entry that is out of range or in another segment leaves the table. -/
  unchanged : ∀ (unit : String) (segment : Segment) (index : Word),
    segment ≠ .static ∨ (∃ error, ((StaticTable.ofAccesses accesses).resolve unit segment index).1 = .error error) →
      ((StaticTable.ofAccesses accesses).resolve unit segment index).2 = StaticTable.ofAccesses accesses

/-- After any accesses, entries are told apart and the table holds the static variables accessed so far. -/
theorem segments_never_alias (accesses others : List Access) : SegmentsApart accesses others where
  places unit other segment kind left right here there found foundToo := by
    obtain ⟨inRange, rfl⟩ := Segment.locate_eq_ok found
    obtain ⟨inRangeToo, rfl⟩ := Segment.locate_eq_ok foundToo
    exact Segment.place_eq_place_iff inRange inRangeToo
  cells unit index fixed := by
    have known : ∀ name ∈ ["THIS", "THAT", "R5", "R6", "R7", "R8", "R9", "R10", "R11", "R12"],
        name ∈ Image.predefined := by decide +kernel
    exact staticSymbol_not_predefined unit index (known _ fixed)
  names unit other left right := by rw [staticSymbol_inj, Prod.mk.injEq]
  count := StaticTable.count_ofAccesses accesses
  members := StaticTable.contains_ofAccesses accesses
  found _ _ := rfl
  unchanged unit segment index := by
    rintro (other | ⟨error, failed⟩)
    · exact if_neg other
    · -- Every index of a static variable is in range.
      have other : segment ≠ .static := by
        rintro rfl
        contradiction
      exact if_neg other

end HackVM
