import HackVM.Proofs.GeneratedLabels
import Mathlib.Order.Bounds.Defs

/-! # The search for a return label

The opening call has no number of its own for the label behind it. It takes numbers from a counter of 64 bits, one
after the other, until the label with the number can be defined. Functions and labels of the source can have taken
any of these names before. The search ends nevertheless: each turn that fails meets another label, since no static
variable has such a name, so that there are no more such turns than labels, and the counter has room for one turn
more. The counter is past the label then, and all else stays.
-/

namespace HackVM

namespace Generator

/-- A generator that uses of a new one lead to. -/
inductive Reachable : Generator → Prop
  | new (unit : String) (annotate : Bool) : Reachable { unit, annotate }
  | after {generator : Generator} (reachable : Reachable generator) (action : Action) :
      Reachable (generator.after action)

/-- The name of a label behind the opening call. -/
def returnName (number : Nat) : String := "BOOTSTRAP:RET_" ++ number.repr

/-- The numbers from the counter on whose names no label has. -/
def freeNumbers (generator : Generator) : Set Nat :=
  { number | generator.counter.next ≤ number ∧ ¬ generator.defined.contains (returnName number) = true }

/-- The search turn by turn: a number is taken, and the search is over if the label with the number
can be defined. -/
inductive ReturnSearch : Generator → Nat → Nat → Generator → Prop
  | found {generator next : Generator} {number : Nat} {counter : LabelCounter}
      (taken : generator.counter.take? = some (number, counter))
      (success : Lowering.define (returnName number) { generator with counter } = .ok () next) :
      ReturnSearch generator 1 number next
  | refused {generator stopped next : Generator} {number turns result : Nat} {counter : LabelCounter}
      {fault : LoweringError} (taken : generator.counter.take? = some (number, counter))
      (failure : Lowering.define (returnName number) { generator with counter } = .error fault stopped)
      (later : ReturnSearch stopped turns result next) : ReturnSearch generator (turns + 1) result next

private theorem generated_bootstrapOwner (number : Nat) :
    Label.generated bootstrapOwner .returnPoint number = returnName number :=
  congrArg (· ++ number.repr) (by decide : "BOOTSTRAP" ++ ":" ++ "RET" ++ "_" = "BOOTSTRAP:RET_")

private theorem returnName_injective : Function.Injective returnName := by
  intro first second same
  rw [← generated_bootstrapOwner, ← generated_bootstrapOwner] at same
  exact Label.generated_injective same

private theorem Reachable.exists_knows {generator : Generator} (reachable : generator.Reachable) :
    ∃ past, generator.Knows past := by
  induction reachable with
  | new unit annotate => exact ⟨[], knows_start unit annotate⟩
  | after _ action ih =>
    obtain ⟨past, knows⟩ := ih
    exact ⟨_, knows.after action⟩

section Reachable

variable {generator : Generator} (reachable : generator.Reachable)

include reachable

private theorem Reachable.returnName_not_static (number : Nat) :
    generator.statics.contains (returnName number) = false := by
  obtain ⟨past, knows⟩ := reachable.exists_knows
  rw [Bool.eq_false_iff]
  intro used
  obtain ⟨unit, index, same⟩ := knows.statics _ used
  rw [← generated_bootstrapOwner] at same
  exact Label.generated_ne_staticSymbol _ _ _ _ _ same

/-- A name behind the opening call can be taken by a label only. -/
theorem Reachable.isTaken_returnName (number : Nat) :
    generator.isTaken (returnName number) = generator.defined.contains (returnName number) := by
  rw [isTaken, reachable.returnName_not_static, Bool.false_or]

/-- The opening call takes the least number whose name is free. -/
theorem Reachable.isLeast_returnNumber : IsLeast generator.freeNumbers generator.returnNumber := by
  obtain ⟨reached, passed⟩ := generator.returnNumber_least
  have free := generator.returnNumber_free
  rw [generated_bootstrapOwner, reachable.isTaken_returnName] at free
  refine ⟨⟨reached, free⟩, ?_⟩
  rintro number ⟨above, unused⟩
  by_contra below
  have taken := passed number above (by omega)
  rw [generated_bootstrapOwner, reachable.isTaken_returnName] at taken
  exact unused taken

/-- The numbers that are passed over belong to different labels. -/
theorem Reachable.returnNumber_le : generator.returnNumber ≤ generator.counter.next + generator.defined.size := by
  let names := (List.range' generator.counter.next (generator.returnNumber - generator.counter.next)).map returnName
  have distinct : names.Nodup := (List.nodup_range' ..).map returnName_injective
  have known : names ⊆ generator.defined.toList := by
    intro name member
    obtain ⟨number, within, rfl⟩ := List.mem_map.mp member
    rw [List.mem_range'_1] at within
    rw [Std.TreeSet.mem_toList]
    by_contra free
    have below := reachable.isLeast_returnNumber.2 ⟨within.1, free⟩
    omega
  have few := (List.subperm_of_subset distinct known).length_le
  simp only [names, List.length_map, List.length_range', Std.TreeSet.length_toList] at few
  have reached := reachable.isLeast_returnNumber.1.1
  omega

/-- From any number on the way, the search ends at the number that the opening call takes. -/
theorem Reachable.returnSearch_from (room : generator.returnNumber + 1 < 18446744073709551616) (entry : String)
    {start turns : Nat} (above : generator.counter.next ≤ start) (last : start + turns = generator.returnNumber) :
    ReturnSearch { generator with counter := ⟨start⟩ } (turns + 1) generator.returnNumber
      (generator.bootstrap entry).2 := by
  have least := reachable.isLeast_returnNumber
  induction turns generalizing start with
  | zero =>
    obtain rfl : start = generator.returnNumber := last
    refine .found (if_pos room) ?_
    simp only [Lowering.define, reachable.returnName_not_static, least.1.2, Bool.false_eq_true, if_false, bootstrap,
      generated_bootstrapOwner]
  | succ turns ih =>
    have known : generator.defined.contains (returnName start) = true := by
      by_contra free
      have below := least.2 ⟨above, free⟩
      omega
    have fits : start + 1 < 18446744073709551616 := by omega
    have rest : start + 1 + turns = generator.returnNumber := by omega
    have failure : Lowering.define (returnName start) { generator with counter := ⟨start + 1⟩ } =
        .error (.duplicateLabel (returnName start)) { generator with counter := ⟨start + 1⟩ } := by
      simp only [Lowering.define, reachable.returnName_not_static, known, Bool.false_eq_true, if_false, if_true]
    exact .refused (if_pos fits) failure (ih (by omega) rest)

end Reachable

end Generator

/-- After any uses of a generator, the search ends with the least number whose name no label has, and adds this
label only. -/
theorem opening_call_takes_least_free_label {generator : Generator} (reachable : generator.Reachable)
    (room : generator.counter.next + generator.defined.size < 18446744073709551615) (entry : String) :
    let lines := (generator.bootstrap entry).1
    let next := (generator.bootstrap entry).2
    ∃ number, IsLeast generator.freeNumbers number ∧
      (∃ turns ≤ generator.defined.size + 1, generator.ReturnSearch turns number next) ∧
      Line.labels lines = [Generator.returnName number] ∧
      Template.call entry 0 (Generator.returnName number) <:+ lines ∧
      next.counter.next = number + 1 ∧
      (∀ name, next.defined.contains name = true ↔
        generator.defined.contains name = true ∨ name = Generator.returnName number) ∧
      next.statics = generator.statics ∧ next.unit = generator.unit ∧ next.function = generator.function ∧
      next.annotate = generator.annotate := by
  intro lines next
  have few := reachable.returnNumber_le
  have reached := generator.returnNumber_least.1
  have least := reachable.isLeast_returnNumber
  let turns := generator.returnNumber - generator.counter.next + 1
  have search : generator.ReturnSearch turns generator.returnNumber next :=
    reachable.returnSearch_from (by omega) entry (Nat.le_refl _) (Nat.add_sub_of_le reached)
  refine ⟨generator.returnNumber, least, ⟨turns, by omega, search⟩, ?_, ?_, rfl, ?_, rfl, rfl, rfl, rfl⟩
  · rw [generator.labels_bootstrap, Generator.generated_bootstrapOwner]
  · rw [← Generator.generated_bootstrapOwner]
    exact List.suffix_append _ _
  · intro name
    rw [← Generator.generated_bootstrapOwner]
    exact NameSet.contains_insert_iff ..

/-- A generator that has made an opening call and has met functions with the names of labels behind it. -/
def crowdedGenerator : Generator :=
  (((Generator.after { unit := "Main" } (.command (.arithmetic .eq))).after
    (.command (.function "BOOTSTRAP:RET_1" 0))).after (.bootstrap "Sys.init")).after
    (.command (.function "BOOTSTRAP:RET_3" 0))

theorem opening_call_takes_label_crowdedGenerator :
    crowdedGenerator.Reachable ∧
      crowdedGenerator.counter.next + crowdedGenerator.defined.size < 18446744073709551615 ∧
      Line.labels (crowdedGenerator.bootstrap "Sys.init").1 = ["BOOTSTRAP:RET_4"] := by
  have reachable : crowdedGenerator.Reachable := .after (.after (.after (.after (.new "Main" true) _) _) _) _
  have room : crowdedGenerator.counter.next + crowdedGenerator.defined.size < 18446744073709551615 := by
    decide +kernel
  have counter : crowdedGenerator.counter.next = 3 := by decide +kernel
  have taken : crowdedGenerator.defined.contains (Generator.returnName 3) = true := by decide +kernel
  have free : ¬ crowdedGenerator.defined.contains (Generator.returnName 4) = true := by decide +kernel
  obtain ⟨number, least, -, labels, -⟩ := opening_call_takes_least_free_label reachable room "Sys.init"
  have above : 3 ≤ number := counter ▸ least.1.1
  have below : number ≤ 4 := least.2 ⟨by omega, free⟩
  have other : number ≠ 3 := by
    rintro rfl
    exact least.1.2 taken
  obtain rfl : number = 4 := by omega
  exact ⟨reachable, room, labels⟩

end HackVM
