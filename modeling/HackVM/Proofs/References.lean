import HackVM.Proofs.Execution
import HackVM.Proofs.StaticCells

/-! # The names that code refers to

The code of a command refers to predefined names, to the labels that it defines itself, to the static variable
that it uses and to the label or function that it jumps to or calls. Of these only the last can be a name that
the program does not define. The assembler reads no other references from the lines, as long as their names are
solid.
-/

namespace HackVM

theorem Site.symbols_block (annotate : Bool) (site : Site) :
    Line.symbols (site.block annotate) = Line.symbols site.code := by
  rw [block]
  split <;> rfl

namespace Template

/-- The predefined names that templates use. -/
def cells : List String := ["SP", "LCL", "ARG", "THIS", "THAT", "R13", "R14"]

private theorem cells_predefined : ∀ name ∈ cells, name ∈ Image.predefined := by
  decide +kernel

theorem symbols_call (name : String) (arguments : Word) (returnPoint : String) :
    Line.symbols (call name arguments returnPoint) ⊆ returnPoint :: name :: cells := by
  have all : Line.symbols (call name arguments returnPoint) =
      [returnPoint, "SP", "LCL", "SP", "ARG", "SP", "THIS", "SP", "THAT", "SP", "SP", "ARG", "SP", "LCL", name] :=
    rfl
  simp [all, cells]

private theorem symbols_function (name : String) (locals : Word) : Line.symbols (function name locals) ⊆ cells := by
  intro own refers
  obtain ⟨line, member, symbol⟩ := List.mem_filterMap.mp refers
  rcases List.mem_cons.mp member with rfl | member
  · contradiction
  · obtain ⟨push, repeated, member⟩ := List.mem_flatten.mp member
    rw [List.eq_of_mem_replicate repeated] at member
    have found : own ∈ Line.symbols [.symbol "SP", .store .M (.inc .m), .store .A (.dec .m), .store .M .zero] :=
      List.mem_filterMap.mpr ⟨line, member, symbol⟩
    rw [List.mem_singleton.mp (show own ∈ ["SP"] from found)]
    decide

end Template

namespace Site

/-- The names of the labels and functions that the command jumps to or calls. -/
def targets (site : Site) : List String :=
  match site.command with
  | .goto name | .ifGoto name => [site.labelName name]
  | .call name _ => [name]
  | _ => []

/-- The code that pushes from a location or pops into it refers to the cell by its name, if it has one, and
otherwise only to predefined names. -/
theorem direct_of_symbol {location : Location} {name : String}
    (refers : name ∈ Line.symbols (Template.push location) ∨ name ∈ Line.symbols (popInto location)) :
    location = .direct name ∨ name ∈ Template.cells := by
  cases location with
  | immediate value =>
    right
    rcases refers with refers | refers
    · rw [List.mem_singleton.mp (show name ∈ ["SP"] from refers)]
      decide
    · contradiction
  | indirect base offset =>
    right
    have pointer : base.symbol ∈ Template.cells := by cases base <;> decide
    rcases refers with refers | refers
    · replace refers : name ∈ [base.symbol, "SP"] := refers
      simp only [List.mem_cons, List.not_mem_nil, or_false] at refers
      rcases refers with rfl | rfl
      · exact pointer
      · decide
    · replace refers : name ∈ [base.symbol, "R13", "SP", "R13"] := refers
      simp only [List.mem_cons, List.not_mem_nil, or_false] at refers
      rcases refers with rfl | rfl | rfl | rfl
      · exact pointer
      all_goals decide
  | direct own =>
    have pair : name ∈ ["SP", own] := by
      rcases refers with refers | refers
      · exact List.mem_pair.mpr (List.mem_pair.mp (show name ∈ [own, "SP"] from refers)).symm
      · exact refers
    rcases List.mem_pair.mp pair with rfl | rfl
    · exact .inr (by decide)
    · exact .inl rfl

/-- The only cells with names that are not predefined are those of static variables. -/
theorem static_of_place {unit : String} {segment : Segment} {index : Word}
    (bounded : ∀ limit ∈ segment.limit?, index ≤ limit) {name : String}
    (place : segment.place unit index = .direct name) :
    name ∈ Image.predefined ∨ segment = .static ∧ name = staticSymbol unit index := by
  cases segment with
  | static =>
    cases place
    exact .inr ⟨rfl, rfl⟩
  | pointer =>
    cases place
    left
    apply Template.cells_predefined
    split <;> decide
  | temp =>
    cases place
    have small : (Segment.tempBase + index).toNat < 16 := by
      have bound : index ≤ 7 := bounded 7 rfl
      rw [Segment.tempBase]
      bv_omega
    left
    rw [Std.TreeMap.mem_iff_isSome_getElem?, Word.decimal, SymbolTable.known_register (.refl _) small]
    rfl
  | constant | locals | argument | this | that => contradiction

/-- The code of a command refers to predefined names, to its own labels, to the static variable that it uses and
to the target of its jump or call. -/
theorem symbol_cases {site : Site} (admitted : site.command.Admitted) {name : String}
    (refers : name ∈ Line.symbols site.code) :
    name ∈ Image.predefined ∨ name ∈ site.labels ∨ name ∈ site.statics ∨ name ∈ site.targets := by
  obtain ⟨unit, function, number, command⟩ := site
  have known := Template.cells_predefined name
  cases command with
  | arithmetic operator =>
    cases operator with
    | eq | gt | lt =>
      replace refers : name ∈ ["SP", Label.generated unit .comparison number,
        Label.generated unit .comparisonEnd number, "SP"] := refers
      simp only [List.mem_cons, List.not_mem_nil, or_false] at refers
      rcases refers with rfl | rfl | rfl | rfl
      · exact .inl (known (by decide))
      · exact .inr (.inl (List.mem_pair.mpr (.inl rfl)))
      · exact .inr (.inl (List.mem_pair.mpr (.inr rfl)))
      · exact .inl (known (by decide))
    | add | sub | neg | and | or | not =>
      rw [List.mem_singleton.mp (show name ∈ ["SP"] from refers)]
      exact .inl (Template.cells_predefined _ (by decide))
  | push segment index =>
    rcases direct_of_symbol (.inl refers) with place | cell
    · rcases static_of_place admitted place with predefined | ⟨rfl, rfl⟩
      · exact .inl predefined
      · exact .inr (.inr (.inl (List.mem_singleton_self _)))
    · exact .inl (known cell)
  | pop segment index =>
    rcases direct_of_symbol (.inr refers) with place | cell
    · rcases static_of_place admitted.2 place with predefined | ⟨rfl, rfl⟩
      · exact .inl predefined
      · exact .inr (.inr (.inl (List.mem_singleton_self _)))
    · exact .inl (known cell)
  | label own => contradiction
  | goto own => exact .inr (.inr (.inr refers))
  | ifGoto own =>
    rcases List.mem_pair.mp (show name ∈ ["SP", _] from refers) with rfl | rfl
    · exact .inl (known (by decide))
    · exact .inr (.inr (.inr (List.mem_singleton_self _)))
  | function own locals => exact .inl (known (Template.symbols_function own locals refers))
  | call own arguments =>
    rcases List.mem_cons.mp (Template.symbols_call _ _ _ refers) with rfl | refers
    · exact .inr (.inl (List.mem_singleton_self _))
    rcases List.mem_cons.mp refers with rfl | cell
    · exact .inr (.inr (.inr (List.mem_singleton_self _)))
    · exact .inl (known cell)
  | ret =>
    have cells : Line.symbols Template.ret ⊆ Template.cells := by decide
    exact .inl (known (cells refers))

end Site

/-- The names of the labels and functions that a program jumps to or calls, the entry among them if it is
called. -/
def BuildOptions.targets (options : BuildOptions) (units : List SourceUnit) : List String :=
  (if options.callsEntry units then [options.entry] else []) ++ (Site.ofUnits units).flatMap Site.targets

/-- The code in front of the units refers to predefined names, to its own label and to the entry. -/
theorem Draft.start_symbols {draft : Draft} {units : List SourceUnit} (made : draft.MadeOf units) {name : String}
    (refers : name ∈ Line.symbols draft.start) :
    name ∈ Image.predefined ∨ name ∈ Line.labels draft.start ∨ name ∈ draft.options.targets units := by
  rw [labels_start, BuildOptions.targets, BuildOptions.callsEntry, ← made.entryDefined]
  rw [start] at refers
  split at refers
  · rename_i wanted
    rw [if_pos wanted, if_pos wanted]
    rw [Generator.bootstrap] at refers
    have called : name ∈ Line.symbols Template.initStack ∨
        name ∈ Line.symbols (Template.call draft.options.entry 0 draft.returnPoint) := by
      rw [← List.mem_append, ← Line.symbols_append]
      cases annotate : draft.generator.annotate <;> rw [annotate] at refers <;> exact refers
    rcases called with stack | called
    · rw [List.mem_singleton.mp (show name ∈ ["SP"] from stack)]
      exact .inl (Template.cells_predefined _ (by decide))
    rcases List.mem_cons.mp (Template.symbols_call _ _ _ called) with rfl | called
    · exact .inr (.inl (List.mem_singleton_self _))
    rcases List.mem_cons.mp called with rfl | cell
    · exact .inr (.inr (List.mem_append_left _ (List.mem_singleton_self _)))
    · exact .inl (Template.cells_predefined name cell)
  · contradiction

/-- The code of a linked program refers to predefined names, to its own labels, to its static variables and to its
targets. -/
theorem link_symbols {options : BuildOptions} {units : List SourceUnit} {lines : List Line}
    (linked : link options units = .ok lines) {name : String} (refers : name ∈ Line.symbols lines) :
    name ∈ Image.predefined ∨ name ∈ Line.labels lines ∨ name ∈ (Site.ofUnits units).flatMap Site.statics ∨
      name ∈ options.targets units := by
  obtain ⟨draft, rfl, made, rfl⟩ := link_eq_ok linked
  rw [Line.symbols_append, List.mem_append] at refers
  rw [Line.labels_append, List.mem_append, made.code, Site.labels_flatMap_block]
  rcases refers with opening | inUnits
  · rcases draft.start_symbols made opening with predefined | label | target
    · exact .inl predefined
    · exact .inr (.inl (.inl label))
    · exact .inr (.inr (.inr target))
  · rw [made.code, Line.symbols, List.filterMap_flatMap, List.mem_flatMap] at inUnits
    obtain ⟨site, member, inBlock⟩ := inUnits
    have admitted := made.admitted site member
    rw [← Line.symbols, Site.symbols_block] at inBlock
    rcases Site.symbol_cases admitted inBlock with predefined | label | static | target
    · exact .inl predefined
    · exact .inr (.inl (.inr (List.mem_flatMap_of_mem member label)))
    · exact .inr (.inr (.inl (List.mem_flatMap_of_mem member static)))
    · exact .inr (.inr (.inr (List.mem_append_right _ (List.mem_flatMap_of_mem member target))))

end HackVM
