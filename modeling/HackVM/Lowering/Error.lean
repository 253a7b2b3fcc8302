import HackVM.Segment
import HackVM.Word

/-! # Commands that have no code

The reasons why a well-formed command cannot be turned into assembly.
-/

namespace HackVM

/-- Why a command has no code. -/
inductive LoweringError where
  | popToSegment (segment : Segment)
  | indexOutOfRange (segment : Segment) (index limit : Word)
  | tooManyArguments (arguments limit : Word)
  | duplicateLabel (name : String)
  | staticClash (name : String)
deriving DecidableEq, Repr

/-- The error in words. -/
def LoweringError.message : LoweringError → String
  | popToSegment segment => "cannot pop the " ++ segment.name ++ " segment"
  | indexOutOfRange segment index limit =>
    "index " ++ index.decimal ++ " is out of range for the " ++ segment.name ++ " segment (max " ++
      limit.decimal ++ ")"
  | tooManyArguments arguments limit =>
    "call passes " ++ arguments.decimal ++ " arguments (max " ++ limit.decimal ++ ")"
  | duplicateLabel name => "label `" ++ name ++ "` is defined more than once"
  | staticClash name => "`" ++ name ++ "` names both a label and a static variable"

end HackVM
