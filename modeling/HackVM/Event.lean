/-! # Log events

What the library reports while it works. Every event has a level and a message; the other data stay
in the event.
-/

namespace HackVM

/-- How important an event is. -/
inductive Level where
  | debug
  | info
  | warn
deriving DecidableEq, Repr

/-- The name of a level. -/
def Level.name : Level → String
  | debug => "DEBUG"
  | info => "INFO"
  | warn => "WARN"

/-- Something worth reporting. -/
inductive Event where
  | loweredUnit (unit : String) (commands instructions : Nat)
  | emittingBootstrap (entry : String)
  | linkedProgram (units statics lines : Nat) (bootstrap : Bool)
  | unusualExtension (path : String)
  | parsed (file : String) (commands : Nat)
  | wrote (lines : Nat) (path : String)
deriving DecidableEq, Repr

namespace Event

/-- How important the event is. -/
def level : Event → Level
  | loweredUnit .. | emittingBootstrap .. | parsed .. => .debug
  | linkedProgram .. | wrote .. => .info
  | unusualExtension .. => .warn

/-- The event in words. -/
def message : Event → String
  | loweredUnit .. => "translated unit"
  | emittingBootstrap .. => "emitting bootstrap"
  | linkedProgram .. => "linked program"
  | unusualExtension path => path ++ " does not have a .vm extension"
  | parsed .. => "parsed"
  | wrote lines path => "wrote " ++ lines.repr ++ " lines to " ++ path

end Event

end HackVM
