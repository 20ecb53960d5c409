/-! Records that the kernel leaves in its log. -/
namespace MipsVm

inductive Level where
  | error
  | warn
  | info
  | debug
  | trace
deriving DecidableEq, Repr

def Level.name : Level → String
  | .error => "ERROR"
  | .warn => "WARN"
  | .info => "INFO"
  | .debug => "DEBUG"
  | .trace => "TRACE"

/-- One line of the log. -/
structure Record where
  level : Level
  text : String
deriving DecidableEq, Repr

end MipsVm
