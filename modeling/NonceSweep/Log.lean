/-!
# Log levels

The four levels at which a sweep and its engine log, most urgent first.
-/

namespace NonceSweep

/-- How urgent a log record is. -/
inductive Level where
  | error
  | warning
  | info
  | debug
deriving DecidableEq, Repr

def Level.name : Level → String
  | .error => "ERROR"
  | .warning => "WARN"
  | .info => "INFO"
  | .debug => "DEBUG"

end NonceSweep
