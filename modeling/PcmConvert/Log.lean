/-
  PcmConvert.Log — lines for a reader, given beside a value.
-/

namespace PcmConvert

namespace Log

inductive Level where
  | error
  | warn
  | info
  | debug
  | trace
  deriving DecidableEq, Repr

def Level.name : Level → String
  | error => "error"
  | warn => "warn"
  | info => "info"
  | debug => "debug"
  | trace => "trace"

structure Line where
  level : Level
  text : String
  deriving DecidableEq, Repr

end Log

/-- A value and the lines on the way to it, oldest first. -/
structure Logged (α : Type) where
  value : α
  lines : List Log.Line := []

namespace Logged

variable {α β : Type}

instance : Monad Logged where
  pure a := ⟨a, []⟩
  bind x f := ⟨(f x.value).value, x.lines ++ (f x.value).lines⟩

/-- A line by itself. -/
def note (level : Log.Level) (text : String) : Logged Unit := ⟨(), [⟨level, text⟩]⟩

end Logged

end PcmConvert
