/-!
# Computations that keep a record

A computation ends with a value or an error, and leaves what it noted on the way in either case.
-/

set_option autoImplicit false

namespace SpecFence

inductive LogLevel where
  | warn
  | info
  | debug
deriving DecidableEq, Repr

def LogLevel.name : LogLevel → String
  | .warn => "warn"
  | .info => "info"
  | .debug => "debug"

structure LogRecord where
  level : LogLevel
  text : String
deriving DecidableEq, Repr

/-- A result or an error, with what was noted until then. -/
structure Recorded (ρ ε α : Type) where
  result : Except ε α
  log : List ρ

namespace Recorded

variable {ρ ε ε' α β : Type}

def andThen (x : Recorded ρ ε α) (f : α → Recorded ρ ε β) : Recorded ρ ε β :=
  match x.result with
  | .error e => ⟨.error e, x.log⟩
  | .ok a => ⟨(f a).result, x.log ++ (f a).log⟩

instance : Monad (Recorded ρ ε) where
  pure a := ⟨.ok a, []⟩
  bind := andThen

instance : MonadLift (Except ε) (Recorded ρ ε) := ⟨fun x => ⟨x, []⟩⟩

def mapError (f : ε → ε') (x : Recorded ρ ε α) : Recorded ρ ε' α := ⟨x.result.mapError f, x.log⟩

def noteEnd (f : Except ε α → ρ) (x : Recorded ρ ε α) : Recorded ρ ε α :=
  ⟨x.result, x.log ++ [f x.result]⟩

end Recorded

abbrev Logged := Recorded LogRecord

namespace Logged

variable {ε : Type}

def emit (level : LogLevel) (text : String) : Logged ε Unit := ⟨.ok (), [⟨level, text⟩]⟩

def emitIf (c : Bool) (level : LogLevel) (text : String) : Logged ε Unit :=
  if c then emit level text else pure ()

end Logged

end SpecFence
