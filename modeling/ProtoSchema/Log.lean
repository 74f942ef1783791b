import ProtoSchema.Schema.Build

/-! # Log entries

An entry is a level, an event and some fields. What becomes of it is up to the logging library,
which is set up with a least level: it drops the entries below that one and writes the others.
-/

namespace ProtoSchema.Log

/-- How much an entry matters. -/
inductive Level where
  | debug
  | info
  | warning
  | error
  | critical
deriving DecidableEq

namespace Level

def all : List Level :=
  [.debug, .info, .warning, .error, .critical]

def name : Level → String
  | .debug => "debug"
  | .info => "info"
  | .warning => "warning"
  | .error => "error"
  | .critical => "critical"

def number : Level → Nat
  | .debug => 10
  | .info => 20
  | .warning => 30
  | .error => 40
  | .critical => 50

instance : LE Level :=
  ⟨fun a b => a.number ≤ b.number⟩

instance (a b : Level) : Decidable (a ≤ b) :=
  inferInstanceAs (Decidable (a.number ≤ b.number))

/-- The least level that is asked for. -/
def least (verbose : Bool) : Level :=
  if verbose then .debug else .info

end Level

inductive Value where
  | text (s : String)
  | int (n : Int)
deriving DecidableEq

structure Entry where
  level : Level
  event : String
  fields : List (String × Value)
deriving DecidableEq

/-- A logging library: the text that it writes for an entry when it is set up with a least level. -/
structure Library where
  write (least : Level) (e : Entry) : String

/-- The library writes the text of an entry if its level is not below the least one, and otherwise
nothing. -/
structure Library.Filters (library : Library) (text : Entry → String) : Prop where
  shown : ∀ {least : Level} {e : Entry}, least ≤ e.level → library.write least e = text e
  hidden : ∀ {least : Level} {e : Entry}, ¬least ≤ e.level → library.write least e = ""

end ProtoSchema.Log

namespace ProtoSchema

def Warning.entry (w : Warning) : Log.Entry where
  level := .warning
  event := "number_out_of_range"
  fields := [("lexeme", .text w.lexeme), ("line", .int w.line), ("col", .int w.col),
    ("fallback", .int Warning.fallback)]

end ProtoSchema
