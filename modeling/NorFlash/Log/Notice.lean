namespace NorFlash

inductive Level where
  | error | warn | info | debug | trace
  deriving DecidableEq, Repr

namespace Level

/-- Zero for the most severe level. -/
def rank : Level → Nat
  | .error => 0 | .warn => 1 | .info => 2 | .debug => 3 | .trace => 4

def name : Level → String
  | .error => "ERROR" | .warn => "WARN" | .info => "INFO" | .debug => "DEBUG" | .trace => "TRACE"

end Level

/-- What is told while work goes on. The text stays unwritten until somebody asks for it. -/
structure Notice where
  level : Level
  text : Unit → String

namespace Notice

def error (text : Unit → String) : Notice := ⟨.error, text⟩
def warn (text : Unit → String) : Notice := ⟨.warn, text⟩
def info (text : Unit → String) : Notice := ⟨.info, text⟩
def debug (text : Unit → String) : Notice := ⟨.debug, text⟩
def trace (text : Unit → String) : Notice := ⟨.trace, text⟩

/-- The level, a blank and the text. -/
def line (n : Notice) : String := n.level.name ++ " " ++ n.text ()

end Notice

/-- Notices at `threshold` or a more severe level, in the order they came; without a threshold
none is kept. -/
structure Log where
  threshold : Option Level := none
  kept : Array Notice := #[]

namespace Log

def keeps (l : Log) (n : Notice) : Bool :=
  match l.threshold with
  | none => false
  | some t => n.level.rank ≤ t.rank

def add (l : Log) (n : Notice) : Log :=
  if l.keeps n then { l with kept := l.kept.push n } else l

def addAll (l : Log) (ns : List Notice) : Log := ns.foldl add l

def lines (l : Log) : List String := l.kept.toList.map Notice.line

end Log
end NorFlash
