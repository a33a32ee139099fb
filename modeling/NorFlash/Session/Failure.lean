import NorFlash.Database.Basic

namespace NorFlash

/-- What a search was for. -/
inductive Sought where
  | chip | programmer
  deriving DecidableEq, Repr

def Sought.name : Sought → String
  | chip => "chip"
  | programmer => "programmer"

inductive Failure where
  | core (e : Error)
  | unknownChip (name : String)
  | unknownProgrammer (name : String)
  | notFound (sought : Sought)
  | noChip
  | noProgrammer
  | invalidArgument (text : String)
  | io (path reason : String)
  | database (e : DatabaseError)
  /-- A programmer refused to open. -/
  | programmer (name reason : String)
  deriving DecidableEq, Repr

/-- Exit codes of the command line. -/
def ioExit : Nat := 5
def noSuchAddressExit : Nat := 6
def noDeviceExit : Nat := 19
def invalidExit : Nat := 22
def timeoutExit : Nat := 110

def Error.exitCode : Error → Nat
  | .deviceNotFound => noDeviceExit
  | .timeout => timeoutExit
  | .noCoverage _ | .notExact _ _ | .invalidArgument | .transferSizeUnspecified
  | .addressOutOfBounds | .erase (.partialChip _ _) => invalidExit
  | .programmer => noSuchAddressExit
  | _ => ioExit

namespace Failure

def message : Failure → String
  | core e => e.message
  | unknownChip name => s!"unknown chip: {name}"
  | unknownProgrammer name => s!"unknown programmer: {name}"
  | notFound sought => s!"no {sought.name} found"
  | noChip => "no chip selected"
  | noProgrammer => "no programmer selected"
  | invalidArgument text => s!"invalid argument: {text}"
  | io path reason => s!"{path}: {reason}"
  | database e => s!"chip database: {e.message}"
  | programmer name reason => s!"programmer {name}: {reason}"

def exitCode : Failure → Nat
  | core e => e.exitCode
  | unknownChip _ | unknownProgrammer _ | notFound _ | noChip | noProgrammer => noDeviceExit
  | invalidArgument _ | database _ => invalidExit
  | io _ _ => ioExit
  | programmer _ _ => noSuchAddressExit

end Failure
end NorFlash
