import SyntaxLens.Text.Utf8
/-!
# Processes

What a process leaves behind when it ends: the bytes that it wrote and how it ended.
-/

namespace SyntaxLens.Process

inductive Status
  | exited (code : Nat)
  | killed (signal : Nat)
deriving DecidableEq

/-- The signals, by number from one on. -/
def signalNames : List String :=
  ["HUP", "INT", "QUIT", "ILL", "TRAP", "ABRT", "BUS", "FPE", "KILL", "USR1", "SEGV", "USR2",
    "PIPE", "ALRM", "TERM", "STKFLT", "CHLD", "CONT", "STOP", "TSTP", "TTIN", "TTOU", "URG", "XCPU",
    "XFSZ", "VTALRM", "PROF", "WINCH", "IO", "PWR", "SYS"]

def Status.text : Status → String
  | exited code => s!"exit status: {code}"
  | killed signal =>
    match signalNames[signal - 1]? with
    | some name => s!"signal: {signal} (SIG{name})"
    | none => s!"signal: {signal}"

/-- Whether a process ended well. -/
def Status.isSuccess (s : Status) : Bool :=
  s = .exited 0

/-- The output of a process that has ended. -/
structure Result where
  stdout : List UInt8
  stderr : List UInt8
  status : Status

end SyntaxLens.Process
