import SyntaxLens.Process
/-!
# Ends of processes

How the programs of a script end, and the signals that end a script.
-/

namespace SyntaxLens.Process

/-- The signals that end no process: those that it ignores and those that only stop it. -/
def harmlessSignals : List Nat :=
  [0, 17, 18, 19, 20, 21, 22, 23, 28]

/-- The number of a signal from its number or its name, with or without `SIG` in front. -/
def signalNumber? (s : String) : Option Nat :=
  match s.toNat? with
  | some n => some n
  | none =>
    let name := if s.startsWith "SIG" then (s.drop 3).toString else s
    (signalNames.findIdx? (· = name)).map (· + 1)

/-- The code of a process as a script sees it. -/
def Status.code : Status → Nat
  | exited n => n
  | killed n => 128 + n

namespace Result

/-- A process that wrote to its output and ended well. -/
def output (bytes : List UInt8) : Result :=
  ⟨bytes, [], .exited 0⟩

/-- A process that wrote nothing and ended with a code. -/
def code (n : Nat) : Result :=
  ⟨[], [], .exited n⟩

/-- A process that wrote a message to its error output and ended with a code. -/
def fail (n : Nat) (message : String) : Result :=
  ⟨[], Text.Utf8.encode (message ++ "\n"), .exited n⟩

end Result

end SyntaxLens.Process
