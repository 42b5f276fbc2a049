import Allman.Diagnostic.Layout
import Allman.Report

/-! The log collects what is printed and counts the warnings in it. Diagnostics
are separated by an empty line. -/

namespace Allman

/-- When to print in colour. -/
inductive ColourMode where
  /-- Only on a terminal, which the log is not. -/
  | auto
  | always
  | never
deriving DecidableEq

namespace ColourMode

def all : List ColourMode := [auto, always, never]

/-- Modes are numbered in the order of `all`; every other number means no colour. -/
def ofNumber (n : Nat) : ColourMode := all[n]?.getD never

def number : ColourMode → Nat
  | auto => 0
  | always => 1
  | never => 2

def name : ColourMode → Bytes
  | auto => ascii "auto"
  | always => ascii "always"
  | never => ascii "never"

def ofName? (name : Bytes) : Option ColourMode := all.find? (·.name == name)

end ColourMode

structure Log where
  colour : ColourMode := .auto
  warnings : Nat := 0
  output : Bytes := []
deriving DecidableEq

namespace Log

def print (log : Log) (bytes : Bytes) : Log := { log with output := log.output ++ bytes }

/-- Prints a diagnostic. If a part of it cannot be shown, the error holds the log
with what comes before that part. -/
def emit (buffers : Buffers) (log : Log) (diagnostic : Diagnostic) : Except Log Log :=
  let layout := diagnostic.layout buffers
  let separator := if log.warnings = 0 then [] else [Byte.newline]
  let text := layout.pieces.render (log.colour == .always)
  let log := { log.print (separator ++ text) with warnings := log.warnings + 1 }
  if layout.complete then .ok log else .error log

/-- Prints a warning for each violation of a buffer. -/
def emitAll (buffers : Buffers) (id : Nat) (skipped : Bool) (log : Log)
    (violations : List Violation) : Except Log Log :=
  violations.foldlM (fun log violation => log.emit buffers (violation.toDiagnostic buffers id skipped))
    log

/-- What has been printed, whether or not all of it could be. -/
def settle : Except Log Log → Log
  | .ok log => log
  | .error log => log

end Log
end Allman
