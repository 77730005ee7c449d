import StepAndRepeat.Text.Basic

namespace StepAndRepeat

inductive LogLevel where
  | debug
  | info
  | warning
  | error
  deriving DecidableEq, Repr

namespace LogLevel

def name : LogLevel → Text
  | debug => "DEBUG".toList
  | info => "INFO".toList
  | warning => "WARNING".toList
  | error => "ERROR".toList

def weight : LogLevel → Nat
  | debug => 0
  | info => 1
  | warning => 2
  | error => 3

def all : List LogLevel := [debug, info, warning, error]

def ofName? (t : Text) : Option LogLevel := all.find? (·.name = t)

end LogLevel

structure LogEntry where
  level : LogLevel
  message : Text
  deriving DecidableEq, Repr

end StepAndRepeat
