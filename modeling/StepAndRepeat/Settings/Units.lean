import StepAndRepeat.Number.Fixed

namespace StepAndRepeat

inductive Units where
  | metric
  | imperial
  deriving DecidableEq, Repr

namespace Units

def all : List Units := [metric, imperial]

def name : Units → Text
  | metric => "metric".toList
  | imperial => "imperial".toList

def ofName? (t : Text) : Option Units := all.find? (·.name = t)

def unit : Units → Text
  | metric => ['m', 'm']
  | imperial => ['i', 'n']

def perInch : Float := 25.4

def toDisplay (u : Units) (length : Float) : Float :=
  match u with
  | metric => length
  | imperial => Binary.roundTo 3 (length / perInch)

def toMetric (u : Units) (length : Float) : Float :=
  match u with
  | metric => length
  | imperial => length * perInch

end Units

end StepAndRepeat
