import StepAndRepeat.Number.Shortest
import StepAndRepeat.Json.Value

namespace StepAndRepeat.Json

/-- A code point within a string: printable ASCII as it is, all else as an escape. -/
def escape (c : Char) : Text :=
  if c = '"' then ['\\', '"']
  else if c = '\\' then ['\\', '\\']
  else if c = '\n' then ['\\', 'n']
  else if c = '\r' then ['\\', 'r']
  else if c = '\t' then ['\\', 't']
  else if c = '\x0c' then ['\\', 'f']
  else if c = '\x08' then ['\\', 'b']
  else if 0x20 ≤ c.toNat ∧ c.toNat < 0x7F then [c]
  else (Text.units c).flatMap fun u ↦ '\\' :: 'u' :: Text.hex 4 u

def escapePoint : CodePoint → Text
  | .char c => escape c
  | .half k => '\\' :: 'u' :: Text.hex 4 (0xD800 + k)

def quote (t : CodeText) : Text := '"' :: t.flatMap escapePoint ++ ['"']

def scalarText : Json → Text
  | null => "null".toList
  | bool true => "true".toList
  | bool false => "false".toList
  | int n => Text.ofInt n
  | num x => Binary.Layout.document.render x
  | str t => quote t
  | list _ => "[]".toList
  | object _ => ['\x7b', '\x7d']

def newline (indent : Option Nat) (depth : Nat) : Text :=
  match indent with
  | none => []
  | some n => '\n' :: List.replicate (n * depth) ' '

def separator (indent : Option Nat) (depth : Nat) : Text :=
  match indent with
  | none => [',', ' ']
  | some _ => ',' :: newline indent depth

mutual

def textAt (indent : Option Nat) (depth : Nat) : Json → Text
  | list (v :: vs) =>
    '[' :: newline indent (depth + 1) ++ textAt indent (depth + 1) v ++
      itemsText indent (depth + 1) vs ++ newline indent depth ++ [']']
  | object ((k, v) :: ms) =>
    '\x7b' :: newline indent (depth + 1) ++ quote k ++ ':' :: ' ' :: textAt indent (depth + 1) v ++
      membersText indent (depth + 1) ms ++ newline indent depth ++ ['\x7d']
  | v => scalarText v

def itemsText (indent : Option Nat) (depth : Nat) : List Json → Text
  | [] => []
  | v :: vs => separator indent depth ++ textAt indent depth v ++ itemsText indent depth vs

def membersText (indent : Option Nat) (depth : Nat) : List (CodeText × Json) → Text
  | [] => []
  | (k, v) :: ms =>
    separator indent depth ++ quote k ++ ':' :: ' ' :: textAt indent depth v ++
      membersText indent depth ms

end

def compact (v : Json) : Text := textAt none 0 v

def indented (v : Json) : Text := textAt (some 2) 0 v

def document (v : Json) : Except Overrun Text :=
  if v.isWritable then .ok v.indented else .error .digits

end StepAndRepeat.Json
