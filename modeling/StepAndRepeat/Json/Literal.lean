import StepAndRepeat.Text.Quoted
import StepAndRepeat.Number.Shortest
import StepAndRepeat.Json.Value

namespace StepAndRepeat.Json

mutual

def literal : Json → Text
  | null => "None".toList
  | bool true => "True".toList
  | bool false => "False".toList
  | int n => Text.ofInt n
  | num x => Binary.Layout.plain.render x
  | str t => Text.quoted t
  | list [] => "[]".toList
  | list (v :: vs) => '[' :: literal v ++ itemLiterals vs ++ [']']
  | object [] => ['\x7b', '\x7d']
  | object ((k, v) :: ms) =>
    '\x7b' :: Text.quoted k ++ ':' :: ' ' :: literal v ++ memberLiterals ms ++ ['\x7d']

def itemLiterals : List Json → Text
  | [] => []
  | v :: vs => ',' :: ' ' :: literal v ++ itemLiterals vs

def memberLiterals : List (CodeText × Json) → Text
  | [] => []
  | (k, v) :: ms =>
    ',' :: ' ' :: Text.quoted k ++ ':' :: ' ' :: literal v ++ memberLiterals ms

end

/-- The literal of a value, or the text itself if it is one. -/
def plainText : Json → CodeText
  | str t => t
  | v => .ofText v.literal

end StepAndRepeat.Json
