import StepAndRepeat.Number.Digits
import StepAndRepeat.Text.Blank

namespace StepAndRepeat.SkipText

open Text

/-- What is wrong with a piece. The last cell stands in a message as it is written. -/
inductive Fault where
  | rangeFormat
  | rangeEndMissing
  | rangeNumbers
  | rangeStartBelowOne
  | rangeEndBelowStart
  | rangeStartBeyond (cells : Text)
  | number
  | belowOne
  | beyond (cells : Text)
  deriving DecidableEq, Repr

namespace Fault

def message (piece : Text) : Fault → Text
  | rangeFormat => "Invalid range format: ".toList ++ piece
  | rangeEndMissing => "Invalid range: ".toList ++ piece
  | rangeNumbers => "Invalid numbers in range: ".toList ++ piece
  | rangeStartBelowOne => "Range start must be >= 1: ".toList ++ piece
  | rangeEndBelowStart => "Range end must be >= start: ".toList ++ piece
  | rangeStartBeyond n => "Range start exceeds total parts (".toList ++ n ++ "): ".toList ++ piece
  | number => "Invalid number: ".toList ++ piece
  | belowOne => "Instance must be >= 1: ".toList ++ piece
  | beyond n => "Instance exceeds total parts (".toList ++ n ++ "): ".toList ++ piece

end Fault

def pieces (t : Text) : List Text := ((cut ',' t).map trim).filter (!·.isEmpty)

def number? : Text → Except Overrun (Option Int)
  | [] => .ok none
  | c :: t =>
    let ds := if c = '+' ∨ c = '-' then t else c :: t
    if ds.isEmpty || !ds.all isDigit then .ok none
    else (readDigits ds).map fun (n : Nat) ↦ some (if c = '-' then -(n : Int) else n)

def upTo (first last : Int) : List Int :=
  (List.range (last + 1 - first).toNat).map fun (k : Nat) ↦ first + k

def itemLimit : Int := 0x8000000000000000

def listUpTo (first last : Int) : Except Overrun (List Int) :=
  if itemLimit ≤ last + 1 - first then .error .items else .ok (upTo first last)

abbrev Parts := Except Fault (List Int)

def range (piece : Text) (cells : Int) : Except Overrun Parts :=
  match (cut '-' piece).map trim with
  | [first, last] =>
    if first.isEmpty || last.isEmpty then .ok (.error .rangeEndMissing)
    else do
      let a ← number? first
      let b ← number? last
      match a, b with
      | some a, some b =>
        if a < 1 then .ok (.error .rangeStartBelowOne)
        else if b < a then .ok (.error .rangeEndBelowStart)
        else if cells < a then (writeInt cells).map fun n ↦ .error (.rangeStartBeyond n)
        else (listUpTo a (min b cells)).map .ok
      | _, _ => .ok (.error .rangeNumbers)
  | _ => .ok (.error .rangeFormat)

def single (piece : Text) (cells : Int) : Except Overrun Parts := do
  match ← number? piece with
  | none => .ok (.error .number)
  | some n =>
    if n < 1 then .ok (.error .belowOne)
    else if cells < n then (writeInt cells).map fun t ↦ .error (.beyond t)
    else .ok (.ok [n])

def parts (piece : Text) (cells : Int) : Except Overrun Parts :=
  if piece.contains '-' then range piece cells else single piece cells

def read (t : Text) (cells : Int) : Except Overrun (List (Text × Parts)) :=
  (pieces t).mapM fun p ↦ (parts p cells).map (p, ·)

def insert (n : Int) : List Int → List Int
  | [] => [n]
  | m :: ms => if n < m then n :: m :: ms else if n = m then m :: ms else m :: insert n ms

def ordered (ns : List Int) : List Int := ns.foldr insert []

/-- What a text comes to: the parts that its pieces name, and what is wrong with the first piece
that is at fault. -/
structure Reading where
  skipped : List Int
  fault? : Option (Text × Fault)
  deriving DecidableEq, Repr

namespace Reading

def ofPieces (ps : List (Text × Parts)) : Reading where
  skipped := ordered (ps.flatMap fun (_, r) ↦ match r with | .ok ns => ns | .error _ => [])
  fault? := ps.findSome? fun (p, r) ↦ match r with | .ok _ => none | .error f => some (p, f)

/-- The parts, unless a piece is at fault. -/
def accepted (r : Reading) : List Int :=
  match r.fault? with
  | some _ => []
  | none => r.skipped

end Reading

def parse (t : Text) (cells : Int) : Except Overrun Reading := (read t cells).map .ofPieces

def firstMessage? (cells : Int) : List Text → Except Overrun (Option Text)
  | [] => .ok none
  | p :: ps => do
    match ← parts p cells with
    | .ok _ => firstMessage? cells ps
    | .error f => .ok (some (f.message p))

/-- What is wrong with a text: what is wrong with its first piece at fault. Pieces after it are not
read. -/
def message? (t : Text) (cells : Int) : Except Overrun (Option Text) := firstMessage? cells (pieces t)

def format (ns : List Int) : Except Overrun Text := (ns.mapM writeInt).map (join [',', ' '])

end StepAndRepeat.SkipText
