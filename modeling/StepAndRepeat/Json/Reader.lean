import StepAndRepeat.Json.Value
import StepAndRepeat.Number.Binary

namespace StepAndRepeat.Json

inductive Refusal where
  | malformed
  /-- A value lies too deep within others. -/
  | tooDeep
  deriving DecidableEq, Repr

def isSpace (c : Char) : Bool := c = ' ' || c = '\t' || c = '\n' || c = '\r'

def skipSpace (t : Text) : Text := t.dropWhile isSpace

def after? (word : Text) (t : Text) : Option Text :=
  if word.isPrefixOf t then some (t.drop word.length) else none

def escape? : Char → Option Char
  | '"' => some '"'
  | '\\' => some '\\'
  | '/' => some '/'
  | 'b' => some '\x08'
  | 'f' => some '\x0c'
  | 'n' => some '\n'
  | 'r' => some '\r'
  | 't' => some '\t'
  | _ => none

/-- What was read, with a unit that still waits for a partner. -/
def settle (waiting : Option Nat) (done : CodeText) : CodeText :=
  match waiting with
  | none => done
  | some u => .ofUnit u :: done

/-- The rest of a string after its opening quote: what was read so far, last first, a unit that
waits for its partner, and the text. The answer is the string and what follows its end. -/
def stringFrom (done : CodeText) (waiting : Option Nat) : Text → Option (CodeText × Text)
  | [] => none
  | '"' :: t => some ((settle waiting done).reverse, t)
  | '\\' :: 'u' :: a :: b :: c :: d :: t =>
    match Text.unit? a b c d with
    | none => none
    | some u =>
      if Text.isHighUnit u then stringFrom (settle waiting done) (some u) t
      else
        match waiting with
        | none => stringFrom (.ofUnit u :: done) none t
        | some h =>
          if Text.isLowUnit u then stringFrom (.char (Text.ofPair h u) :: done) none t
          else stringFrom (.ofUnit u :: .ofUnit h :: done) none t
  | '\\' :: e :: t =>
    match escape? e with
    | none => none
    | some c => stringFrom (.char c :: settle waiting done) none t
  | c :: t =>
    if c.toNat < 0x20 ∨ c = '\\' then none
    else stringFrom (.char c :: settle waiting done) none t

def isAsciiDigit (c : Char) : Bool := '0' ≤ c && c ≤ '9'

def natOf (ds : Text) : Nat := ds.foldl (fun n c ↦ 10 * n + (c.toNat - 0x30)) 0

def wholePart : Text → Option (Text × Text)
  | '0' :: t => some (['0'], t)
  | c :: t =>
    if isAsciiDigit c then some (c :: t.takeWhile isAsciiDigit, t.dropWhile isAsciiDigit) else none
  | [] => none

def fractionPart (t : Text) : Option (Text × Text) :=
  match t with
  | '.' :: r =>
    match r.takeWhile isAsciiDigit with
    | [] => none
    | ds => some (ds, r.dropWhile isAsciiDigit)
  | _ => none

def exponentPart (t : Text) : Option (Int × Text) :=
  match t with
  | c :: r =>
    if c = 'e' ∨ c = 'E' then
      let (negative, r) := match r with
        | '-' :: u => (true, u)
        | '+' :: u => (false, u)
        | u => (false, u)
      match r.takeWhile isAsciiDigit with
      | [] => none
      | ds => some (if negative then -(natOf ds : Int) else natOf ds, r.dropWhile isAsciiDigit)
    else none
  | [] => none

/-- A number without its sign: whole unless it has a fraction or an exponent. A whole number with too
many digits is none. -/
def number (negative : Bool) (t : Text) : Option (Json × Text) :=
  match wholePart t with
  | none => none
  | some (whole, t) =>
    let (ds, places, t, decimal) := match fractionPart t with
      | some (ds, t) => (whole ++ ds, ds.length, t, true)
      | none => (whole, 0, t, false)
    let (e, t, decimal) := match exponentPart t with
      | some (e, t) => (e, t, true)
      | none => (0, t, decimal)
    if decimal then
      let x := Binary.ofDecimal (natOf ds) (e - places)
      some (num (if negative then -x else x), t)
    else if digitLimit < ds.length then none
    else some (int (if negative then -(natOf ds : Int) else natOf ds), t)

def scalar (t : Text) : Option (Json × Text) :=
  match t with
  | [] => none
  | '"' :: t => (stringFrom [] none t).map fun (s, t) ↦ (str s, t)
  | '-' :: t =>
    match after? "Infinity".toList t with
    | some t => some (num (-Binary.infinity), t)
    | none => number true t
  | 'n' :: t => (after? "ull".toList t).map (null, ·)
  | 't' :: t => (after? "rue".toList t).map (bool true, ·)
  | 'f' :: t => (after? "alse".toList t).map (bool false, ·)
  | 'N' :: t => (after? "aN".toList t).map (num (0 / 0), ·)
  | 'I' :: t => (after? "nfinity".toList t).map (num Binary.infinity, ·)
  | t => number false t

def deeper {β : Type} (room : Nat) (read : Nat → Except Refusal β) : Except Refusal β :=
  match room with
  | 0 => .error .tooDeep
  | room + 1 => read room

mutual

/-- A value at the start of a text. The first argument bounds the number of values, items and
members that can still begin; twice the length of the text suffices. The second is how deep values
may lie within each other. -/
def value : Nat → Nat → Text → Except Refusal (Json × Text)
  | 0, _, _ => .error .malformed
  | n + 1, room, '[' :: t =>
    deeper room fun room ↦
      match skipSpace t with
      | ']' :: t => .ok (list [], t)
      | t => (items n room t).map fun (vs, t) ↦ (list vs, t)
  | n + 1, room, '\x7b' :: t =>
    deeper room fun room ↦
      match skipSpace t with
      | '\x7d' :: t => .ok (object [], t)
      | t => (members n room [] t).map fun (ms, t) ↦ (object ms, t)
  | _ + 1, _, t =>
    match scalar t with
    | some p => .ok p
    | none => .error .malformed

def items : Nat → Nat → Text → Except Refusal (List Json × Text)
  | 0, _, _ => .error .malformed
  | n + 1, room, t =>
    match value n room t with
    | .error f => .error f
    | .ok (v, t) =>
      match skipSpace t with
      | ']' :: t => .ok ([v], t)
      | ',' :: t => (items n room (skipSpace t)).map fun (vs, t) ↦ (v :: vs, t)
      | _ => .error .malformed

/-- The members of an object up to its closing brace, after those already read. -/
def members : Nat → Nat → List (CodeText × Json) → Text →
    Except Refusal (List (CodeText × Json) × Text)
  | n + 1, room, done, '"' :: t =>
    match stringFrom [] none t with
    | none => .error .malformed
    | some (key, t) =>
      match skipSpace t with
      | ':' :: t =>
        match value n room (skipSpace t) with
        | .error f => .error f
        | .ok (v, t) =>
          match skipSpace t with
          | '\x7d' :: t => .ok (set key v done, t)
          | ',' :: t => members n room (set key v done) (skipSpace t)
          | _ => .error .malformed
      | _ => .error .malformed
  | _, _, _, _ => .error .malformed

end

/-- The value of a text, and nothing after it but white space. There is room for so many levels
within the value itself. -/
def read (room : Nat) (t : Text) : Except Refusal Json :=
  match value (2 * t.length + 1) (room + 1) (skipSpace t) with
  | .ok (v, t) => if (skipSpace t).isEmpty then .ok v else .error .malformed
  | .error f => .error f

end StepAndRepeat.Json
