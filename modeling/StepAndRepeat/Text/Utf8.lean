import StepAndRepeat.Text.Basic

namespace StepAndRepeat.Text

def utf8 (t : Text) : List UInt8 := t.flatMap String.utf8EncodeChar

def continuation? (b : UInt8) : Option Nat :=
  if 0x80 ≤ b ∧ b < 0xC0 then some (b.toNat - 0x80) else none

/-- The code point of a number, if it is at least as great as its form requires. -/
def codePoint? (least n : Nat) : Option Char :=
  if h : n.isValidChar then
    if least ≤ n then some (Char.ofNatAux n h) else none
  else none

def ofUtf8? : List UInt8 → Option Text
  | [] => some []
  | a :: bs =>
    if a < 0x80 then (ofUtf8? bs).map (Char.ofNat a.toNat :: ·)
    else
      match bs with
      | b :: bs =>
        match continuation? b with
        | none => none
        | some y =>
          if 0xC0 ≤ a ∧ a < 0xE0 then
            match codePoint? 0x80 ((a.toNat - 0xC0) * 0x40 + y) with
            | none => none
            | some c => (ofUtf8? bs).map (c :: ·)
          else
            match bs with
            | c :: bs =>
              match continuation? c with
              | none => none
              | some z =>
                if 0xE0 ≤ a ∧ a < 0xF0 then
                  match codePoint? 0x800 (((a.toNat - 0xE0) * 0x40 + y) * 0x40 + z) with
                  | none => none
                  | some c => (ofUtf8? bs).map (c :: ·)
                else
                  match bs with
                  | d :: bs =>
                    match continuation? d with
                    | none => none
                    | some w =>
                      if 0xF0 ≤ a ∧ a < 0xF8 then
                        match codePoint? 0x10000
                            ((((a.toNat - 0xF0) * 0x40 + y) * 0x40 + z) * 0x40 + w) with
                        | none => none
                        | some c => (ofUtf8? bs).map (c :: ·)
                      else none
                  | [] => none
            | [] => none
      | [] => none

/-- A text with a line feed for every line end of the form used in files. -/
def unifyBreaks : Text → Text
  | [] => []
  | '\r' :: '\n' :: t => '\n' :: unifyBreaks t
  | c :: t => (if c = '\r' then '\n' else c) :: unifyBreaks t

end StepAndRepeat.Text
