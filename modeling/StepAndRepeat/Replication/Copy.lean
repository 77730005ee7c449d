import StepAndRepeat.Program.Label
import StepAndRepeat.Replication.Shift

namespace StepAndRepeat

structure Copy (α : Type) where
  line : Line α
  text : Text

namespace Copy

def verbatim {α : Type} (l : Line α) : Copy α := ⟨l, l.text⟩

end Copy

/-- What the copying of labels remembers: a label held back, and whether the tool was retracted
and has not worked since. -/
structure LabelHold (α : Type) where
  held : Option (Copy α) := none
  afterRetract : Bool := false

namespace LabelHold

variable {α : Type} [Coordinate α]

def feed (h : LabelHold α) (c : Copy α) (leaveOut : Bool) : LabelHold α × List (Copy α) :=
  let retracted := h.afterRetract || c.line.isMachineMove
  if leaveOut then ({ h with afterRetract := retracted }, [])
  else if retracted && c.line.isComment && Label.isLabel c.text then
    ({ held := some c, afterRetract := retracted }, [])
  else
    let idle := c.line.isComment || c.line.isBlank || c.line.isMachineMove
    match h.held with
    | some label =>
      if c.line.isOperationStart then ({ held := none, afterRetract := false }, [label, c])
      else ({ held := some label, afterRetract := retracted && idle }, [c])
    | none => ({ held := none, afterRetract := retracted && idle }, [c])

/-- At the end of the lines nothing is held. -/
def finish (_ : LabelHold α) : LabelHold α := {}

end LabelHold

structure Replay (α : Type) where
  modes : Modes
  hold : LabelHold α := {}

namespace Replay

variable {α : Type} [Coordinate α]

def step (o : Offset α) (dropStops : Bool) (r : Replay α) (l : Line α) :
    Replay α × List (Copy α) :=
  let s := o.step r.modes l
  let f := r.hold.feed ⟨l, s.2⟩ (dropStops && l.isSpindleStop)
  ({ modes := s.1, hold := f.1 }, f.2)

def run (o : Offset α) (dropStops : Bool) (r : Replay α) :
    List (Line α) → Replay α × List (Copy α)
  | [] => (r, [])
  | l :: ls =>
    let s := step o dropStops r l
    let t := run o dropStops s.1 ls
    (t.1, s.2 ++ t.2)

/-- Copy lines for one instance, going on from the modes in force. The answer holds the modes at
the end and what was written. -/
def lines (o : Offset α) (dropStops : Bool) (m : Modes) (ls : List (Line α)) :
    Modes × List (Copy α) :=
  let r := run o dropStops { modes := m } ls
  (r.1.modes, r.2)

end Replay

end StepAndRepeat
