import StepAndRepeat.Replication.Shift

namespace StepAndRepeat

/-- One placed copy of the program. Rows and columns count from one. -/
structure Instance (α : Type) where
  part : Int
  row : Int
  column : Int
  offset : Offset α

end StepAndRepeat
