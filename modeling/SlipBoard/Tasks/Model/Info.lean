import SlipBoard.Xprintf.Model.Format
/-!
# Tasks — what the console tells of a task

`printInfoAbouTask` of `main.c`. Of the status `vTaskGetInfo` fills in it
reads the name, which the kernel keeps with its NUL in
`configMAX_TASK_NAME_LEN` bytes, and the watermark of the stack.
-/

namespace SlipBoard

namespace Tasks

open Xprintf

/-- `configMAX_TASK_NAME_LEN`. -/
abbrev configMaxTaskNameLen : ℕ := 20

/-- What is read of a `TaskStatus_t`. -/
structure TaskStatus where
  pcTaskName : CStr configMaxTaskNameLen
  usStackHighWaterMark : UInt16

/-- The line above and below. -/
def rule : List UInt8 := ascii "+--------------------------------+\n\r"

/-- `printInfoAbouTask`: the strings it hands to `print`. `buf` is what the
stack held. -/
def printInfoAbouTask (buf : Block 32) (status : TaskStatus) : Option (List (List UInt8)) := do
  let buf ← xsprintf buf (ascii "Task name:%s\n\r") [.str status.pcTaskName.bytes]
  let name ← buf.str 0
  let buf ← xsprintf buf (ascii "Size FREE:%d\n\r") [.int status.usStackHighWaterMark.toUInt32]
  let size ← buf.str 0
  return [rule, name, size, rule]

end Tasks

end SlipBoard
