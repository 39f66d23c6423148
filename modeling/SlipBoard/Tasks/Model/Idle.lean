import SlipBoard.Xprintf.Model.Format
/-!
# Tasks — the free time of the CPU

`vApplicationIdleHook` and `print_CPU_FREE` of `main.c`. A call of the
hook reads the tick counter once, and a second time where a second has
gone by; both readings are part of the action, and so is nothing else.
The watch dog is left out.
-/

namespace SlipBoard

namespace Tasks

open Xprintf

/-- `configTICK_RATE_HZ`. -/
abbrev configTickRateHz : UInt32 := 1000

/-- `SIZE_CPU_FREE`. -/
abbrev sizeCpuFree : ℕ := 20

/-- `MPU_IDLE`, `MIN_MPU_FREE`, `masCpuFree`, and the static variables of
the hook. -/
structure CpuLoad where
  mpuIdle : UInt32
  minMpuFree : UInt32
  masCpuFree : List UInt32
  lastTick : UInt32
  count : UInt32
  maxCount : UInt32
  deriving DecidableEq

/-- The values before the first call. -/
def CpuLoad.init : CpuLoad := ⟨100, 100, List.replicate sizeCpuFree 0, 0, 0, 0⟩

/-- What `xTaskGetTickCount` answers in a call: to the test, and to the
assignment behind it. -/
structure Ticks where
  now : UInt32
  stored : UInt32
  deriving DecidableEq

/-- Division, which answers where the divisor is not zero. -/
def divide (a b : UInt32) : Option UInt32 := if b = 0 then none else some (a / b)

/-- `for (i = 1; i < SIZE_CPU_FREE; i++) masCpuFree[i - 1] = masCpuFree[i]`,
from `i` on. -/
def shiftLoop : ℕ → ℕ → List UInt32 → List UInt32
  | 0, _, mas => mas
  | left + 1, i, mas => shiftLoop left (i + 1) (mas.set (i - 1) (mas.getD i 0))

/-- Whether a second has gone by. -/
def CpuLoad.closes (l : CpuLoad) (t : Ticks) : Bool := t.now - l.lastTick ≥ configTickRateHz

/-- `vApplicationIdleHook`. -/
def vApplicationIdleHook (l : CpuLoad) (t : Ticks) : Option CpuLoad :=
  let count := l.count + 1
  if l.closes t then do
    let maxCount := if count > l.maxCount then count else l.maxCount
    let mpuIdle ← divide (100 * count) maxCount
    let mas := shiftLoop (sizeCpuFree - 1) 1 l.masCpuFree
    return {
      mpuIdle := mpuIdle
      minMpuFree := if mpuIdle < l.minMpuFree then mpuIdle else l.minMpuFree
      masCpuFree := mas.set (sizeCpuFree - 1) mpuIdle
      lastTick := t.stored
      count := 0
      maxCount := maxCount }
  else return { l with count := count }

/-! ## Printing -/

/-- `BERUZ_BEGIN` and the others. -/
def colorBegin (code : String) : List UInt8 := [27] ++ ascii "[" ++ ascii code ++ ascii "m"

/-- The colour a value is printed in. -/
def color (v : UInt32) : List UInt8 :=
  let color := colorBegin "32"
  let color := if v ≤ 90 then colorBegin "36" else color
  let color := if v < 50 then colorBegin "33" else color
  if v < 25 then colorBegin "31" else color

/-- The format of a line, `front` and then a percentage. -/
def lineFormat (front : String) : List UInt8 :=
  ascii front ++ ascii "%s%d%%" ++ colorBegin "0" ++ ascii "\n\r"

/-- `xsprintf (mas, ...)` and `print (pThis, mas)`. -/
def printLine (mas : Block 128) (front : String) (color : List UInt8) (v : UInt32) :
    Option (Block 128 × List UInt8) := do
  let mas ← xsprintf mas (lineFormat front) [.str color, .int v]
  let line ← mas.str 0
  return (mas, line)

/-- `print_CPU_FREE`: the strings it hands to `print`. -/
def printCpuFree (l : CpuLoad) : Option (List (List UInt8)) := do
  let mas : Block 128 := ⟨fun _ => 0⟩
  let (mas, idle) ← printLine mas "MPU IDLE(FREE):" (color l.mpuIdle) l.mpuIdle
  let (mas, use) ← printLine mas "MPU USE:" (color l.mpuIdle) (100 - l.mpuIdle)
  let (mas, min) ← printLine mas "MPU Minimum IDLE(FREE):" (color l.minMpuFree) l.minMpuFree
  let (_, max) ← printLine mas "MPU Maximum USE:" (color l.minMpuFree) (100 - l.minMpuFree)
  return [idle, use, ascii "\n\r", min, max]

end Tasks

end SlipBoard
