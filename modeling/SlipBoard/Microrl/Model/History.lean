import SlipBoard.Common.Block
/-!
# Line editor — the history ring

`ring_history_t` keeps the lines entered as length-prefixed records in a
ring of 64 bytes, oldest first, with a zero byte behind the newest. A
function answers `none` where the code would access a cell outside an
array, or would not come to an end within the fuel its loop is given:
one round for each cell of the ring.
-/

namespace SlipBoard

namespace Microrl

/-- `_COMMAND_LINE_LEN`. -/
abbrev commandLineLen : ℕ := 1 + 100

/-- `_RING_HISTORY_LEN`. -/
abbrev ringHistoryLen : ℕ := 64

/-- `ring_history_t`. -/
structure RingHistory where
  ringBuf : Block ringHistoryLen
  begin : ℕ
  «end» : ℕ
  cur : ℕ

/-- The ring as `microrl_init` leaves it. -/
def RingHistory.init : RingHistory := ⟨⟨fun _ => 0⟩, 0, 0, 0⟩

/-- An index that has run past the end of the ring. -/
def wrapHistory (pos : ℕ) : ℕ := if pos ≥ ringHistoryLen then pos - ringHistoryLen else pos

/-- `hist_erase_older`. -/
def histEraseOlder (h : RingHistory) : Option RingHistory := do
  let len ← h.ringBuf.load h.begin
  return { h with begin := wrapHistory (h.begin + len.toNat + 1) }

/-- `hist_is_space_for_new`, on the `int`s it computes with. -/
def histIsSpaceForNew (h : RingHistory) (len : ℕ) : Option Bool := do
  let header ← h.ringBuf.load h.begin
  -- a zero at `begin`: the ring is empty
  if header = 0 then return true
  else if h.end ≥ h.begin then
    return decide ((ringHistoryLen : ℤ) - h.end + h.begin - 1 > len)
  else return decide ((h.begin : ℤ) - h.end - 1 > len)

/-- `while (!hist_is_space_for_new (pThis, len)) hist_erase_older (pThis)`. -/
def histMakeSpace (len : ℕ) : ℕ → RingHistory → Option RingHistory
  | 0, _ => none
  | fuel + 1, h => do
    if ← histIsSpaceForNew h len then return h
    else histMakeSpace len fuel (← histEraseOlder h)

/-- The header of a first line, stored where `begin` stands. -/
def histStoreFirst (h : RingHistory) (len : ℕ) : Option (Block ringHistoryLen) := do
  let header ← h.ringBuf.load h.begin
  if header = 0 then h.ringBuf.store h.begin (UInt8.ofNat len)
  else return h.ringBuf

/-- The copy of a line into the ring behind its header, in two parts
where the ring ends within it. -/
def histStoreText (buf : Block ringHistoryLen) (pos : ℕ) {n : ℕ} (line : Block n) (len : ℕ) :
    Option (Block ringHistoryLen) :=
  if len < ringHistoryLen - pos - 1 then do
    buf.write (pos + 1) (← line.read 0 len)
  else do
    let partLen := ringHistoryLen - pos - 1
    let buf ← buf.write (pos + 1) (← line.read 0 partLen)
    buf.write 0 (← line.read partLen (len - partLen))

/-- `hist_save_line`. -/
def histSaveLine (h : RingHistory) {n : ℕ} (line : Block n) (len : ℕ) : Option RingHistory :=
  if len > ringHistoryLen - 2 then some h
  else do
    let h ← histMakeSpace len ringHistoryLen h
    let buf ← histStoreFirst h len
    let buf ← histStoreText buf h.end line len
    -- the header follows the text, for a first line a second time
    let buf ← buf.store h.end (UInt8.ofNat len)
    let pos := wrapHistory (h.end + len + 1)
    let buf ← buf.store pos 0
    return ⟨buf, h.begin, pos, 0⟩

/-- `_HIST_UP` and `_HIST_DOWN`. -/
inductive Dir
  | up
  | down
  deriving DecidableEq

/-- The count of the records, which starts at `header`. -/
def countRecords (buf : Block ringHistoryLen) : ℕ → ℕ → ℕ → Option ℕ
  | 0, _, _ => none
  | fuel + 1, header, cnt => do
    let len ← buf.load header
    if len ≠ 0 then countRecords buf fuel (wrapHistory (header + len.toNat + 1)) (cnt + 1)
    else return cnt

/-- The walk to a record: on to the terminator, or to the first `j` that
is the one looked for. -/
def findRecord (buf : Block ringHistoryLen) (found : ℕ → Bool) : ℕ → ℕ → ℕ → Option ℕ
  | 0, _, _ => none
  | fuel + 1, header, j => do
    let len ← buf.load header
    if len ≠ 0 ∧ !found j then
      findRecord buf found fuel (wrapHistory (header + len.toNat + 1)) (j + 1)
    else return header

/-- The copy of a record's text into the line, in two parts where the
ring ends within it. -/
def histLoadText (buf : Block ringHistoryLen) (header : ℕ) (line : Block commandLineLen) :
    Option (Block commandLineLen) := do
  let len := (← buf.load header).toNat
  if len + header < ringHistoryLen then
    line.write 0 (← buf.read (header + 1) len)
  else
    let part0 := ringHistoryLen - header - 1
    let line ← line.write 0 (← buf.read (header + 1) part0)
    line.write part0 (← buf.read 0 (len - part0))

/-- `memset (line, 0, _COMMAND_LINE_LEN)`. -/
def clearLine (line : Block commandLineLen) : Option (Block commandLineLen) :=
  line.write 0 (List.replicate commandLineLen 0)

/-- `hist_restore_line`. The last component is what it returns, `none`
for −1. -/
def histRestoreLine (h : RingHistory) (line : Block commandLineLen) (dir : Dir) :
    Option (RingHistory × Block commandLineLen × Option ℕ) := do
  let cnt ← countRecords h.ringBuf ringHistoryLen h.begin 0
  match dir with
  | .up =>
    if cnt ≥ h.cur then
      -- `cnt - j - 1 != cur`, with the subtrahends on the other side
      let header ← findRecord h.ringBuf (fun j => cnt = h.cur + j + 1) ringHistoryLen h.begin 0
      let len ← h.ringBuf.load header
      if len ≠ 0 then
        let line ← histLoadText h.ringBuf header (← clearLine line)
        return ({ h with cur := h.cur + 1 }, line, some len.toNat)
      else return (h, line, none)
    else return (h, line, none)
  | .down =>
    if h.cur > 0 then
      let h := { h with cur := h.cur - 1 }
      let header ← findRecord h.ringBuf (fun j => cnt = h.cur + j) ringHistoryLen h.begin 0
      let len ← h.ringBuf.load header
      -- on the way down the line is not cleared first
      let line ← histLoadText h.ringBuf header line
      return (h, line, some len.toNat)
    else return (h, line, some 0)

end Microrl

end SlipBoard
