import SlipBoard.Tasks.Model.Info
import SlipBoard.Xprintf.Format
/-!
# Tasks — what fits `buf`

The two lines of `printInfoAbouTask` are put into 32 bytes. That of the
watermark always fits. That of the name has 14 bytes besides the name,
and takes two for a line feed in it, so that a name of 19 characters,
which the kernel allows, does not fit (`printInfoAbouTask_fits_iff`).
-/

namespace SlipBoard

namespace Tasks

open Xprintf

variable {n : ℕ} {name : List UInt8}

/-- The line of the name, -/
theorem xvprintf_name (name : List UInt8) :
    xvprintf ((ascii "Task name:%s\n\r").length + 1) (ascii "Task name:%s\n\r") [.str name] =
      some (ascii "Task name:" ++ name ++ [10, 13]) := by
  simp [xvprintf, ascii, field, width, kind, Field.fill]

/-- and that of the watermark. -/
theorem xvprintf_size (v : UInt32) (h : v < 0x80000000) :
    xvprintf ((ascii "Size FREE:%d\n\r").length + 1) (ascii "Size FREE:%d\n\r") [.int v] =
      some (ascii "Size FREE:" ++ decimal v.toNat ++ [10, 13]) := by
  simp [xvprintf, ascii, field, width, kind, Field.fill, numeral_eq _ _ h]

/-- The text of either line as it is stored: only its own line feed, at the
end, gets a CR. -/
theorem crlf_line {front : List UInt8} (h : 10 ∉ front) (text : List UInt8) :
    crlf (front ++ text ++ [10, 13]) = front ++ crlf text ++ [13, 10, 13] := by
  rw [crlf_append, crlf_append, crlf_eq_self h]
  rfl

/-- The line of the watermark has five digits at most. -/
theorem xsprintf_size (buff : Block 32) (mark : UInt16) :
    ∃ buff', xsprintf buff (ascii "Size FREE:%d\n\r") [.int mark.toUInt32] = some buff' ∧
      buff'.str 0 = some (ascii "Size FREE:" ++ decimal mark.toNat ++ [13, 10, 13]) := by
  have hmark : mark.toNat < 2 ^ 16 := mark.toNat_lt
  have htext := xvprintf_size mark.toUInt32 (by
    rw [UInt32.lt_iff_toNat_lt, UInt16.toNat_toUInt32]
    show _ < 2147483648
    omega)
  have hcrlf : crlf (ascii "Size FREE:" ++ decimal mark.toNat ++ [10, 13]) =
      ascii "Size FREE:" ++ decimal mark.toNat ++ [13, 10, 13] := by
    rw [crlf_line (by decide), crlf_eq_self (lf_notMem_decimal _)]
  have hdigits : (decimal mark.toNat).length ≤ 5 := length_decimal_le (by decide) (by omega)
  have hlen : (ascii "Size FREE:").length = 10 := rfl
  rw [UInt16.toNat_toUInt32] at htext
  rw [← hcrlf]
  refine xsprintf_line buff htext ?_ ?_
  · simp only [List.mem_append, not_or]
    exact ⟨⟨by decide, nul_notMem_decimal _⟩, by decide⟩
  · simp only [hcrlf, List.length_append, List.length_cons, List.length_nil, hlen]
    omega

/-- The line of the name has what is left of `buf`. -/
theorem xsprintf_name (buff : Block 32) (name : CStr configMaxTaskNameLen) :
    (∃ buff', xsprintf buff (ascii "Task name:%s\n\r") [.str name.bytes] = some buff' ∧
      buff'.str 0 = some (ascii "Task name:" ++ crlf name.bytes ++ [13, 10, 13]) ∧
      name.bytes.length + name.bytes.count 10 ≤ 18) ∨
    xsprintf buff (ascii "Task name:%s\n\r") [.str name.bytes] = none ∧
      18 < name.bytes.length + name.bytes.count 10 := by
  have htext := xvprintf_name name.bytes
  have hcrlf : crlf (ascii "Task name:" ++ name.bytes ++ [10, 13]) =
      ascii "Task name:" ++ crlf name.bytes ++ [13, 10, 13] := crlf_line (by decide) _
  have hlen : (crlf (ascii "Task name:" ++ name.bytes ++ [10, 13])).length =
      13 + (name.bytes.length + name.bytes.count 10) := by
    have hfront : (ascii "Task name:").length = 10 := rfl
    rw [hcrlf, List.length_append, List.length_append, hfront, length_crlf]
    show _ + 3 = _
    omega
  by_cases hfit : name.bytes.length + name.bytes.count 10 ≤ 18
  · refine .inl ?_
    obtain ⟨buff', hrun, hstr⟩ := xsprintf_line buff htext (by
      simp only [List.mem_append, not_or]
      exact ⟨⟨by decide, name.noNul⟩, by decide⟩) (by omega)
    exact ⟨buff', hrun, hstr.trans (congrArg some hcrlf), hfit⟩
  · refine .inr ⟨?_, Nat.not_le.1 hfit⟩
    rw [xsprintf_eq buff htext, if_neg (by omega)]

/-- **What fits**: both lines are inside `buf` exactly for the names of 18
bytes at most, with two bytes for a line feed. Then they are what is
printed. -/
theorem printInfoAbouTask_fits_iff (buf : Block 32) (status : TaskStatus) :
    ((printInfoAbouTask buf status).isSome ↔
      status.pcTaskName.bytes.length + status.pcTaskName.bytes.count 10 ≤ 18) ∧
    (status.pcTaskName.bytes.length + status.pcTaskName.bytes.count 10 ≤ 18 →
      printInfoAbouTask buf status = some [rule,
        ascii "Task name:" ++ crlf status.pcTaskName.bytes ++ [13, 10, 13],
        ascii "Size FREE:" ++ decimal status.usStackHighWaterMark.toNat ++ [13, 10, 13], rule]) := by
  unfold printInfoAbouTask
  rcases xsprintf_name buf status.pcTaskName with ⟨buff, hname, hstr, hfit⟩ | ⟨hnone, hlong⟩
  · obtain ⟨buff', hsize, hstr'⟩ := xsprintf_size buff status.usStackHighWaterMark
    simp only [hname, hstr, hsize, hstr', Option.bind_eq_bind, Option.bind_some]
    exact ⟨iff_of_true rfl hfit, fun _ => rfl⟩
  · rw [hnone]
    exact ⟨iff_of_false (fun h => by cases h) (Nat.not_le.2 hlong),
      fun hfit => absurd hlong (Nat.not_lt.2 hfit)⟩

/-- A name of 19 characters. -/
def longestName : CStr configMaxTaskNameLen := ⟨List.replicate 19 97, by decide, by decide⟩

/-- **The longest names do not fit**: the NUL behind the line is stored
past `buf`. -/
theorem longestName_overflows : printInfoAbouTask ⟨fun _ => 0⟩ ⟨longestName, 0⟩ = none := by
  rcases xsprintf_name ⟨fun _ => 0⟩ longestName with ⟨-, -, -, hfit⟩ | ⟨hnone, -⟩
  · exact absurd hfit (by decide)
  · rw [printInfoAbouTask]
    show (xsprintf _ _ [.str longestName.bytes]).bind _ = none
    rw [hnone]
    rfl

end Tasks

end SlipBoard
