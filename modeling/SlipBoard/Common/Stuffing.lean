import Mathlib.Data.List.Basic
import Mathlib.Data.List.TakeWhile
/-!
# Byte stuffing

Frames on a line of symbols, one of which delimits them. A frame that
carries a delimiter sends an escape and a substitute instead, and one that
carries an escape the escape and another substitute. The receiver takes a
frame off the line symbol by symbol, and passes over frames that are
empty.

Whatever the receiver has seen, behind a frame it is between frames
(`after_frame`). So a stream of frames is received as it was sent
(`received_frames`), and behind garbage all of it but at most the first
frame (`received_behind`).
-/

namespace SlipBoard

/-- A delimiter and an escape, and what stands for each of them behind an
escape. -/
structure Stuffing (α : Type*) where
  delim : α
  esc : α
  escDelim : α
  escEsc : α
  esc_ne : esc ≠ delim
  escDelim_ne : escDelim ≠ delim
  escEsc_ne : escEsc ≠ delim
  escEsc_ne_escDelim : escEsc ≠ escDelim

/-- A receiver: whether the last symbol was an escape, and the frame it
is in as far as it has come. -/
structure Deframer (α : Type*) where
  escaped : Bool
  frame : List α
  deriving DecidableEq

/-- The receiver between frames: no escape is open, and nothing has been
received of a frame. -/
def Deframer.idle {α : Type*} : Deframer α := ⟨false, []⟩

namespace Stuffing

variable {α : Type*} [DecidableEq α] (S : Stuffing α)

/-- What is sent for a symbol: an escape and a substitute for the two
special ones, and any other as it is. -/
def stuff (c : α) : List α :=
  if c = S.delim then [S.esc, S.escDelim] else if c = S.esc then [S.esc, S.escEsc] else [c]

/-- The frame of a packet: what is sent for its symbols, between two
delimiters. -/
def frame (xs : List α) : List α := S.delim :: (xs.flatMap S.stuff ++ [S.delim])

/-- What a symbol behind an escape stands for: other symbols than the
substitutes stand for themselves. -/
def unstuff (c : α) : α := if c = S.escDelim then S.delim else if c = S.escEsc then S.esc else c

/-- The frame that a symbol ends, where it is a delimiter behind a frame
that holds something. -/
def completed (d : Deframer α) (c : α) : Option (List α) :=
  if d.escaped = false ∧ c = S.delim ∧ d.frame ≠ [] then some d.frame else none

/-- The receiver behind a symbol. Behind an escape any symbol is taken for
one of the frame's, a delimiter too. -/
def step (d : Deframer α) (c : α) : Deframer α :=
  if d.escaped then ⟨false, d.frame ++ [S.unstuff c]⟩
  else if c = S.delim then .idle
  else if c = S.esc then { d with escaped := true }
  else { d with frame := d.frame ++ [c] }

/-- The receiver behind a list of symbols, -/
def after (d : Deframer α) (cs : List α) : Deframer α := cs.foldl S.step d

/-- and the frames it has received from them. -/
def received : Deframer α → List α → List (List α)
  | _, [] => []
  | d, c :: cs => (S.completed d c).toList ++ received (S.step d c) cs

variable {S} {d : Deframer α} {c : α} {cs cs' xs : List α}

/-! ## The receiver -/

@[simp] theorem after_nil (d : Deframer α) : S.after d [] = d := rfl

@[simp] theorem after_cons (d : Deframer α) (c : α) (cs : List α) :
    S.after d (c :: cs) = S.after (S.step d c) cs := rfl

theorem after_append (d : Deframer α) (cs cs' : List α) :
    S.after d (cs ++ cs') = S.after (S.after d cs) cs' := List.foldl_append

@[simp] theorem received_nil (d : Deframer α) : S.received d [] = [] := rfl

@[simp] theorem received_cons (d : Deframer α) (c : α) (cs : List α) :
    S.received d (c :: cs) = (S.completed d c).toList ++ S.received (S.step d c) cs := rfl

theorem received_append (d : Deframer α) (cs cs' : List α) :
    S.received d (cs ++ cs') = S.received d cs ++ S.received (S.after d cs) cs' := by
  induction cs generalizing d with
  | nil => rfl
  | cons c cs ih =>
    rw [List.cons_append, received_cons, received_cons, ih, List.append_assoc, after_cons]

/-! ## A frame received -/

/-- A symbol that has been stuffed is received as it was, and ends no
frame. -/
theorem received_stuff (f : List α) (c : α) :
    S.after ⟨false, f⟩ (S.stuff c) = ⟨false, f ++ [c]⟩ ∧ S.received ⟨false, f⟩ (S.stuff c) = [] := by
  unfold stuff
  split_ifs with hdelim hesc
  · subst hdelim
    simp [step, completed, unstuff, S.esc_ne]
  · subst hesc
    simp [step, completed, unstuff, S.esc_ne, S.escEsc_ne_escDelim]
  · simp [step, completed, hdelim, hesc]

/-- So is a packet: inside a frame all of its symbols are taken in, and no
frame ends. -/
theorem received_stuffed : ∀ (f xs : List α),
    S.after ⟨false, f⟩ (xs.flatMap S.stuff) = ⟨false, f ++ xs⟩ ∧
      S.received ⟨false, f⟩ (xs.flatMap S.stuff) = [] := by
  intro f xs
  induction xs generalizing f with
  | nil => exact ⟨by simp, rfl⟩
  | cons c xs ih =>
    obtain ⟨hafter, hreceived⟩ := received_stuff (S := S) f c
    rw [List.flatMap_cons, after_append, received_append, hafter, hreceived, List.nil_append]
    obtain ⟨hafter, hreceived⟩ := ih (f ++ [c])
    exact ⟨by rw [hafter, List.append_assoc, List.singleton_append], hreceived⟩

/-- What a packet leaves when it is the only one: nothing where it is
empty. -/
def solid (xs : List α) : List (List α) := if xs = [] then [] else [xs]

theorem received_delim (f : List α) :
    S.after ⟨false, f⟩ [S.delim] = .idle ∧ S.received ⟨false, f⟩ [S.delim] = solid f := by
  refine ⟨by simp [step], ?_⟩
  unfold solid
  split_ifs with hf <;> simp [completed, hf]

/-- **Behind a frame the receiver is between frames**, whatever it has seen
before. So an error does not outlive the next frame. -/
theorem after_frame (d : Deframer α) (xs : List α) : S.after d (S.frame xs) = .idle := by
  obtain ⟨escaped, f⟩ := d
  rw [frame, after_cons, after_append]
  cases escaped with
  | false =>
    rw [show S.step ⟨false, f⟩ S.delim = ⟨false, []⟩ by simp [step, Deframer.idle],
      (received_stuffed _ _).1]
    exact (received_delim _).1
  | true =>
    rw [show S.step ⟨true, f⟩ S.delim = ⟨false, f ++ [S.unstuff S.delim]⟩ by simp [step],
      (received_stuffed _ _).1]
    exact (received_delim _).1

/-- **A frame received**: what was open before it ends with its first
delimiter, and what it holds is received as it was sent. Nothing is received
of an empty one. -/
theorem received_frame (f xs : List α) :
    S.received ⟨false, f⟩ (S.frame xs) = solid f ++ solid xs := by
  have hfirst : S.received ⟨false, f⟩ (S.frame xs) =
      S.received ⟨false, f⟩ [S.delim] ++
        S.received (S.after ⟨false, f⟩ [S.delim]) (xs.flatMap S.stuff ++ [S.delim]) :=
    received_append _ [S.delim] _
  rw [hfirst, (received_delim f).1, (received_delim f).2]
  refine congrArg _ ?_
  rw [Deframer.idle, received_append, (received_stuffed _ _).1, (received_stuffed _ _).2]
  exact (received_delim _).2

/-- Behind a lone escape that delimiter is taken for one of the open
frame's symbols, and the frame goes to its end. -/
theorem received_frame_escaped (f xs : List α) :
    S.received ⟨true, f⟩ (S.frame xs) = [f ++ S.delim :: xs] := by
  have hunstuff : S.unstuff S.delim = S.delim := by
    simp [unstuff, S.escDelim_ne.symm, S.escEsc_ne.symm]
  have hstep : S.step ⟨true, f⟩ S.delim = ⟨false, f ++ [S.delim]⟩ := by simp [step, hunstuff]
  have hcompleted : S.completed ⟨true, f⟩ S.delim = none := by simp [completed]
  rw [frame, received_cons, hcompleted, hstep, received_append, (received_stuffed _ _).1,
    (received_stuffed _ _).2, (received_delim _).2, List.append_assoc]
  simp [solid]

/-! ## A stream of frames -/

/-- The packets that a stream of frames gives, in their order: those that
hold something. -/
def solids (ps : List (List α)) : List (List α) := ps.filter (· ≠ [])

omit [DecidableEq α] in
theorem solids_cons (xs : List α) (ps : List (List α)) :
    solids (xs :: ps) = solid xs ++ solids ps := by
  unfold solids solid
  split_ifs with hxs <;> simp [hxs]

/-- **A stream of frames is received as it was sent**, but for the empty
ones. -/
theorem received_frames (ps : List (List α)) :
    S.received .idle (ps.flatMap S.frame) = solids ps := by
  induction ps with
  | nil => rfl
  | cons xs ps ih =>
    rw [List.flatMap_cons, received_append, after_frame, ih, solids_cons]
    exact congrArg (· ++ _) (received_frame [] xs)

/-- **Behind garbage** the first frame ends what was open, or goes lost
into it where a lone escape hides its delimiter, and the others are
received as they were sent. -/
theorem received_behind (d : Deframer α) (xs : List α) (ps : List (List α)) :
    S.received d ((xs :: ps).flatMap S.frame) =
      (if d.escaped then [d.frame ++ S.delim :: xs] else solid d.frame ++ solid xs) ++
        solids ps := by
  obtain ⟨escaped, f⟩ := d
  rw [List.flatMap_cons, received_append, after_frame, received_frames]
  cases escaped with
  | false => exact congrArg (· ++ _) (received_frame f xs)
  | true => exact congrArg (· ++ _) (received_frame_escaped f xs)

end Stuffing

end SlipBoard
