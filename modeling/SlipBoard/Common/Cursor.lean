import Mathlib.Data.List.TakeDrop
import Mathlib.Algebra.Order.Ring.Nat
/-!
# Codes over a row of cells

A cursor is a window of a row of cells: where it begins and how many
cells it has left. A code is a computation that moves a cursor, and may
fail. `Writes p cs v` says that `p` writes the cells `cs`, wherever they
fit, and answers `v`; `Reads p cs v` that `p` reads them as `v`, whatever
stands behind them. Both compose: a code in parts writes and reads what
its parts do, one behind the other. `ReadsBefore`, `FailsBefore` and
`WritesFrom` are for codes that know how much is left, or where they are.
`Spans p s Q E` is for a code that reads whatever it finds: `p` changes no
cell and stays in its window, and ends well with `Q`, or with an error in
`E`.
-/

namespace SlipBoard

/-- A window of a row of cells: `length` cells from `offset` on. A
computation may read and write there, and leaves the window behind what it
has used. -/
structure Cursor (α : Type*) where
  cells : List α
  offset : ℕ
  length : ℕ
  deriving DecidableEq

/-- A computation that moves a cursor, and answers or fails. Where it fails,
the cursor stays where it has come to. -/
abbrev Code (ε α β : Type) := ExceptT ε (StateM (Cursor α)) β

namespace Cursor

variable {α : Type} {s t : Cursor α} {cs ds rest : List α} {m n : ℕ}

/-- The window lies in the row, so that each of its cells is there. -/
def Within (s : Cursor α) : Prop := s.offset + s.length ≤ s.cells.length

/-- The cells of the window, which are what a code may read. -/
def window (s : Cursor α) : List α := (s.cells.drop s.offset).take s.length

/-- The cursor behind `n` cells of its window, with the row as it is. -/
def skip (s : Cursor α) (n : ℕ) : Cursor α := ⟨s.cells, s.offset + n, s.length - n⟩

/-- The cells in place of those at the head of the window, and behind
them. -/
def put (s : Cursor α) (cs : List α) : Cursor α :=
  ⟨s.cells.take s.offset ++ cs ++ s.cells.drop (s.offset + cs.length), s.offset + cs.length,
    s.length - cs.length⟩

theorem length_window (h : s.Within) : s.window.length = s.length := by
  have hin : s.offset + s.length ≤ s.cells.length := h
  rw [window, List.length_take, List.length_drop]
  omega

@[simp] theorem skip_zero : s.skip 0 = s := rfl

theorem skip_skip : (s.skip m).skip n = s.skip (m + n) := by
  rw [skip, skip, skip, Nat.add_assoc, Nat.sub_sub]

theorem Within.skip (h : s.Within) (hn : n ≤ s.length) : (s.skip n).Within := by
  have hin : s.offset + s.length ≤ s.cells.length := h
  show s.offset + n + (s.length - n) ≤ s.cells.length
  omega

theorem window_skip : (s.skip n).window = s.window.drop n := by
  rw [window, window, List.drop_take, List.drop_drop]
  rfl

/-- What stands behind the cells that are read is the window that they
leave. -/
theorem window_skip_append (h : s.window = cs ++ rest) : (s.skip cs.length).window = rest := by
  rw [window_skip, h, List.drop_left]

theorem window_skip_cons {c : α} (h : s.window = c :: rest) : (s.skip 1).window = rest := by
  rw [window_skip, h, List.drop_one, List.tail_cons]

theorem put_nil (s : Cursor α) : s.put [] = s := by
  rw [put, List.append_nil, List.length_nil, Nat.add_zero, Nat.sub_zero, List.take_append_drop]

theorem length_cells_put (h : s.Within) (hn : cs.length ≤ s.length) :
    (s.put cs).cells.length = s.cells.length := by
  have hin : s.offset + s.length ≤ s.cells.length := h
  rw [put, List.length_append, List.length_append, List.length_take, List.length_drop]
  omega

theorem Within.put (h : s.Within) (hn : cs.length ≤ s.length) : (s.put cs).Within := by
  have hin : s.offset + s.length ≤ s.cells.length := h
  show s.offset + cs.length + (s.length - cs.length) ≤ (s.put cs).cells.length
  rw [length_cells_put h hn]
  omega

/-- **Two writes, one behind the other**, are one write of both, where the
first has room. -/
theorem put_put (h : s.Within) (hn : cs.length ≤ s.length) :
    (s.put cs).put ds = s.put (cs ++ ds) := by
  have hin : s.offset + s.length ≤ s.cells.length := h
  have htake : (s.cells.take s.offset ++ cs).length = s.offset + cs.length := by
    rw [List.length_append, List.length_take]
    omega
  simp only [put, List.length_append, Nat.sub_sub, ← Nat.add_assoc, Cursor.mk.injEq, and_true]
  have hfront : (s.cells.take s.offset ++ cs ++ s.cells.drop (s.offset + cs.length)).take
      (s.offset + cs.length) = s.cells.take s.offset ++ cs := by
    rw [← htake, List.take_left]
  have hback : (s.cells.take s.offset ++ cs ++ s.cells.drop (s.offset + cs.length)).drop
      (s.offset + cs.length + ds.length) = s.cells.drop (s.offset + cs.length + ds.length) := by
    rw [← List.drop_drop, List.drop_left' htake, List.drop_drop]
  rw [hfront, hback, List.append_assoc (s.cells.take s.offset) cs ds]

/-- **What is written is what is read**, by a cursor that is set where the
writing began. -/
theorem window_put (h : s.Within) (hn : cs.length ≤ s.length) :
    (⟨(s.put cs).cells, s.offset, cs.length⟩ : Cursor α).window = cs := by
  have hin : s.offset + s.length ≤ s.cells.length := h
  have htake : (s.cells.take s.offset).length = s.offset := by
    rw [List.length_take]
    omega
  have hdrop : (s.cells.take s.offset ++ cs ++ s.cells.drop (s.offset + cs.length)).drop s.offset =
      cs ++ s.cells.drop (s.offset + cs.length) := by
    rw [List.append_assoc]
    exact List.drop_left' htake
  show ((s.cells.take s.offset ++ cs ++ s.cells.drop (s.offset + cs.length)).drop s.offset).take
    cs.length = cs
  rw [hdrop, List.take_left]

/-- In front of what is written nothing changes, whatever is written there. -/
theorem take_put (h : s.Within) : (s.put cs).cells.take s.offset = s.cells.take s.offset := by
  have hin : s.offset + s.length ≤ s.cells.length := h
  have htake : (s.cells.take s.offset).length = s.offset := by
    rw [List.length_take]
    omega
  rw [put, List.append_assoc]
  exact List.take_left' htake

/-- What is read in front of a write stays as it was, which is how an answer
may be written behind its request. -/
theorem window_put_of_le (h : s.Within) (hle : m + n ≤ s.offset) :
    (⟨(s.put cs).cells, m, n⟩ : Cursor α).window = (⟨s.cells, m, n⟩ : Cursor α).window := by
  have htake : ∀ row : List α, (row.drop m).take n = ((row.take s.offset).drop m).take n := by
    intro row
    rw [List.drop_take, List.take_take, Nat.min_eq_left (by omega)]
  show ((s.put cs).cells.drop m).take n = (s.cells.drop m).take n
  rw [htake, take_put h, ← htake]

theorem drop_put (h : s.Within) :
    (s.put cs).cells.drop (s.put cs).offset = s.cells.drop (s.put cs).offset := by
  have hin : s.offset + s.length ≤ s.cells.length := h
  have htake : (s.cells.take s.offset ++ cs).length = s.offset + cs.length := by
    rw [List.length_append, List.length_take]
    omega
  exact List.drop_left' htake

end Cursor

namespace Code

open Cursor

variable {ε α β γ : Type} {p : Code ε α β} {f : β → Code ε α γ} {cs ds : List α} {v : β} {w : γ}

/-- How the code ends, and where it leaves the cursor. What is proved of a
code is an equation of this. -/
def exec (p : Code ε α β) (s : Cursor α) : Except ε β × Cursor α := p s

theorem exec_pure (v : β) (s : Cursor α) : exec (pure v : Code ε α β) s = (.ok v, s) := rfl

theorem exec_bind (p : Code ε α β) (f : β → Code ε α γ) (s : Cursor α) : exec (p >>= f) s =
    match exec p s with
    | (.ok v, t) => exec (f v) t
    | (.error e, t) => (.error e, t) := by
  show (ExceptT.bind p f : StateM (Cursor α) (Except ε γ)) s = _
  unfold ExceptT.bind exec
  show (match p s with | (r, t) => ExceptT.bindCont f r t) = _
  rcases p s with ⟨r | v, t⟩ <;> rfl

theorem exec_bind_ok {s t : Cursor α} (h : exec p s = (.ok v, t)) :
    exec (p >>= f) s = exec (f v) t := by
  rw [exec_bind, h]

/-- The number of cells left in the window, which the code may ask for
without moving. -/
def left : Code ε α ℕ := fun s => (.ok s.length, s)

/-- Where in the row the window begins, which the code may ask for without
moving. -/
def position : Code ε α ℕ := fun s => (.ok s.offset, s)

/-- The code, with its failures told in other words: `g` maps its errors to
those of the caller. -/
def mapError {ε' : Type} (g : ε → ε') (p : Code ε α β) : Code ε' α β :=
  fun s => ((exec p s).1.mapError g, (exec p s).2)

/-- The code, whether it fails or not: the caller goes on from where it has
come to. -/
def ignore {ε' : Type} (p : Code ε α β) : Code ε' α Unit := fun s => (.ok (), (exec p s).2)

/-- The code writes these cells, wherever they fit the window, and answers
`v`. -/
def Writes (p : Code ε α β) (cs : List α) (v : β) : Prop :=
  ∀ s : Cursor α, s.Within → cs.length ≤ s.length → exec p s = (.ok v, s.put cs)

/-- The code reads these cells as `v` and stops behind them, whatever the
window holds there. -/
def Reads (p : Code ε α β) (cs : List α) (v : β) : Prop :=
  ∀ (s : Cursor α) (rest : List α), s.Within → s.window = cs ++ rest →
    exec p s = (.ok v, s.skip cs.length)

/-- The code reads, and only in its window: it ends well with `Q` of its
answer and of how many cells it has read, or with an error in `E`. -/
def Spans (p : Code ε α β) (s : Cursor α) (Q : β → ℕ → Prop) (E : ε → Prop) : Prop :=
  ∃ n ≤ s.length, (exec p s).2 = s.skip n ∧ (∀ v, (exec p s).1 = .ok v → Q v n) ∧
    ∀ e, (exec p s).1 = .error e → E e

theorem Writes.pure (v : β) : Writes (pure v : Code ε α β) [] v := by
  intro s _ _
  rw [exec_pure, s.put_nil]

theorem Writes.bind (hp : Writes p cs v) (hf : Writes (f v) ds w) :
    Writes (p >>= f) (cs ++ ds) w := by
  intro s hs hfits
  rw [List.length_append] at hfits
  have hroom : ds.length ≤ (s.put cs).length := by
    show ds.length ≤ s.length - cs.length
    omega
  rw [exec_bind_ok (hp s hs (by omega)), hf _ (hs.put (by omega)) hroom, put_put hs (by omega)]

theorem Reads.pure (v : β) : Reads (pure v : Code ε α β) [] v := fun _ _ _ _ => rfl

theorem Reads.bind (hp : Reads p cs v) (hf : Reads (f v) ds w) :
    Reads (p >>= f) (cs ++ ds) w := by
  intro s rest hs hwindow
  rw [List.append_assoc] at hwindow
  have hfits : cs.length ≤ s.length := by
    rw [← length_window hs, hwindow, List.length_append]
    omega
  rw [exec_bind_ok (hp s _ hs hwindow), hf _ rest (hs.skip hfits) (window_skip_append hwindow),
    skip_skip, List.length_append]

theorem Writes.map (g : β → γ) (hp : Writes p cs v) :
    Writes (p >>= fun v => Pure.pure (g v)) cs (g v) := by
  have h := hp.bind (f := fun v => Pure.pure (g v)) (Writes.pure (g v))
  rwa [List.append_nil] at h

theorem Reads.map (g : β → γ) (hp : Reads p cs v) :
    Reads (p >>= fun v => Pure.pure (g v)) cs (g v) := by
  have h := hp.bind (f := fun v => Pure.pure (g v)) (Reads.pure (g v))
  rwa [List.append_nil] at h

/-- What is to be read is in the window. -/
theorem Reads.left {f : ℕ → Code ε α β} (h : ∀ n, cs.length ≤ n → Reads (f n) cs v) :
    Reads (Code.left >>= f) cs v := by
  intro s rest hs hwindow
  have hfits : cs.length ≤ s.length := by
    rw [← length_window hs, hwindow, List.length_append]
    omega
  exact h s.length hfits s rest hs hwindow

theorem Writes.left {f : ℕ → Code ε α β} (h : ∀ n, cs.length ≤ n → Writes (f n) cs v) :
    Writes (Code.left >>= f) cs v := fun s hs hfits => h s.length hfits s hs hfits

theorem exec_left (s : Cursor α) : exec (left : Code ε α ℕ) s = (.ok s.length, s) := rfl

theorem exec_mapError {ε' : Type} (g : ε → ε') (p : Code ε α β) (s : Cursor α) :
    exec (mapError g p) s = ((exec p s).1.mapError g, (exec p s).2) := rfl

theorem Reads.mapError {ε' : Type} (g : ε → ε') (hp : Reads p cs v) :
    Reads (Code.mapError g p) cs v := by
  intro s rest hs hwindow
  rw [exec_mapError, hp s rest hs hwindow]
  rfl

theorem Writes.mapError {ε' : Type} (g : ε → ε') (hp : Writes p cs v) :
    Writes (Code.mapError g p) cs v := by
  intro s hs hfits
  rw [exec_mapError, hp s hs hfits]
  rfl

/-- A run of codes, one behind the other, writes what each of them writes. -/
theorem Writes.forM {ι : Type} {p : ι → Code ε α Unit} {cs : ι → List α} (is : List ι)
    (h : ∀ i ∈ is, Writes (p i) (cs i) ()) : Writes (is.forM p) (is.flatMap cs) () := by
  induction is with
  | nil => exact Writes.pure _
  | cons i is ih =>
    exact (h i List.mem_cons_self).bind (ih fun j hj => h j (List.mem_cons_of_mem _ hj))

/-- A code that fails does so whatever is made of its answer. -/
theorem exec_map_error (g : β → γ) {s : Cursor α} {e : ε} :
    (exec (p >>= fun v => Pure.pure (g v)) s).1 = .error e ↔ (exec p s).1 = .error e := by
  rw [exec_bind]
  rcases exec p s with ⟨e' | v, t⟩
  · show Except.error e' = Except.error e ↔ Except.error e' = Except.error e
    rw [Except.error.injEq, Except.error.injEq]
  · exact iff_of_false (fun h => by cases h) (fun h => by cases h)

theorem exec_mapError_error {ε' : Type} (g : ε → ε') {s : Cursor α} {e' : ε'} :
    (exec (Code.mapError g p) s).1 = .error e' ↔ ∃ e, (exec p s).1 = .error e ∧ g e = e' := by
  rw [exec_mapError]
  rcases exec p s with ⟨e | v, t⟩
  · constructor
    · exact fun h => ⟨e, rfl, Except.error.inj h⟩
    · rintro ⟨e₁, he, rfl⟩
      exact Except.error.inj he ▸ rfl
  · constructor
    · intro h
      cases h
    · rintro ⟨e, he, -⟩
      cases he

theorem exec_position (s : Cursor α) : exec (position : Code ε α ℕ) s = (.ok s.offset, s) := rfl

/-! ## Codes that know where they are -/

/-- The code reads these cells as `v` where `rest` is all that the window
holds behind them. -/
def ReadsBefore (rest : List α) (p : Code ε α β) (cs : List α) (v : β) : Prop :=
  ∀ s : Cursor α, s.Within → s.window = cs ++ rest → exec p s = (.ok v, s.skip cs.length)

/-- The code fails with `e` on these cells where `rest` is all that the
window holds behind them. -/
def FailsBefore (rest : List α) (p : Code ε α β) (cs : List α) (e : ε) : Prop :=
  ∀ s : Cursor α, s.Within → s.window = cs ++ rest → ∃ t, exec p s = (.error e, t)

/-- The code writes these cells where the window begins at `o`. Another
place could make other cells of it. -/
def WritesFrom (o : ℕ) (p : Code ε α β) (cs : List α) (v : β) : Prop :=
  ∀ s : Cursor α, s.Within → s.offset = o → cs.length ≤ s.length → exec p s = (.ok v, s.put cs)

/-- The window is all of the row from a place on, which is no later than
`k`. -/
structure Behind (s : Cursor α) (row : List α) (k : ℕ) : Prop where
  cells : s.cells = row
  offset : s.offset ≤ k
  length : s.offset + s.length = row.length

section

variable {rest : List α} {o : ℕ}

theorem Reads.before (h : Reads p cs v) (rest : List α) : ReadsBefore rest p cs v :=
  fun s hs hwindow => h s rest hs hwindow

theorem ReadsBefore.pure (v : β) : ReadsBefore rest (Pure.pure v : Code ε α β) [] v :=
  fun _ _ _ => rfl

theorem ReadsBefore.bind (hp : ReadsBefore (ds ++ rest) p cs v) (hf : ReadsBefore rest (f v) ds w) :
    ReadsBefore rest (p >>= f) (cs ++ ds) w := by
  intro s hs hwindow
  rw [List.append_assoc] at hwindow
  have hfits : cs.length ≤ s.length := by
    rw [← length_window hs, hwindow, List.length_append]
    omega
  rw [exec_bind_ok (hp s hs hwindow), hf _ (hs.skip hfits) (window_skip_append hwindow), skip_skip,
    List.length_append]

theorem ReadsBefore.left {f : ℕ → Code ε α β}
    (h : ReadsBefore rest (f (cs.length + rest.length)) cs v) :
    ReadsBefore rest (Code.left >>= f) cs v := by
  intro s hs hwindow
  have hlen : s.length = cs.length + rest.length := by
    rw [← length_window hs, hwindow, List.length_append]
  rw [exec_bind_ok (exec_left s), hlen]
  exact h s hs hwindow

theorem FailsBefore.throw {e : ε} : FailsBefore rest (throw e : Code ε α β) cs e :=
  fun s _ _ => ⟨s, rfl⟩

theorem FailsBefore.first {e : ε} (hp : FailsBefore rest p cs e) :
    FailsBefore rest (p >>= f) cs e := by
  intro s hs hwindow
  obtain ⟨t, ht⟩ := hp s hs hwindow
  refine ⟨t, ?_⟩
  rw [exec_bind, ht]

theorem FailsBefore.bind {e : ε} (hp : ReadsBefore (ds ++ rest) p cs v)
    (hf : FailsBefore rest (f v) ds e) : FailsBefore rest (p >>= f) (cs ++ ds) e := by
  intro s hs hwindow
  rw [List.append_assoc] at hwindow
  have hfits : cs.length ≤ s.length := by
    rw [← length_window hs, hwindow, List.length_append]
    omega
  rw [exec_bind_ok (hp s hs hwindow)]
  exact hf _ (hs.skip hfits) (window_skip_append hwindow)

theorem FailsBefore.left {f : ℕ → Code ε α β} {e : ε}
    (h : FailsBefore rest (f (cs.length + rest.length)) cs e) :
    FailsBefore rest (Code.left >>= f) cs e := by
  intro s hs hwindow
  have hlen : s.length = cs.length + rest.length := by
    rw [← length_window hs, hwindow, List.length_append]
  rw [exec_bind_ok (exec_left s), hlen]
  exact h s hs hwindow

theorem Writes.from (h : Writes p cs v) (o : ℕ) : WritesFrom o p cs v :=
  fun s hs _ hfits => h s hs hfits

theorem WritesFrom.bind (hp : WritesFrom o p cs v) (hf : WritesFrom (o + cs.length) (f v) ds w) :
    WritesFrom o (p >>= f) (cs ++ ds) w := by
  intro s hs ho hfits
  rw [List.length_append] at hfits
  have hroom : ds.length ≤ (s.put cs).length := by
    show ds.length ≤ s.length - cs.length
    omega
  have hoffset : (s.put cs).offset = o + cs.length := congrArg (· + cs.length) ho
  rw [exec_bind_ok (hp s hs ho (by omega)), hf _ (hs.put (by omega)) hoffset hroom,
    put_put hs (by omega)]

theorem WritesFrom.position {f : ℕ → Code ε α β} (h : WritesFrom o (f o) cs v) :
    WritesFrom o (Code.position >>= f) cs v := by
  intro s hs ho hfits
  rw [exec_bind_ok (exec_position s), ho]
  exact h s hs ho hfits

/-- What is written over as many cells stands in their place, with the row
in front and behind as it was. -/
theorem Writes.patch (h : Writes p cs v) {s : Cursor α} {front back : List α}
    (hs : Behind s (front ++ (ds ++ back)) front.length) (ho : s.offset = front.length)
    (hlen : ds.length = cs.length) : ∃ t, exec p s = (.ok v, t) ∧
      Behind t (front ++ (cs ++ back)) (front.length + cs.length) := by
  have hend := hs.length
  have hcells := hs.cells
  rw [List.length_append, List.length_append, ho] at hend
  have hin : s.Within := by
    show s.offset + s.length ≤ s.cells.length
    rw [hs.length, hcells]
  refine ⟨_, h s hin (by omega), ?_, ?_, ?_⟩
  · rw [put, hcells, ho, List.take_left, ← hlen, ← List.append_assoc front ds back,
      ← List.length_append, List.drop_left, List.append_assoc]
  · show s.offset + cs.length ≤ front.length + cs.length
    rw [ho]
  · show s.offset + cs.length + (s.length - cs.length) = _
    rw [List.length_append, List.length_append]
    omega

theorem Behind.mono {s : Cursor α} {row : List α} {k k' : ℕ} (h : Behind s row k) (hk : k ≤ k') :
    Behind s row k' := ⟨h.cells, h.offset.trans hk, h.length⟩

end

section Spans

variable {s : Cursor α} {Q : β → ℕ → Prop} {R : γ → ℕ → Prop} {E : ε → Prop}

theorem Spans.pure (h : Q v 0) : Spans (Pure.pure v) s Q E :=
  ⟨0, Nat.zero_le _, rfl, fun _ heq => Except.ok.inj heq ▸ h, fun _ heq => (by cases heq)⟩

theorem Spans.throw {e : ε} (h : E e) : Spans (throw e : Code ε α β) s Q E :=
  ⟨0, Nat.zero_le _, rfl, fun _ heq => (by cases heq), fun _ heq => Except.error.inj heq ▸ h⟩

theorem Spans.mono {Q' : β → ℕ → Prop} {E' : ε → Prop} (h : Spans p s Q E)
    (hQ : ∀ v n, n ≤ s.length → Q v n → Q' v n) (hE : ∀ e, E e → E' e) : Spans p s Q' E' := by
  obtain ⟨n, hn, hend, hok, herr⟩ := h
  exact ⟨n, hn, hend, fun v hv => hQ v n hn (hok v hv), fun e he => hE e (herr e he)⟩

/-- What the code answers is what it has answered, where it has stopped. -/
theorem Spans.answers (h : Spans p s Q E) :
    Spans p s (fun v n => exec p s = (.ok v, s.skip n) ∧ Q v n) E := by
  obtain ⟨n, hn, hend, hok, herr⟩ := h
  exact ⟨n, hn, hend, fun v hv => ⟨Prod.ext hv hend, hok v hv⟩, herr⟩

/-- The second code reads from where the first has stopped. -/
theorem Spans.bind (hs : s.Within) (hp : Spans p s Q E)
    (hf : ∀ v n, (s.skip n).Within → n ≤ s.length → Q v n →
      Spans (f v) (s.skip n) (fun w m => R w (n + m)) E) : Spans (p >>= f) s R E := by
  obtain ⟨n, hn, hend, hok, herr⟩ := hp
  rw [Spans, exec_bind]
  rcases hexec : exec p s with ⟨e | v, t⟩
  · rw [hexec] at hend herr
    exact ⟨n, hn, hend, fun _ heq => (by cases heq), fun _ heq => Except.error.inj heq ▸ herr e rfl⟩
  · rw [hexec] at hend hok
    obtain rfl : t = s.skip n := hend
    obtain ⟨m, hm, hend', hok', herr'⟩ := hf v n (hs.skip hn) hn (hok v rfl)
    have hroom : m ≤ s.length - n := hm
    exact ⟨n + m, by omega, by rw [← skip_skip]; exact hend', hok', herr'⟩

theorem Spans.left {f : ℕ → Code ε α β} (h : Spans (f s.length) s Q E) :
    Spans (Code.left >>= f) s Q E := h

theorem Spans.mapError {ε' : Type} {E' : ε' → Prop} (g : ε → ε') (h : Spans p s Q E)
    (hE : ∀ e, E e → E' (g e)) : Spans (Code.mapError g p) s Q E' := by
  obtain ⟨n, hn, hend, hok, herr⟩ := h
  refine ⟨n, hn, hend, ?_, ?_⟩
  · intro v hv
    rw [exec_mapError] at hv
    cases hr : (exec p s).1 with
    | ok w =>
      rw [hr] at hv
      exact Except.ok.inj hv ▸ hok w hr
    | error e =>
      rw [hr] at hv
      cases hv
  · intro e' he'
    rw [exec_mapError] at he'
    cases hr : (exec p s).1 with
    | ok w =>
      rw [hr] at he'
      cases he'
    | error e =>
      rw [hr] at he'
      exact Except.error.inj he' ▸ hE e (herr e hr)

end Spans

end Code

end SlipBoard
