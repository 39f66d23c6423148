import SlipBoard.Telnet.Model.Tasks
/-!
# Telnet output — the ring under interleaving

The printer and the sender of one open session, statement by statement.
`Accounts` is the invariant: the unsent bytes are the ones the ring
holds from the reader on, and `_counter` counts them, up to the one
statement each task may be short of. It survives every statement but
one. A `_counter++` executed while the sender stands before its
`_counter = 0` is lost, and from then on the reader lags behind the
writer. Runs without it, and without a count that wraps its `uint32_t`,
keep the ring a queue (`drain_fifo`).
-/

namespace SlipBoard

namespace Telnet

open RingBuffer Transition

variable {s t : System} {c : Conn}

/-- The reader's index, taking a byte already written but not yet
stepped over as read. -/
def System.reader (s : System) : ℕ :=
  match s.sender with
  | .advance _ => next telnetBufferSize s.shared.rdIndex
  | _ => s.shared.rdIndex

/-- Bytes stored but not yet counted: one, between the store and the
`_counter++` behind it. -/
def System.uncounted (s : System) : ℕ :=
  match s.printer with
  | .count _ => 1
  | _ => 0

/-- What `_counter` still counts of bytes this pass has sent. -/
def System.counted (s : System) (n : ℕ) : Prop :=
  match s.sender with
  | .out | .counted => s.shared.counter = n
  | .compare i => s.shared.counter = n + i
  | .write i => s.shared.counter = n + i ∧ i < s.shared.counter
  | .advance i => s.shared.counter = n + (i + 1)
  | .reset => n = 0

/-- The writer's index, which passes the end for the moment between its
increment and its wrap. -/
def System.WriterIn (s : System) : Prop :=
  match s.printer with
  | .out | .store _ _ => s.shared.wrIndex < telnetBufferSize
  | .count _ | .wrap _ => s.shared.wrIndex ≤ telnetBufferSize

/-- **The invariant of an open session.** `unsent` is the queue: the
bytes printed are the bytes written and then these, the ring holds them
from the reader to the writer, and `_counter` counts them. -/
structure Accounts (s : System) (unsent : List UInt8) : Prop where
  order : s.shared.writtenBytes ++ unsent = s.shared.printedBytes
  ring : window s.shared.buferTerminal telnetBufferSize s.reader unsent.length = unsent
  reader_lt : s.reader < telnetBufferSize
  rdIndex_lt : s.shared.rdIndex < telnetBufferSize
  writer : s.shared.wrIndex % telnetBufferSize = (s.reader + unsent.length) % telnetBufferSize
  writerIn : s.WriterIn
  uncounted_le : s.uncounted ≤ unsent.length
  counter : s.counted (unsent.length - s.uncounted)
  counter_lt : s.shared.counter < 2 ^ 32

/-- An open session over a drained ring starts with nothing unsent. -/
theorem Accounts.start (hfresh : s.shared.Fresh c) (hq : s.Quiet) : Accounts s [] := by
  obtain ⟨sh, pr, se, sv, ac, de⟩ := s
  obtain ⟨rfl, rfl⟩ : pr = .out ∧ se = .out := hq
  have hrd : sh.rdIndex < telnetBufferSize := hfresh.bound
  have hal : sh.rdIndex = sh.wrIndex := hfresh.aligned
  have hprinted : sh.printed = [] := hfresh.printed
  have hwritten : sh.written = [] := hfresh.written
  have hcounter : sh.counter = 0 := hfresh.counter
  exact
    { order := by
        simp [Shared.writtenBytes, Shared.printedBytes, hprinted, hwritten]
      ring := rfl
      reader_lt := hrd
      rdIndex_lt := hrd
      writer := by simp [System.reader, hal]
      writerIn := show sh.wrIndex < telnetBufferSize by omega
      uncounted_le := Nat.zero_le _
      counter := hcounter
      counter_lt := by simp only [hcounter]; decide }

/-- The queue's length is what the two logs differ by. -/
theorem Accounts.length_eq {q : List UInt8} (h : Accounts s q) : s.shared.unsent = q.length := by
  have := congrArg List.length h.order
  simp only [Shared.writtenBytes, Shared.printedBytes, List.length_append,
    List.length_map] at this
  simp only [Shared.unsent]
  omega

/-! ## The printer's statements -/

/-- The store puts the byte behind the queue, as long as a cell is
free. -/
theorem Accounts.store {q : List UInt8} {b : UInt8} {rest : List UInt8} (h : Accounts s q)
    (hp : s.printer = .store b rest) (hlen : q.length < telnetBufferSize) :
    Accounts { s with shared := s.shared.store b, printer := .count rest } (q ++ [b]) := by
  obtain ⟨sh, pr, se, sv, ac, de⟩ := s
  obtain rfl : pr = .store b rest := hp
  have hwr : sh.wrIndex < telnetBufferSize := h.writerIn
  -- the store hits the first free cell of the ring
  have hcell : sh.wrIndex = (System.reader ⟨sh, .store b rest, se, sv, ac, de⟩ + q.length)
      % telnetBufferSize := by
    rw [← h.writer, Nat.mod_eq_of_lt hwr]
  have hreader : System.reader ⟨sh.store b, .count rest, se, sv, ac, de⟩ =
      System.reader ⟨sh, .store b rest, se, sv, ac, de⟩ := rfl
  have hring := h.ring
  have horder := h.order
  have hwriter := h.writer
  refine
    { order := ?_, ring := ?_, reader_lt := h.reader_lt, rdIndex_lt := h.rdIndex_lt, writer := ?_
      writerIn := hwr, uncounted_le := ?_, counter := ?_, counter_lt := h.counter_lt }
  · simp only [Shared.writtenBytes, Shared.printedBytes, Shared.store, List.map_append,
      List.map_cons, List.map_nil, ← List.append_assoc] at horder ⊢
    rw [horder]
  · rw [List.length_append, List.length_singleton, hreader]
    simp only [Shared.store]
    rw [hcell, window_push hlen, hring]
  · rw [hreader, List.length_append, List.length_singleton]
    exact writer_push hwriter
  · simp [System.uncounted]
  · have := h.counter
    simpa [System.counted, System.uncounted, Shared.store] using this

/-- The count takes the byte in, where the sender is not about to drop
it and the count does not wrap. -/
theorem Accounts.count {q : List UInt8} {rest : List UInt8} (h : Accounts s q)
    (hp : s.printer = .count rest) (hs : s.sender ≠ .reset)
    (hlt : s.shared.counter + 1 < 2 ^ 32) :
    Accounts { s with shared := s.shared.count, printer := .wrap rest } q := by
  obtain ⟨sh, pr, se, sv, ac, de⟩ := s
  obtain rfl : pr = .count rest := hp
  have hcount : (sh.counter + 1) % 2 ^ 32 = sh.counter + 1 := Nat.mod_eq_of_lt hlt
  have hle : 1 ≤ q.length := h.uncounted_le
  have hc := h.counter
  refine
    { order := h.order, ring := h.ring, reader_lt := h.reader_lt, rdIndex_lt := h.rdIndex_lt
      writer := h.writer, writerIn := h.writerIn, uncounted_le := Nat.zero_le _
      counter := ?_, counter_lt := ?_ }
  -- everywhere but in front of the reset the sender still reads the count
  · cases se with
    | reset => exact absurd rfl hs
    | _ =>
      simp only [System.counted, System.uncounted, Shared.count, hcount] at hc ⊢
      omega
  · simp only [Shared.count, hcount]
    exact hlt

/-- Back at the loop test nothing waits to be counted. -/
@[simp] theorem uncounted_loop (sh : Shared) (rest : List UInt8) (se : SendPc) (sv : ServerPc)
    (ac : ℕ) (de : List Conn) : System.uncounted ⟨sh, .loop rest, se, sv, ac, de⟩ = 0 := by
  cases rest <;> rfl

/-- And the writer's index is in the ring. -/
@[simp] theorem writerIn_loop (sh : Shared) (rest : List UInt8) (se : SendPc) (sv : ServerPc)
    (ac : ℕ) (de : List Conn) :
    System.WriterIn ⟨sh, .loop rest, se, sv, ac, de⟩ ↔ sh.wrIndex < telnetBufferSize := by
  cases rest <;> exact Iff.rfl

/-- The wrap brings the writer's index back into the ring. -/
theorem Accounts.wrapWr {q : List UInt8} {rest : List UInt8} (h : Accounts s q)
    (hp : s.printer = .wrap rest) :
    Accounts { s with shared := s.shared.wrapWr, printer := .loop rest } q := by
  obtain ⟨sh, pr, se, sv, ac, de⟩ := s
  obtain rfl : pr = .wrap rest := hp
  have hwr : sh.wrIndex ≤ telnetBufferSize := h.writerIn
  have hwriter := h.writer
  have hc := h.counter
  refine
    { order := h.order, ring := h.ring, reader_lt := h.reader_lt, rdIndex_lt := h.rdIndex_lt
      writer := ?_, writerIn := ?_, uncounted_le := ?_, counter := ?_
      counter_lt := h.counter_lt }
  · simp only [Shared.wrapWr, wrap_eq_mod hwr, Nat.mod_mod]
    exact hwriter
  · rw [writerIn_loop]
    exact wrap_lt (by decide) hwr
  · rw [uncounted_loop]
    exact Nat.zero_le _
  · rw [uncounted_loop]
    exact hc

/-- A call that finds the ring published starts at the loop test. -/
theorem Accounts.print {q str : List UInt8} (h : Accounts s q) (hp : s.printer = .out) :
    Accounts { s with printer := .loop str } q := by
  obtain ⟨sh, pr, se, sv, ac, de⟩ := s
  obtain rfl : pr = .out := hp
  have hc := h.counter
  refine
    { order := h.order, ring := h.ring, reader_lt := h.reader_lt, rdIndex_lt := h.rdIndex_lt
      writer := h.writer, writerIn := ?_, uncounted_le := ?_, counter := ?_
      counter_lt := h.counter_lt }
  · rw [writerIn_loop]
    exact h.writerIn
  · rw [uncounted_loop]
    exact Nat.zero_le _
  · rw [uncounted_loop]
    exact hc

/-! ## The sender's statements -/

/-- The write takes the head of the queue, so what is written goes on in the
order of the queue. -/
theorem Accounts.write {q : List UInt8} {i : ℕ} (h : Accounts s q) (hs : s.sender = .write i) :
    ∃ b q', q = b :: q' ∧ Accounts { s with shared := s.shared.write, sender := .advance i } q' := by
  obtain ⟨sh, pr, se, sv, ac, de⟩ := s
  obtain rfl : se = .write i := hs
  have hle := h.uncounted_le
  have hc : sh.counter = q.length - System.uncounted ⟨sh, pr, .write i, sv, ac, de⟩ + i ∧
      i < sh.counter := h.counter
  have hrd : sh.rdIndex < telnetBufferSize := h.reader_lt
  have horder : List.map Prod.snd sh.written ++ q = List.map Prod.snd sh.printed := h.order
  have hring : window sh.buferTerminal telnetBufferSize sh.rdIndex q.length = q := h.ring
  have hwriter : sh.wrIndex % telnetBufferSize = (sh.rdIndex + q.length) % telnetBufferSize :=
    h.writer
  -- the byte the test counted is in the queue
  cases q with
  | nil => simp only [List.length_nil] at hc hle; omega
  | cons b q' =>
    rw [List.length_cons, window_cons hrd] at hring
    obtain ⟨hb, hq'⟩ := List.cons.inj hring
    refine ⟨b, q', rfl,
      { order := ?_, ring := hq', reader_lt := next_lt hrd, rdIndex_lt := hrd, writer := ?_
        writerIn := h.writerIn, uncounted_le := ?_, counter := ?_, counter_lt := h.counter_lt }⟩
    · simp only [Shared.writtenBytes, Shared.printedBytes, Shared.write, List.map_append,
        List.map_cons, List.map_nil, hb, List.append_assoc, List.singleton_append]
      exact horder
    · rw [List.length_cons] at hwriter
      exact writer_pop hrd hwriter
    · simp only [System.uncounted, List.length_cons] at hle hc ⊢
      omega
    · simp only [System.counted, System.uncounted, Shared.write, List.length_cons] at hle hc ⊢
      omega

/-- The advance only records what the reader already was. -/
theorem Accounts.advance {q : List UInt8} {i : ℕ} (h : Accounts s q)
    (hs : s.sender = .advance i) :
    Accounts { s with shared := s.shared.advance, sender := .compare ((i + 1) % 2 ^ 32) } q := by
  obtain ⟨sh, pr, se, sv, ac, de⟩ := s
  obtain rfl : se = .advance i := hs
  have hc : sh.counter = q.length - System.uncounted ⟨sh, pr, .advance i, sv, ac, de⟩ + (i + 1) :=
    h.counter
  have hlt : sh.counter < 2 ^ 32 := h.counter_lt
  -- the loop variable stays below the count, and so does not wrap
  have hi : (i + 1) % 2 ^ 32 = i + 1 := Nat.mod_eq_of_lt (by omega)
  rw [hi]
  exact
    { order := h.order, ring := h.ring, reader_lt := h.reader_lt
      rdIndex_lt := h.reader_lt, writer := h.writer, writerIn := h.writerIn
      uncounted_le := h.uncounted_le, counter := hc, counter_lt := h.counter_lt }

/-- The tests of the sender move nothing, and what they decide the
accounts confirm. -/
theorem Accounts.senderTest {q : List UInt8} {se : SendPc} (h : Accounts s q)
    (hrd : System.reader { s with sender := se } = s.reader)
    (hc : System.counted { s with sender := se } (q.length - s.uncounted)) :
    Accounts { s with sender := se } q := by
  obtain ⟨sh, pr, se', sv, ac, de⟩ := s
  exact
    { order := h.order
      ring := by rw [hrd]; exact h.ring
      reader_lt := by rw [hrd]; exact h.reader_lt
      rdIndex_lt := h.rdIndex_lt
      writer := by rw [hrd]; exact h.writer
      writerIn := h.writerIn
      uncounted_le := h.uncounted_le
      counter := hc
      counter_lt := h.counter_lt }

/-- The reset closes a pass that has sent everything counted. -/
theorem Accounts.reset {q : List UInt8} (h : Accounts s q) (hs : s.sender = .reset) :
    Accounts { s with shared := s.shared.reset, sender := .out } q := by
  obtain ⟨sh, pr, se, sv, ac, de⟩ := s
  obtain rfl : se = .reset := hs
  have hc : q.length - System.uncounted ⟨sh, pr, .reset, sv, ac, de⟩ = 0 := h.counter
  exact
    { order := h.order, ring := h.ring, reader_lt := h.reader_lt
      rdIndex_lt := h.rdIndex_lt, writer := h.writer, writerIn := h.writerIn
      uncounted_le := h.uncounted_le, counter := hc.symm
      counter_lt := show 0 < 2 ^ 32 by decide }

/-- **Every statement of the sender keeps the accounts**, while the
connection stays published. -/
theorem Accounts.senderStep {q : List UInt8} (h : Accounts s q)
    (hconn : s.shared.newconnUse = some c) : ∃ q', Accounts (senderStep s) q' := by
  have hc := h.counter
  cases hs : s.sender with
  | out =>
    refine ⟨q, ?_⟩
    simp only [Telnet.senderStep, hs, hconn, ne_eq, reduceCtorEq, not_false_eq_true, if_true]
    refine h.senderTest ?_ ?_
    · simp [System.reader, hs]
    · simpa [System.counted, hs] using hc
  | counted =>
    refine ⟨q, ?_⟩
    simp only [System.counted, hs] at hc
    simp only [Telnet.senderStep, hs]
    split
    · refine h.senderTest ?_ ?_
      · simp [System.reader, hs]
      · simpa [System.counted] using hc
    · refine h.senderTest ?_ ?_
      · simp [System.reader, hs]
      · simp only [System.counted]
        omega
  | compare i =>
    refine ⟨q, ?_⟩
    simp only [System.counted, hs] at hc
    simp only [Telnet.senderStep, hs]
    -- where the last test fails, all that was counted has been sent
    split
    · refine h.senderTest ?_ ?_
      · simp [System.reader, hs]
      · exact ⟨hc, ‹_›⟩
    · refine h.senderTest ?_ ?_
      · simp [System.reader, hs]
      · simp only [System.counted]
        omega
  | write i =>
    obtain ⟨b, q', -, h'⟩ := h.write hs
    refine ⟨q', ?_⟩
    simpa [Telnet.senderStep, hs] using h'
  | advance i =>
    refine ⟨q, ?_⟩
    simpa [Telnet.senderStep, hs] using h.advance hs
  | reset =>
    refine ⟨q, ?_⟩
    simpa [Telnet.senderStep, hs] using h.reset hs

/-! ## The other two tasks -/

/-- The published pointer and the server's own state are no part of the
accounts. -/
theorem Accounts.server {q : List UInt8} (h : Accounts s q) (u : Option Conn) (sv : ServerPc)
    (ac : ℕ) (de : List Conn) :
    Accounts { s with
      shared := { s.shared with newconnUse := u }, server := sv, accepted := ac, deleted := de } q :=
  ⟨h.order, h.ring, h.reader_lt, h.rdIndex_lt, h.writer, h.writerIn, h.uncounted_le, h.counter,
    h.counter_lt⟩

/-- And they are all the server's statements touch. -/
theorem serverStep_eq (ok : Bool) (s : System) : ∃ u sv ac de, serverStep ok s =
    { s with
      shared := { s.shared with newconnUse := u }, server := sv, accepted := ac, deleted := de } := by
  obtain ⟨sh, pr, se, sv, ac, de⟩ := s
  cases sv <;> cases ok <;> exact ⟨_, _, _, _, rfl⟩

/-- What the ring asks of the printer: it counts neither behind the
sender's last test nor past the end of the `uint32_t`. -/
def CountIsSeen (s : System) (a : Act) : Prop :=
  a = .printer → s.printer.counts = true →
    s.sender ≠ .reset ∧ s.shared.counter + 1 < 2 ^ 32

instance (s : System) (a : Act) : Decidable (CountIsSeen s a) :=
  inferInstanceAs (Decidable (_ → _ → _))

/-- Every statement of the printer keeps the accounts, where a store
finds a free cell and a count is seen. -/
theorem Accounts.printerStep {q : List UInt8} (h : Accounts s q)
    (hroom : t.shared.unsent ≤ telnetBufferSize) (hseen : CountIsSeen s .printer)
    (hstep : printerStep s = some t) : ∃ q', Accounts t q' := by
  cases hp : s.printer with
  | out => simp [Telnet.printerStep, hp] at hstep
  | store b rest =>
    simp only [Telnet.printerStep, hp, Option.some.injEq] at hstep
    subst hstep
    refine ⟨q ++ [b], h.store hp ?_⟩
    -- the bound on the state behind the store is a free cell in front of it
    have hlen := h.length_eq
    have hord := congrArg List.length h.order
    simp only [Shared.unsent, Shared.store, Shared.writtenBytes, Shared.printedBytes,
      List.length_append, List.length_map, List.length_singleton] at hroom hlen hord
    omega
  | count rest =>
    obtain ⟨hs, hlt⟩ := hseen rfl (by rw [hp]; rfl)
    simp only [Telnet.printerStep, hp, Option.some.injEq] at hstep
    exact ⟨q, hstep ▸ h.count hp hs hlt⟩
  | wrap rest =>
    simp only [Telnet.printerStep, hp, Option.some.injEq] at hstep
    exact ⟨q, hstep ▸ h.wrapWr hp⟩

/-- **Every step of the system keeps the accounts**, while the session
stays open, the ring is not overfilled and every count is seen. -/
theorem Accounts.step {q : List UInt8} {a : Act} (h : Accounts s q)
    (hconn : s.shared.newconnUse = some c) (hroom : t.shared.unsent ≤ telnetBufferSize)
    (hseen : CountIsSeen s a) (hstep : step s a = some t) : ∃ q', Accounts t q' := by
  cases a with
  | print str =>
    simp only [Telnet.step, hconn, reduceCtorEq, if_false] at hstep
    split at hstep
    · exact ⟨q, Option.some.inj hstep ▸ h.print ‹_›⟩
    · cases hstep
  | printer => exact h.printerStep hroom hseen hstep
  | sender => exact Option.some.inj hstep ▸ h.senderStep hconn
  | server ok =>
    obtain ⟨u, sv, ac, de, heq⟩ := serverStep_eq ok s
    rw [← Option.some.inj hstep, heq]
    exact ⟨q, h.server u sv ac de⟩

/-- Between calls and passes the queue is what the ring holds. -/
theorem Accounts.held_eq {q : List UInt8} (h : Accounts s q) (hq : s.Quiet) :
    s.shared.held = q := by
  obtain ⟨sh, pr, se, sv, ac, de⟩ := s
  obtain ⟨rfl, rfl⟩ : pr = .out ∧ se = .out := hq
  have hc : sh.counter = q.length := h.counter
  have hring : window sh.buferTerminal telnetBufferSize sh.rdIndex q.length = q := h.ring
  rw [Shared.held, hc]
  exact hring

/-! ## Whole sessions -/

/-- Nothing is lost, doubled or reordered: what was written and what the
ring holds are what was printed. -/
def Fifo (s : System) : Prop :=
  s.Quiet → s.shared.writtenBytes ++ s.shared.held = s.shared.printedBytes

instance : DecidablePred Fifo := fun _ => inferInstanceAs (Decidable (_ → _))

/-- **The ring is a queue while a session stays open**, over every
interleaving that executes no `_counter++` between the sender's last
test and its `_counter = 0`, and none that wraps the count. -/
theorem drain_fifo {s₀ : System} (hfresh : s₀.shared.Fresh c) (hquiet : s₀.Quiet)
    {as : List Act} (hopen : Always step (fun s => s.shared.newconnUse = some c) s₀ as)
    (hroom : Always step (fun s => s.shared.unsent ≤ telnetBufferSize) s₀ as)
    (hseen : Along step CountIsSeen s₀ as) : Always step Fifo s₀ as := by
  refine always_of_invariant (I := fun s => ∃ q, Accounts s q) ?_ ?_ ⟨[], .start hfresh hquiet⟩
    ((hopen.along_next.and hroom.along_next).and hseen)
  · rintro s a t ⟨q, hq⟩ ⟨⟨⟨hconn, -⟩, -, hroom⟩, hseen⟩ hstep
    exact hq.step hconn (hroom t hstep) hseen hstep
  · rintro s ⟨q, hq⟩ hquiet
    rw [hq.held_eq hquiet, hq.order]

/-- A session opened on the first connection after power-up: the server
reads from it, and the drain may write to it. -/
def openSystem : System :=
  { System.init with
    shared := { Shared.init with newconnUse := some 0 }
    server := .recv 0
    accepted := 1 }

theorem openSystem_fresh : openSystem.shared.Fresh 0 :=
  ⟨rfl, rfl, rfl, by decide, rfl, rfl⟩

/-- Two bytes printed, the second while the sender is at work on the
first, and both drained. -/
theorem drain_fifo_two : Always step Fifo openSystem
    (List.append [.print [65], .printer, .printer, .printer, .sender, .sender, .sender, .print [66],
      .printer, .printer, .printer] (List.replicate 7 .sender)) :=
  drain_fifo openSystem_fresh ⟨rfl, rfl⟩ (by decide) (by decide) (by decide)

/-- One byte printed and drained, and a second printed while the sender
stands before its `_counter = 0`. -/
def lostByte : List Act :=
  List.flatten [[.print [65], .printer, .printer, .printer], List.replicate 6 .sender,
    [.print [66], .printer, .printer, .printer, .sender]]

/-- **A `_counter++` behind the last test is lost.** The second byte is
in the ring and counted by nothing. -/
theorem fifo_fails : ¬ ∀ (c : Conn) (s₀ : System), s₀.shared.Fresh c → s₀.Quiet →
    ∀ as, Always step (fun s => s.shared.newconnUse = some c) s₀ as →
      Always step (fun s => s.shared.unsent ≤ telnetBufferSize) s₀ as →
      Always step Fifo s₀ as := by
  intro h
  exact absurd (h 0 openSystem openSystem_fresh ⟨rfl, rfl⟩ lostByte (by decide) (by decide))
    (by decide)

end Telnet

end SlipBoard
