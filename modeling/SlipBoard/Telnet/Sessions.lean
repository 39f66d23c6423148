import SlipBoard.Telnet.Model.Session
import SlipBoard.Telnet.Model.Tasks
/-!
# Telnet output — sessions and the bytes they leave behind

With calls and passes as single steps the ring itself is a queue, and
`Queue` says so: `Queue.printTelNet` and `Queue.drainPass` are what a
call and a pass do to it. What is left is what a session finds when it
opens. The idle branch of the sender clears the count and leaves the
reader behind the writer, so a session that opens over bytes of the one
before sends those (`session_leak`). Sessions that open over an empty
ring, with the reader at the writer, receive their own output and no
other (`sessions_own`).

The last section ties the single steps to the statements: either task,
run alone, does in its statements what the call does in one.
-/

namespace SlipBoard

namespace Telnet

open RingBuffer Transition

variable {s : Shared} {q : List UInt8} {b : UInt8} {c : Conn}

/-- The ring holds `q` from the reader to the writer. -/
structure Queue (s : Shared) (q : List UInt8) : Prop where
  ring : window s.buferTerminal telnetBufferSize s.rdIndex q.length = q
  rdIndex_lt : s.rdIndex < telnetBufferSize
  writer : s.wrIndex = (s.rdIndex + q.length) % telnetBufferSize

theorem Queue.wrIndex_lt (h : Queue s q) : s.wrIndex < telnetBufferSize := by
  rw [h.writer]
  exact Nat.mod_lt _ (by decide)

theorem Queue.held_eq (h : Queue s q) (hc : s.counter = q.length) : s.held = q := by
  rw [Shared.held, hc, h.ring]

/-- A queue reads the ring and its two indices only. -/
theorem Queue.congr {t : Shared} (h : Queue s q) (hbuf : t.buferTerminal = s.buferTerminal)
    (hrd : t.rdIndex = s.rdIndex) (hwr : t.wrIndex = s.wrIndex) : Queue t q :=
  ⟨by rw [hbuf, hrd]; exact h.ring, by rw [hrd]; exact h.rdIndex_lt, by
    rw [hwr, hrd]; exact h.writer⟩

/-! ## A call of `printTelNet` -/

@[simp] theorem putByte_newconnUse : (s.putByte b).newconnUse = s.newconnUse := rfl

@[simp] theorem putByte_written : (s.putByte b).written = s.written := rfl

@[simp] theorem putByte_printed : (s.putByte b).printed = s.printed ++ [(s.newconnUse, b)] := rfl

@[simp] theorem putByte_counter : (s.putByte b).counter = (s.counter + 1) % 2 ^ 32 := rfl

/-- A byte goes behind the queue, while a cell is free. -/
theorem Queue.putByte (h : Queue s q) (hlen : q.length < telnetBufferSize) :
    Queue (s.putByte b) (q ++ [b]) := by
  have hwr := h.wrIndex_lt
  refine ⟨?_, h.rdIndex_lt, ?_⟩
  · simp only [Shared.putByte, Shared.store, Shared.count, Shared.wrapWr, List.length_append,
      List.length_singleton]
    rw [h.writer, window_push hlen, h.ring]
  · simp only [Shared.putByte, Shared.store, Shared.count, Shared.wrapWr, List.length_append,
      List.length_singleton]
    rw [wrap_eq_mod (by omega), h.writer, Nat.mod_add_mod, Nat.add_assoc]

/-- The whole string goes behind the queue, in order, and is counted. -/
theorem Queue.putBytes {str : List UInt8} (h : Queue s q) (hc : s.counter = q.length)
    (hlen : q.length + str.length ≤ telnetBufferSize) :
    Queue (str.foldl Shared.putByte s) (q ++ str) ∧
      (str.foldl Shared.putByte s).counter = (q ++ str).length := by
  induction str generalizing s q with
  | nil => simpa using ⟨h, hc⟩
  | cons b str ih =>
    simp only [List.length_cons] at hlen
    have hcount : (s.putByte b).counter = (q ++ [b]).length := by
      rw [putByte_counter, hc, List.length_append, List.length_singleton]
      exact Nat.mod_eq_of_lt (by simp only [telnetBufferSize] at hlen; omega)
    have := ih (h.putByte (b := b) (by omega)) hcount (by
      rw [List.length_append, List.length_singleton]; omega)
    simpa [List.append_assoc] using this

/-- And it is printed under the connection published, whether or not the
ring has room for it. -/
theorem putBytes_frame (str : List UInt8) (s : Shared) :
    (str.foldl Shared.putByte s).newconnUse = s.newconnUse ∧
      (str.foldl Shared.putByte s).written = s.written ∧
      (str.foldl Shared.putByte s).printed =
        s.printed ++ str.map fun b => (s.newconnUse, b) := by
  induction str generalizing s with
  | nil => simp
  | cons b str ih =>
    obtain ⟨hu, hw, hp⟩ := ih (s.putByte b)
    simp [hu, hw, hp, List.append_assoc]

/-! ## A pass of the sender -/

/-- A pass takes the head of the queue, once for each byte. -/
theorem Queue.sendByte (h : Queue s (b :: q)) :
    Queue s.sendByte q ∧ s.sendByte.written = s.written ++ [(s.newconnUse, b)] := by
  have hring := h.ring
  rw [List.length_cons, window_cons h.rdIndex_lt] at hring
  obtain ⟨hb, hq⟩ := List.cons.inj hring
  refine ⟨⟨hq, next_lt h.rdIndex_lt, ?_⟩, ?_⟩
  · simp only [Shared.sendByte, Shared.write, Shared.advance, next_eq_mod h.rdIndex_lt,
      Nat.mod_add_mod]
    rw [h.writer, List.length_cons, show s.rdIndex + (q.length + 1) = s.rdIndex + 1 + q.length by
      omega]
  · simp only [Shared.sendByte, Shared.write, Shared.advance, hb]

@[simp] theorem sendByte_newconnUse : s.sendByte.newconnUse = s.newconnUse := rfl

@[simp] theorem sendByte_printed : s.sendByte.printed = s.printed := rfl

/-- The loop of the drain sends the whole queue, in order and on the
connection that is published. -/
theorem Queue.sendBytes (h : Queue s q) :
    Queue (Shared.sendByte^[q.length] s) [] ∧
      (Shared.sendByte^[q.length] s).newconnUse = s.newconnUse ∧
      (Shared.sendByte^[q.length] s).printed = s.printed ∧
      (Shared.sendByte^[q.length] s).written =
        s.written ++ q.map fun b => (s.newconnUse, b) := by
  induction q generalizing s with
  | nil => simpa using h
  | cons b q ih =>
    obtain ⟨hq, hw⟩ := h.sendByte
    have := ih hq
    rw [List.length_cons, Function.iterate_succ_apply]
    simpa [hw, List.append_assoc] using this

/-- **A pass over an open session sends what is counted and counts
nothing more.** -/
theorem Queue.drainPass (h : Queue s q) (hc : s.counter = q.length)
    (hconn : s.newconnUse ≠ none) :
    Queue (drainPass s) [] ∧ (drainPass s).counter = 0 ∧
      (drainPass s).newconnUse = s.newconnUse ∧ (drainPass s).printed = s.printed ∧
      (drainPass s).written = s.written ++ q.map fun b => (s.newconnUse, b) := by
  rw [Telnet.drainPass, if_pos hconn]
  by_cases hzero : s.counter = 0
  · have hq : q = [] := List.eq_nil_of_length_eq_zero (by omega)
    subst hq
    simp only [hzero, ne_eq, not_true_eq_false, if_false]
    exact ⟨h.congr rfl rfl rfl, rfl, rfl, rfl, by simp [Shared.reset]⟩
  · rw [if_pos hzero, hc]
    obtain ⟨hq, hu, hp, hw⟩ := h.sendBytes
    exact ⟨hq.congr rfl rfl rfl, rfl, hu, hp, hw⟩

/-! ## The logs, connection by connection -/

@[simp] theorem bytesOn_append (log log' : List (Option Conn × UInt8)) (c : Conn) :
    bytesOn (log ++ log') c = bytesOn log c ++ bytesOn log' c := by
  simp [bytesOn]

@[simp] theorem bytesOn_self (str : List UInt8) (c : Conn) :
    bytesOn (str.map fun b => (some c, b)) c = str := by
  simp [bytesOn, List.filter_map, Function.comp_def]

theorem bytesOn_of_ne {d : Conn} (str : List UInt8) (hne : d ≠ c) :
    bytesOn (str.map fun b => (some d, b)) c = [] := by
  simp [bytesOn, List.filter_map, Function.comp_def, hne]

/-- The bytes of an accepted connection, entered behind a log of accepted
ones. -/
theorem lt_of_mem_log {log : List (Option Conn × UInt8)} {accepted : ℕ}
    (hlog : ∀ e ∈ log, ∀ d, e.1 = some d → d < accepted) (hlt : c < accepted) (str : List UInt8) :
    ∀ e ∈ log ++ str.map (fun b => (some c, b)), ∀ d, e.1 = some d → d < accepted := by
  intro e he d hd
  rcases List.mem_append.1 he with he | he
  · exact hlog e he d hd
  · obtain ⟨b, -, rfl⟩ := List.mem_map.1 he
    exact Option.some.inj hd ▸ hlt

/-- A connection not accepted yet is in no log. -/
theorem bytesOn_eq_nil {log : List (Option Conn × UInt8)} {n : ℕ}
    (h : ∀ e ∈ log, ∀ c, e.1 = some c → c < n) : bytesOn log n = [] := by
  simp only [bytesOn, List.map_eq_nil_iff, List.filter_eq_nil_iff, decide_eq_true_eq]
  intro e he hn
  exact Nat.lt_irrefl _ (h e he n hn)

/-! ## Runs of sessions -/

/-- What a run of sessions keeps. The open session's bytes are written
or queued; a session that is over received a prefix of its own; and a
connection to come is in neither log. -/
structure Served (l : Line) : Prop where
  rdIndex_lt : l.shared.rdIndex < telnetBufferSize
  wrIndex_lt : l.shared.wrIndex < telnetBufferSize
  use_lt : ∀ c, l.shared.newconnUse = some c → c < l.accepted
  printed_lt : ∀ e ∈ l.shared.printed, ∀ c, e.1 = some c → c < l.accepted
  written_lt : ∀ e ∈ l.shared.written, ∀ c, e.1 = some c → c < l.accepted
  current : ∀ c, l.shared.newconnUse = some c → ∃ q, Queue l.shared q ∧
    l.shared.counter = q.length ∧ l.shared.writtenOn c ++ q = l.shared.printedOn c
  past : ∀ c, l.shared.newconnUse ≠ some c → l.shared.writtenOn c <+: l.shared.printedOn c

/-- Every connection has received a prefix of what was printed while it
was published. -/
def Own (l : Line) : Prop := ∀ c, l.shared.writtenOn c <+: l.shared.printedOn c

theorem Served.own {l : Line} (h : Served l) : Own l := by
  intro c
  by_cases hc : l.shared.newconnUse = some c
  · obtain ⟨q, -, -, hq⟩ := h.current c hc
    exact ⟨q, hq⟩
  · exact h.past c hc

theorem served_init : Served Line.init where
  rdIndex_lt := by decide
  wrIndex_lt := by decide
  use_lt := fun c hc => by cases hc
  printed_lt := fun e he => by cases he
  written_lt := fun e he => by cases he
  current := fun c hc => by cases hc
  past := fun c _ => List.prefix_rfl

/-- A call keeps it, where the open session's bytes fit the ring. -/
theorem Served.print {l : Line} {str : List UInt8} (h : Served l)
    (hroom : (printTelNet str l.shared).pending ≤ telnetBufferSize) :
    Served { l with shared := printTelNet str l.shared } := by
  cases hu : l.shared.newconnUse with
  | none => simpa [printTelNet, hu] using h
  | some c =>
    obtain ⟨q, hq, hcount, hcur⟩ := h.current c hu
    obtain ⟨hu', hw', hp'⟩ := putBytes_frame str l.shared
    simp only [printTelNet, hu, reduceCtorEq, if_false] at hroom ⊢
    rw [hu] at hu' hp'
    -- what is pending behind the call is the queue and the string
    have hlen : q.length + str.length ≤ telnetBufferSize := by
      have := congrArg List.length hcur
      simp only [Shared.pending, hu', Shared.printedOn, Shared.writtenOn, hw', hp',
        bytesOn_append, bytesOn_self, List.length_append] at hroom this
      omega
    obtain ⟨hq', hcount'⟩ := hq.putBytes hcount hlen
    have hlt : c < l.accepted := h.use_lt c hu
    refine
      { rdIndex_lt := hq'.rdIndex_lt, wrIndex_lt := hq'.wrIndex_lt, use_lt := ?_, printed_lt := ?_
        written_lt := ?_, current := ?_, past := ?_ }
    · intro d hd
      exact h.use_lt d (by rw [hu, ← hd, hu'])
    · rw [hp']
      exact lt_of_mem_log h.printed_lt hlt str
    · rw [hw']
      exact h.written_lt
    · intro d hd
      obtain rfl : c = d := Option.some.inj (hu'.symm.trans hd)
      refine ⟨q ++ str, hq', hcount', ?_⟩
      simp only [Shared.writtenOn, Shared.printedOn, hw', hp', bytesOn_append,
        bytesOn_self, ← List.append_assoc] at hcur ⊢
      rw [hcur]
    · intro d hd
      have hne : c ≠ d := fun heq => hd (heq ▸ hu')
      have := h.past d (by rw [hu]; exact fun heq => hne (Option.some.inj heq))
      simpa [Shared.writtenOn, Shared.printedOn, hw', hp', bytesOn_of_ne str hne] using this

/-- A pass of the drain keeps that each session has been sent its own. -/
theorem Served.drain {l : Line} (h : Served l) :
    Served { l with shared := drainPass l.shared } := by
  cases hu : l.shared.newconnUse with
  | none =>
    -- the idle branch moves neither index, and no session is open
    have heq : drainPass l.shared = l.shared.reset := by simp [drainPass, hu]
    rw [heq]
    exact { h with
      current := fun c hc => absurd (hu.symm.trans hc) (by simp) }
  | some c =>
    obtain ⟨q, hq, hcount, hcur⟩ := h.current c hu
    obtain ⟨hq', hcount', hu', hp', hw'⟩ := hq.drainPass hcount (by simp [hu])
    rw [hu] at hu' hw'
    have hlt : c < l.accepted := h.use_lt c hu
    refine
      { rdIndex_lt := hq'.rdIndex_lt, wrIndex_lt := hq'.wrIndex_lt, use_lt := ?_, printed_lt := ?_
        written_lt := ?_, current := ?_, past := ?_ }
    · intro d hd
      exact h.use_lt d (by rw [hu, ← hd, hu'])
    · rw [hp']
      exact h.printed_lt
    · rw [hw']
      exact lt_of_mem_log h.written_lt hlt q
    · intro d hd
      obtain rfl : c = d := Option.some.inj (hu'.symm.trans hd)
      refine ⟨[], hq', hcount', ?_⟩
      simp only [Shared.writtenOn, Shared.printedOn, hw', hp', bytesOn_append, bytesOn_self,
        List.append_nil] at hcur ⊢
      exact hcur
    · intro d hd
      have hne : c ≠ d := fun heq => hd (heq ▸ hu')
      have := h.past d (by rw [hu]; exact fun heq => hne (Option.some.inj heq))
      simpa [Shared.writtenOn, Shared.printedOn, hw', hp', bytesOn_of_ne q hne] using this

/-- A session that opens over an empty ring starts with nothing to
send. -/
theorem Served.open {l : Line} (h : Served l) (hu : l.shared.newconnUse = none)
    (hempty : l.shared.counter = 0 ∧ l.shared.rdIndex = l.shared.wrIndex) :
    Served ⟨{ l.shared with newconnUse := some l.accepted }, l.accepted + 1⟩ where
  rdIndex_lt := h.rdIndex_lt
  wrIndex_lt := h.wrIndex_lt
  use_lt := fun c hc => by
    obtain rfl : l.accepted = c := Option.some.inj hc
    exact Nat.lt_succ_self _
  printed_lt := fun e he c hc => Nat.lt_succ_of_lt (h.printed_lt e he c hc)
  written_lt := fun e he c hc => Nat.lt_succ_of_lt (h.written_lt e he c hc)
  current := fun c hc => by
    obtain rfl : l.accepted = c := Option.some.inj hc
    -- reader and writer stand together, so the queue is empty
    refine ⟨[], ⟨rfl, h.rdIndex_lt, ?_⟩, hempty.1, ?_⟩
    · show l.shared.wrIndex = (l.shared.rdIndex + 0) % telnetBufferSize
      rw [Nat.add_zero, hempty.2, Nat.mod_eq_of_lt h.wrIndex_lt]
    · show bytesOn l.shared.written _ ++ [] = bytesOn l.shared.printed _
      rw [bytesOn_eq_nil h.written_lt, bytesOn_eq_nil h.printed_lt]
      rfl
  past := fun c _ => h.past c (by simp [hu])

/-- A session that closes has received a prefix of its own. -/
theorem Served.close {l : Line} (h : Served l) :
    Served { l with shared := { l.shared with newconnUse := none } } where
  rdIndex_lt := h.rdIndex_lt
  wrIndex_lt := h.wrIndex_lt
  use_lt := fun c hc => by cases hc
  printed_lt := h.printed_lt
  written_lt := h.written_lt
  current := fun c hc => by cases hc
  past := fun c _ => h.own c

/-- A session opens over an empty ring, the reader at the writer. -/
def OpensEmpty (l : Line) (e : Event) : Prop :=
  e = .open → l.shared.counter = 0 ∧ l.shared.rdIndex = l.shared.wrIndex

instance (l : Line) (e : Event) : Decidable (OpensEmpty l e) :=
  inferInstanceAs (Decidable (_ → _))

/-- **Every session receives its own output and no other**, over every
run in which each session opens on an empty ring with the reader at the
writer. -/
theorem sessions_own {es : List Event}
    (hroom : Always Line.step (fun l => l.shared.pending ≤ telnetBufferSize) Line.init es)
    (hopens : Along Line.step OpensEmpty Line.init es) : Always Line.step Own Line.init es := by
  refine always_of_invariant (I := Served) ?_ (fun _ => Served.own) served_init
    (hroom.along_next.and hopens)
  rintro l e m hl ⟨⟨-, hroom⟩, hopens⟩ hstep
  have hroom' := hroom m hstep
  cases e with
  | print str =>
    rw [← Option.some.inj hstep] at hroom' ⊢
    exact hl.print hroom'
  | drain => exact Option.some.inj hstep ▸ hl.drain
  | «open» =>
    simp only [Line.step] at hstep
    split at hstep
    · exact Option.some.inj hstep ▸ hl.open ‹_› (hopens rfl)
    · cases hstep
  | close => exact Option.some.inj hstep ▸ hl.close

/-- Two sessions, the first of which is drained before it closes, so that
the second finds nothing of it. -/
theorem sessions_own_two : Always Line.step Own Line.init
    [.open, .print [65, 66], .drain, .close, .drain, .open, .print [67], .drain] :=
  sessions_own (by decide) (by decide)

/-- **A session receives what the one before left in the ring.** The
first closes with a byte pending, the idle branch clears the count and
not the reader, and the byte the second prints is sent as that one. -/
theorem session_leak : ¬ ∀ es,
    Always Line.step (fun l => l.shared.pending ≤ telnetBufferSize) Line.init es →
      Always Line.step Own Line.init es := by
  intro h
  have hleak := h [.open, .print [65], .close, .drain, .open, .print [66], .drain] (by decide)
  exact absurd (hleak.last rfl 1) (by decide)

/-! ## The single steps are the statements -/

/-- The loop of `printTelNet`, run alone, stores its string byte by byte. -/
theorem run_printer_loop (str : List UInt8) (s : System) :
    run step { s with printer := .loop str } (List.replicate (3 * str.length) .printer) =
      some { s with shared := str.foldl Shared.putByte s.shared, printer := .out } := by
  induction str generalizing s with
  | nil => rfl
  | cons b str ih =>
    have := ih { s with shared := s.shared.putByte b }
    rw [List.length_cons, Nat.mul_succ, Nat.add_comm, List.replicate_add, run_append]
    exact ⟨{ s with shared := s.shared.putByte b, printer := .loop str }, rfl, this⟩

/-- **A call of `printTelNet` that no other task interrupts** is the
single step. -/
theorem run_printTelNet {s : System} (hs : s.printer = .out) (str : List UInt8) :
    ∃ n, run step s (.print str :: List.replicate n .printer) =
      some { s with shared := printTelNet str s.shared } := by
  obtain ⟨sh, pr, se, sv, ac, de⟩ := s
  obtain rfl : pr = .out := hs
  by_cases hu : sh.newconnUse = none
  · exact ⟨0, by simp [run, step, printTelNet, hu]⟩
  · refine ⟨3 * str.length, ?_⟩
    rw [run_cons]
    refine ⟨⟨sh, .loop str, se, sv, ac, de⟩, by simp [step, hu], ?_⟩
    rw [printTelNet, if_neg hu]
    exact run_printer_loop str ⟨sh, .out, se, sv, ac, de⟩

/-- The loop of `task_idle_SendDataTelNet`, run alone from `i` with `k`
rounds to go. -/
theorem run_sender_loop (k i : ℕ) {s : System} (hs : s.sender = .compare i)
    (hk : s.shared.counter = i + k) (hlt : s.shared.counter < 2 ^ 32) :
    run step s (List.replicate (3 * k + 1) .sender) =
      some { s with shared := Shared.sendByte^[k] s.shared, sender := .reset } := by
  induction k generalizing i s with
  | zero =>
    obtain ⟨sh, pr, se, sv, ac, de⟩ := s
    obtain rfl : se = .compare i := hs
    have : ¬ i < sh.counter := by simp only at hk; omega
    simp [run, step, senderStep, this]
  | succ k ih =>
    obtain ⟨sh, pr, se, sv, ac, de⟩ := s
    obtain rfl : se = .compare i := hs
    simp only at hk hlt
    have hi : i < sh.counter := by omega
    rw [show 3 * (k + 1) + 1 = 3 + (3 * k + 1) by omega, List.replicate_add, run_append]
    refine ⟨⟨sh.sendByte, pr, .compare (i + 1), sv, ac, de⟩, ?_, ?_⟩
    · simp [List.replicate, run, step, senderStep, hi, Shared.sendByte]
      omega
    · exact ih (i + 1) rfl (show sh.counter = i + 1 + k by omega) hlt

/-- **A pass of the sender that no other task interrupts** is the single
step. -/
theorem run_drainPass {s : System} (hs : s.sender = .out) (hlt : s.shared.counter < 2 ^ 32) :
    ∃ n, run step s (List.replicate n .sender) =
      some { s with shared := drainPass s.shared } := by
  obtain ⟨sh, pr, se, sv, ac, de⟩ := s
  obtain rfl : se = .out := hs
  by_cases hu : sh.newconnUse = none
  · exact ⟨2, by simp [List.replicate, run, step, senderStep, drainPass, hu]⟩
  by_cases hzero : sh.counter = 0
  · exact ⟨3, by simp [List.replicate, run, step, senderStep, drainPass, hu, hzero]⟩
  · refine ⟨2 + (3 * sh.counter + 1) + 1, ?_⟩
    rw [List.replicate_add, run_append, List.replicate_add]
    refine ⟨⟨Shared.sendByte^[sh.counter] sh, pr, .reset, sv, ac, de⟩, ?_, ?_⟩
    · rw [run_append]
      refine ⟨⟨sh, pr, .compare 0, sv, ac, de⟩, ?_, ?_⟩
      · simp [List.replicate, run, step, senderStep, hu, hzero]
      · exact run_sender_loop sh.counter 0 rfl (Nat.zero_add _).symm hlt
    · simp [List.replicate, run, step, senderStep, drainPass, hu, hzero]

end Telnet

end SlipBoard
