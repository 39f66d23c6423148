import SlipBoard.Telnet.Model.Tasks
/-!
# Telnet output — the sender and the deleted connection

The server deletes the connection first and withdraws `newconnUse` only
after the status prints, and the sender reads `newconnUse` again at
every byte. `Published` relates the pointer to the server's program
counter: a deleted connection is published exactly while the server
stands between `netconn_delete` and `newconnUse = NULL`. The server's
own writes come before (`recv_not_deleted`), and a run writes to no
deleted connection if and only if no write of the sender falls in that
window (`safeWrites_iff`).
-/

namespace SlipBoard

namespace Telnet

open Transition

variable {s t : System} {c : Conn}

/-- The sender's next statement is its `netconn_write`, on the connection
that is published then. -/
def SendPc.writes : SendPc → Bool
  | .write _ => true
  | _ => false

/-- The server has executed `netconn_delete(newconn)` and not yet
`newconnUse = NULL`. -/
def ServerPc.windingUp : ServerPc → Bool
  | .info _ | .clear _ => true
  | _ => false

/-- No `netconn_write` on a connection that has been deleted. It is about
one step, from the state in front of it. -/
def SafeWrite (s : System) (a : Act) : Prop :=
  a = .sender → s.sender.writes = true → ∀ c ∈ s.shared.newconnUse, c ∉ s.deleted

instance (s : System) (a : Act) : Decidable (SafeWrite s a) :=
  inferInstanceAs (Decidable (_ → _ → _))

/-- No `netconn_write` between the delete and the withdrawal, in which the
published connection is gone already. -/
def WriteOutsideWindow (s : System) (a : Act) : Prop :=
  a = .sender → s.sender.writes = true → s.server.windingUp = false

/-- The connection the server holds, from the accept that answered it to
the withdrawal. -/
def ServerPc.conn : ServerPc → Option Conn
  | .accept => none
  | .publish c | .recv c | .close c | .netbufDelete c | .delete c | .info c | .clear c => some c

/-- The connection that the server holds and has published. In front of
`publish` it has none. -/
def ServerPc.published : ServerPc → Option Conn
  | .accept | .publish _ => none
  | .recv c | .close c | .netbufDelete c | .delete c | .info c | .clear c => some c

/-- **What the server keeps.** `newconnUse` is what its program counter
says is published; the connection it holds has been deleted exactly
while it winds up; and nothing is deleted that was not accepted. -/
structure Published (s : System) : Prop where
  use : s.shared.newconnUse = s.server.published
  held_lt : ∀ c, s.server.conn = some c → c < s.accepted
  deleted_lt : ∀ c ∈ s.deleted, c < s.accepted
  held_deleted : ∀ c, s.server.conn = some c → (c ∈ s.deleted ↔ s.server.windingUp = true)

theorem published_init : Published System.init where
  use := rfl
  held_lt := fun c hc => by cases hc
  deleted_lt := fun c hc => by cases hc
  held_deleted := fun c hc => by cases hc

/-- The printer and the sender leave the server and its connections
alone. -/
theorem Published.congr (h : Published s) (hu : t.shared.newconnUse = s.shared.newconnUse)
    (hsv : t.server = s.server) (hac : t.accepted = s.accepted) (hde : t.deleted = s.deleted) :
    Published t where
  use := by rw [hu, hsv]; exact h.use
  held_lt := by rw [hsv, hac]; exact h.held_lt
  deleted_lt := by rw [hde, hac]; exact h.deleted_lt
  held_deleted := by rw [hsv, hde]; exact h.held_deleted

theorem printerStep_server (h : printerStep s = some t) :
    t.shared.newconnUse = s.shared.newconnUse ∧ t.server = s.server ∧
      t.accepted = s.accepted ∧ t.deleted = s.deleted := by
  obtain ⟨sh, pr, se, sv, ac, de⟩ := s
  cases pr with
  | out => simp [printerStep] at h
  | _ =>
    simp only [printerStep, Option.some.injEq] at h
    subst h
    exact ⟨rfl, rfl, rfl, rfl⟩

theorem senderStep_server (s : System) :
    (senderStep s).shared.newconnUse = s.shared.newconnUse ∧ (senderStep s).server = s.server ∧
      (senderStep s).accepted = s.accepted ∧ (senderStep s).deleted = s.deleted := by
  obtain ⟨sh, pr, se, sv, ac, de⟩ := s
  cases se <;> exact ⟨rfl, rfl, rfl, rfl⟩

/-- A new connection has not been deleted, so it may be published. -/
theorem Published.accept (h : Published s) (hs : s.server = .accept) :
    Published { s with server := .publish s.accepted, accepted := s.accepted + 1 } := by
  obtain ⟨sh, pr, se, sv, ac, de⟩ := s
  obtain rfl : sv = .accept := hs
  refine ⟨h.use, ?_, fun c hc => Nat.lt_succ_of_lt (h.deleted_lt c hc), ?_⟩
  · rintro c ⟨⟩
    exact Nat.lt_succ_self _
  · rintro c ⟨⟩
    -- connections are numbered as they come, and only earlier ones are deleted
    have hnot : ac ∉ de := fun hmem => Nat.lt_irrefl _ (h.deleted_lt ac hmem)
    simpa [ServerPc.windingUp] using hnot

/-- The connection deleted is the one held, and from here on the server
winds up. -/
theorem Published.delete (h : Published s) (hs : s.server = .delete c) :
    Published { s with server := .info c, deleted := s.deleted ++ [c] } := by
  obtain ⟨sh, pr, se, sv, ac, de⟩ := s
  obtain rfl : sv = .delete c := hs
  have hlt : c < ac := h.held_lt c rfl
  refine ⟨h.use, h.held_lt, ?_, ?_⟩
  · intro d hd
    rcases List.mem_append.1 hd with hd | hd
    · exact h.deleted_lt d hd
    · rw [List.mem_singleton.1 hd]
      exact hlt
  · rintro d ⟨⟩
    simp [ServerPc.windingUp]

/-- Every statement of the server keeps what is published in accord with
where it stands. -/
theorem Published.serverStep (h : Published s) (ok : Bool) : Published (serverStep ok s) := by
  obtain ⟨sh, pr, se, sv, ac, de⟩ := s
  cases sv with
  | accept =>
    cases ok with
    | false => exact h
    | true => exact h.accept rfl
  | publish c => exact ⟨rfl, h.held_lt, h.deleted_lt, h.held_deleted⟩
  | recv c =>
    cases ok with
    | false => exact ⟨h.use, h.held_lt, h.deleted_lt, h.held_deleted⟩
    | true => exact h
  | close c => exact ⟨h.use, h.held_lt, h.deleted_lt, h.held_deleted⟩
  | netbufDelete c => exact ⟨h.use, h.held_lt, h.deleted_lt, h.held_deleted⟩
  | delete c => exact h.delete rfl
  | info c => exact ⟨h.use, h.held_lt, h.deleted_lt, h.held_deleted⟩
  | clear c => exact ⟨rfl, fun d hd => (by cases hd), h.deleted_lt, fun d hd => (by cases hd)⟩

/-- **Every step of the system keeps it**, of the server and of the sender
in any order. -/
theorem Published.step {a : Act} (h : Published s) (hstep : step s a = some t) : Published t := by
  cases a with
  | print str =>
    simp only [Telnet.step] at hstep
    split at hstep
    · rw [← Option.some.inj hstep]
      split
      · exact h
      · exact h.congr rfl rfl rfl rfl
    · cases hstep
  | printer =>
    obtain ⟨hu, hsv, hac, hde⟩ := printerStep_server hstep
    exact h.congr hu hsv hac hde
  | sender =>
    obtain ⟨hu, hsv, hac, hde⟩ := senderStep_server s
    exact Option.some.inj hstep ▸ h.congr hu hsv hac hde
  | server ok => exact Option.some.inj hstep ▸ h.serverStep ok

/-- A published connection has been deleted exactly while the server
winds up. -/
theorem Published.deleted_iff (h : Published s) (hu : s.shared.newconnUse = some c) :
    c ∈ s.deleted ↔ s.server.windingUp = true := by
  refine h.held_deleted c ?_
  have hp := h.use.symm.trans hu
  cases hsv : s.server <;> simp_all [ServerPc.published, ServerPc.conn]

/-- While the server winds up, the connection is still published. -/
theorem Published.use_of_windingUp (h : Published s) (hw : s.server.windingUp = true) :
    ∃ c, s.shared.newconnUse = some c := by
  rw [h.use]
  cases hsv : s.server <;> simp_all [ServerPc.published, ServerPc.windingUp]

/-- **The server's own writes**, which its receive loop makes, are on a
connection not deleted. -/
theorem recv_not_deleted (as : List Act) :
    Always step (fun s => ∀ c, s.server = .recv c → c ∉ s.deleted) System.init as := by
  refine always_of_invariant (P := fun _ _ => True) (I := Published)
    (fun s a t hs _ ht => hs.step ht) ?_ published_init (along_of_forall (fun _ _ => trivial) _)
  intro s hs c hrecv hmem
  have hconn : s.server.conn = some c := by rw [hrecv]; rfl
  have hup := (hs.held_deleted c hconn).1 hmem
  rw [hrecv] at hup
  cases hup

/-- **A run writes to no deleted connection if and only if no write of
the sender falls between the server's `netconn_delete` and its
`newconnUse = NULL`**, over every interleaving and every sequence of
sessions. -/
theorem safeWrites_iff (as : List Act) :
    Along step SafeWrite System.init as ↔ Along step WriteOutsideWindow System.init as := by
  refine along_congr (I := Published) (fun s a t hs ht => hs.step ht) ?_ published_init
  intro s a hs
  constructor
  · intro hsafe ha hw
    by_contra hup
    have hup : s.server.windingUp = true := by simpa using hup
    obtain ⟨c, hu⟩ := hs.use_of_windingUp hup
    exact hsafe ha hw c hu ((hs.deleted_iff hu).2 hup)
  · intro hout ha hw c hu hmem
    have hdown := hout ha hw
    rw [(hs.deleted_iff hu).1 hmem] at hdown
    cases hdown

/-- One byte is printed and the sender has decided to write it when the
connection is lost: the server deletes it, and the sender writes. -/
def lateWrite : List Act :=
  List.flatten [[.server true, .server true, .print [65], .printer, .printer, .printer],
    List.replicate 3 .sender, [.server false, .server true, .server true, .server true, .sender]]

/-- **The sender can write to a deleted connection**: the server deletes it,
prints, and only then takes it out of `newconnUse`. -/
theorem late_write : ¬ ∀ as, Along step SafeWrite System.init as := by
  intro h
  exact absurd (h lateWrite) (by decide)

end Telnet

end SlipBoard
