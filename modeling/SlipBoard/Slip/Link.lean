import SlipBoard.Slip.Model.Link
import SlipBoard.Slip.Delivery
/-!
# SLIP — the link

The bytes taken from the queue and those still in it are bytes the line
has brought, in their order (`Link.Accounts`), whatever the order of
interrupts and tasks. A byte is missing only where it came before the
queue was there, with an error, or into a full queue; where no step of a
run is of this kind none is missing, and what a peer sends with
`slipif_output` is what the stack gets (`peer_delivered`).

`task_rrintErrorUart` clears `errorUartSR` behind its tests. A byte that
a full queue drops between test and clear is not reported; where none is
dropped there, each is (`overflow_reported`).
-/

namespace SlipBoard

namespace Slip

open Transition

variable {σ : Type} {stack : Stack σ}

namespace Link

/-- What the queue holds, and nothing before `sio_open` has made it. -/
def queued (l : Link σ) : List UInt8 := l.queueUART.getD []

/-- **The account of the bytes**, from the interface `netif` on: those it
has taken have led it where it is, and with those in the queue they are some
of those that have arrived. -/
structure Accounts (stack : Stack σ) (netif : σ × SlipifPriv) (l : Link σ) : Prop where
  netif_eq : l.netif = process stack netif l.taken
  sublist : (l.taken ++ l.queued).Sublist l.arrived
  queued_le : l.queued.length ≤ sizeQueueRx

variable {netif : σ × SlipifPriv} {l l' : Link σ} {e : LinkEvent}

theorem accounts_init (netif : σ × SlipifPriv) : Accounts stack netif (init netif) :=
  ⟨rfl, List.Sublist.refl _, Nat.zero_le _⟩

/-- **What the interrupt does with a byte**: it is put into the queue,
dropped by a full one with a flag left, dropped for an error with the
register's flags left, or dropped where there is no queue. -/
theorem usart2IRQHandler_cases (l : Link σ) (sr : UInt32) (dr : UInt8) :
    (sr &&& usartSrRxne = 0 ∧ l.usart2IRQHandler sr dr = l) ∨
    (sr &&& usartSrErrors = 0 ∧ ∃ queue, l.queueUART = some queue ∧ queue.length < sizeQueueRx ∧
      l.usart2IRQHandler sr dr =
        { l with arrived := l.arrived ++ [dr], queueUART := some (queue ++ [dr]) }) ∨
    (sr &&& usartSrErrors = 0 ∧ ∃ queue, l.queueUART = some queue ∧
      sizeQueueRx ≤ queue.length ∧ l.usart2IRQHandler sr dr =
        { l with arrived := l.arrived ++ [dr], errorUartSR := l.errorUartSR ||| flagErrorQueue }) ∨
    (sr &&& usartSrRxne ≠ 0 ∧ sr &&& usartSrErrors ≠ 0 ∧ l.usart2IRQHandler sr dr =
        { l with arrived := l.arrived ++ [dr], errorUartSR := l.errorUartSR ||| sr }) ∨
    (l.queueUART = none ∧ l.usart2IRQHandler sr dr = { l with arrived := l.arrived ++ [dr] }) := by
  unfold usart2IRQHandler
  by_cases hrxne : sr &&& usartSrRxne = 0
  · exact .inl ⟨hrxne, if_neg (not_not.2 hrxne)⟩
  rw [if_pos hrxne]
  by_cases herrors : sr &&& usartSrErrors = 0
  · simp only [if_pos herrors]
    cases hqueue : l.queueUART with
    | none => exact .inr (.inr (.inr (.inr ⟨rfl, rfl⟩)))
    | some queue =>
      by_cases hlt : queue.length < sizeQueueRx
      · refine .inr (.inl ⟨herrors, queue, rfl, hlt, ?_⟩)
        simp only [xQueueSendFromISR, if_pos hlt]
      · refine .inr (.inr (.inl ⟨herrors, queue, rfl, Nat.le_of_not_lt hlt, ?_⟩))
        simp only [xQueueSendFromISR, if_neg hlt]
  · exact .inr (.inr (.inr (.inl ⟨hrxne, herrors, by simp only [if_neg herrors]⟩)))

/-- The report task touches neither the bytes nor the interface. -/
theorem taskRrintErrorUart_frame (l : Link σ) :
    l.taskRrintErrorUart.netif = l.netif ∧ l.taskRrintErrorUart.taken = l.taken ∧
      l.taskRrintErrorUart.arrived = l.arrived ∧ l.taskRrintErrorUart.queueUART = l.queueUART := by
  unfold taskRrintErrorUart
  cases l.report with
  | test => by_cases h : l.errorUartSR ≠ 0 <;> simp [h]
  | testQueue => exact ⟨rfl, rfl, rfl, rfl⟩
  | testOre => exact ⟨rfl, rfl, rfl, rfl⟩
  | clear => exact ⟨rfl, rfl, rfl, rfl⟩

/-- The thread takes the first byte of the queue. -/
theorem step_loop : step stack l .loop = some l' ↔ ∃ c queue, l.queueUART = some (c :: queue) ∧
    l' = { l with
      queueUART := some queue
      netif := slipifRxbyteInput stack l.netif c
      taken := l.taken ++ [c] } := by
  unfold step
  rcases hqueue : l.queueUART with _ | _ | ⟨c, queue⟩
  · exact iff_of_false nofun nofun
  · exact iff_of_false nofun nofun
  · constructor
    · intro h
      exact ⟨c, queue, rfl, (Option.some.inj h).symm⟩
    · rintro ⟨c', queue', h, rfl⟩
      cases h
      rfl

theorem process_concat (netif : σ × SlipifPriv) (cs : List UInt8) (c : UInt8) :
    process stack netif (cs ++ [c]) = slipifRxbyteInput stack (process stack netif cs) c :=
  List.foldl_concat ..

/-- **The account is kept** by every step, of the interrupt and of the
tasks. -/
theorem Accounts.step (h : Accounts stack netif l) (hstep : step stack l e = some l') :
    Accounts stack netif l' := by
  obtain ⟨hnetif, hsub, hle⟩ := h
  cases e with
  | interrupt sr dr =>
    have hlonger : (l.taken ++ l.queued).Sublist (l.arrived ++ [dr]) :=
      hsub.trans (List.sublist_append_left _ _)
    have hl' : l.usart2IRQHandler sr dr = l' := Option.some.inj hstep
    obtain ⟨-, heq⟩ | ⟨-, queue, hqueue, hlt, heq⟩ | ⟨-, -, -, -, heq⟩ | ⟨-, -, heq⟩ | ⟨-, heq⟩ :=
      usart2IRQHandler_cases l sr dr
    all_goals rw [heq] at hl'; subst hl'
    · exact ⟨hnetif, hsub, hle⟩
    · refine ⟨hnetif, ?_, ?_⟩
      · simp only [queued, hqueue, Option.getD_some, ← List.append_assoc] at hsub ⊢
        exact hsub.append (List.Sublist.refl _)
      · rw [queued, Option.getD_some, List.length_append]
        exact hlt
    · exact ⟨hnetif, hlonger, hle⟩
    · exact ⟨hnetif, hlonger, hle⟩
    · exact ⟨hnetif, hlonger, hle⟩
  | create =>
    have hnone : l.queueUART = none := by
      by_contra hne
      rw [Link.step, if_neg hne] at hstep
      cases hstep
    rw [Link.step, if_pos hnone] at hstep
    cases hstep
    rw [queued, hnone] at hsub
    exact ⟨hnetif, hsub, Nat.zero_le _⟩
  | loop =>
    obtain ⟨c, queue, hqueue, rfl⟩ := step_loop.1 hstep
    rw [queued, hqueue, Option.getD_some] at hsub hle
    refine ⟨?_, ?_, ?_⟩
    · rw [process_concat, ← hnetif]
    · simpa [queued] using hsub
    · rw [queued, Option.getD_some]
      exact Nat.le_of_succ_le hle
  | report =>
    rw [Link.step] at hstep
    split_ifs at hstep
    cases hstep
    obtain ⟨hnetif', htaken, harrived, hqueue⟩ := taskRrintErrorUart_frame l
    exact ⟨by rw [hnetif', htaken]; exact hnetif, by rw [queued, htaken, harrived, hqueue]; exact hsub,
      by rw [queued, hqueue]; exact hle⟩

/-- **Every run from boot accounts for its bytes**, whether it loses some or
not: the bytes the interface has taken, and behind them those in the queue,
are some of those that have arrived, in their order; the queue holds no more
than its room; and the interface is where these bytes have led it. -/
theorem accounts_run {es : List LinkEvent} (hrun : run (step stack) (init netif) es = some l) :
    Accounts stack netif l :=
  (always_of_invariant (I := Accounts stack netif) (P := fun _ _ => True)
    (fun _ _ _ h _ hstep => h.step hstep) (fun _ h => h) (accounts_init netif)
    (along_of_forall (fun _ _ => trivial) _)).last hrun

/-! ## No byte missing -/

/-- The step loses no byte: the interrupt finds a queue with room, and no
error. -/
def Lossless (l : Link σ) : LinkEvent → Prop
  | .interrupt sr _ => sr &&& usartSrRxne ≠ 0 →
      sr &&& usartSrErrors = 0 ∧
        l.queueUART.any fun queue => decide (queue.length < sizeQueueRx)
  | _ => True

instance (l : Link σ) : ∀ e, Decidable (l.Lossless e)
  | .interrupt _ _ => inferInstanceAs (Decidable (_ → _))
  | .create => inferInstanceAs (Decidable True)
  | .loop => inferInstanceAs (Decidable True)
  | .report => inferInstanceAs (Decidable True)

/-- Nothing is missing so far: what was taken and what is queued is all that
has arrived. -/
def Complete (l : Link σ) : Prop := l.taken ++ l.queued = l.arrived

theorem Complete.step (h : Complete l) (hloss : Lossless l e) (hstep : step stack l e = some l') :
    Complete l' := by
  unfold Complete at h ⊢
  cases e with
  | interrupt sr dr =>
    have hl' : l.usart2IRQHandler sr dr = l' := Option.some.inj hstep
    subst hl'
    by_cases hrxne : sr &&& usartSrRxne = 0
    · rw [usart2IRQHandler, if_neg (not_not.2 hrxne)]
      exact h
    · obtain ⟨herrors, hroom⟩ := hloss hrxne
      obtain ⟨queue, hqueue, hlt⟩ := (Option.any_eq_true _ _).1 hroom
      have hlt := of_decide_eq_true hlt
      rw [queued, hqueue, Option.getD_some] at h
      simp only [usart2IRQHandler, if_pos hrxne, if_pos herrors, hqueue, xQueueSendFromISR,
        if_pos hlt, queued, Option.getD_some, ← List.append_assoc, h]
  | create =>
    have hnone : l.queueUART = none := by
      by_contra hne
      rw [Link.step, if_neg hne] at hstep
      cases hstep
    rw [Link.step, if_pos hnone] at hstep
    cases hstep
    rw [queued, hnone] at h
    exact h
  | loop =>
    obtain ⟨c, queue, hqueue, rfl⟩ := step_loop.1 hstep
    rw [queued, hqueue, Option.getD_some] at h
    simpa [queued] using h
  | report =>
    rw [Link.step] at hstep
    split_ifs at hstep
    cases hstep
    obtain ⟨-, htaken, harrived, hqueue⟩ := taskRrintErrorUart_frame l
    rw [queued, htaken, harrived, hqueue]
    exact h

theorem complete_run {es : List LinkEvent} (hloss : Along (step stack) Lossless (init netif) es)
    (hrun : run (step stack) (init netif) es = some l) : Complete l :=
  (always_of_invariant (I := Complete) (P := Lossless) (fun _ _ _ h hloss hstep => h.step hloss hstep)
    (fun _ h => h) (show Complete (init netif) from rfl) hloss).last hrun

/-! ## From a peer -/

/-- **What a peer sends is what the stack gets.** Where no interrupt of the
run loses a byte, and every byte finds its buffer, the packets delivered so
far are the first of those the peer has sent, in their order, and all of
them when every byte has come and been taken. As at the receiver alone, an
empty packet is none, and a long one is cut behind `maxPacket` bytes. -/
theorem peer_delivered (hsized : stack.Sized) (mem : σ) (ps : List (List Pbuf))
    {es : List LinkEvent} (hloss : Along (step stack) Lossless (init (mem, slipifInit)) es)
    (hrun : run (step stack) (init (mem, slipifInit)) es = some l)
    (hline : l.arrived <+: sent ps) (hsupplied : Supplied stack (mem, slipifInit) l.taken) :
    delivered stack (mem, slipifInit) l.taken <+:
        ((ps.map chainBytes).filter (· ≠ [])).map (·.take maxPacket) ∧
      (l.arrived = sent ps → l.queued = [] →
        delivered stack (mem, slipifInit) l.taken =
          ((ps.map chainBytes).filter (· ≠ [])).map (·.take maxPacket)) := by
  have hcomplete : l.taken ++ l.queued = l.arrived := complete_run hloss hrun
  refine ⟨?_, fun hall hempty => ?_⟩
  · have hbeside : Beside Kept (mem, slipifInit) .idle := ⟨receiving_init, rfl, rfl⟩
    obtain ⟨rest, hrest⟩ := hline
    have hsent : sent ps = l.taken ++ (l.queued ++ rest) := by
      rw [← hrest, ← hcomplete, List.append_assoc]
    have hreceived : slip.received .idle (sent ps) = Stuffing.solids (ps.map chainBytes) := by
      rw [sent_eq, Stuffing.received_frames]
    rw [hsent, Stuffing.received_append] at hreceived
    rw [(delivered_eq hsized hsupplied hbeside).1]
    exact List.IsPrefix.map _ ⟨_, hreceived⟩
  · rw [hempty, List.append_nil] at hcomplete
    rw [hcomplete, hall] at hsupplied ⊢
    exact output_delivered hsized mem ps hsupplied

/-- The bytes of a packet come while the thread takes them and the report
task looks. -/
def transit : List LinkEvent :=
  [.create, .interrupt 0x20 slipEnd, .interrupt 0x20 slipEsc, .loop, .report,
    .interrupt 0x20 slipEscEnd, .loop, .loop, .interrupt 0x20 slipEnd, .loop]

/-- The account of the bytes of a packet in transit, four of which have been
taken. -/
theorem accounts_run_transit : ∃ l,
    run (step (fullPool 3)) (init ((), slipifInit)) transit = some l ∧
      (l.taken ++ l.queued).Sublist l.arrived ∧ l.taken.length = 4 := by
  have hrun : run (step (fullPool 3)) (init ((), slipifInit)) transit = some _ := rfl
  exact ⟨_, hrun, (accounts_run hrun).sublist, rfl⟩

/-- **A packet in transit** of a peer that sends an END within it. -/
theorem peer_delivered_transit : ∃ l,
    run (step (fullPool 3)) (init ((), slipifInit)) transit = some l ∧
      delivered (fullPool 3) ((), slipifInit) l.taken = [[slipEnd]] := by
  have hloss : Along (step (fullPool 3)) Lossless (init ((), slipifInit)) transit := by decide
  refine ⟨_, rfl, ?_⟩
  exact ((peer_delivered (fullPool_sized ⟨by decide, by decide⟩) () [[⟨fun _ => slipEnd, 1⟩]]
    hloss rfl (by decide) (fullPool_supplied 3 _ _)).2 (by decide) rfl).trans (by decide)

/-! ## The report -/

/-- The interrupt drops a byte because the queue is full: a byte without an
error has come, and there is no place for it. -/
def Overflows (l : Link σ) : LinkEvent → Prop
  | .interrupt sr _ => sr &&& usartSrRxne ≠ 0 ∧ sr &&& usartSrErrors = 0 ∧
      l.queueUART.any fun queue => decide (sizeQueueRx ≤ queue.length)
  | _ => False

instance (l : Link σ) : ∀ e, Decidable (l.Overflows e)
  | .interrupt _ _ => inferInstanceAs (Decidable (_ ∧ _))
  | .create => inferInstanceAs (Decidable False)
  | .loop => inferInstanceAs (Decidable False)
  | .report => inferInstanceAs (Decidable False)

/-- A step, with a note whether a full queue has dropped a byte behind
the last line that says so. -/
def stepOwed (stack : Stack σ) (s : Link σ × Bool) (e : LinkEvent) : Option (Link σ × Bool) :=
  (step stack s.1 e).map fun l =>
    (l, if s.1.Overflows e then true else if l.printed = s.1.printed ++ [.queue] then false else s.2)

/-- The report task is behind its test of the flag. -/
def Tested (l : Link σ) : Prop := l.report = .testOre ∨ l.report = .clear

/-- A line that is owed is flagged, and not behind the test. -/
def Flagged (s : Link σ × Bool) : Prop :=
  s.2 = true → s.1.errorUartSR &&& flagErrorQueue ≠ 0 ∧ ¬ s.1.Tested

/-- A flag that is set stays set, whatever else is flagged. -/
theorem or_flag_ne {a : UInt32} (h : a &&& flagErrorQueue ≠ 0) (b : UInt32) :
    (a ||| b) &&& flagErrorQueue ≠ 0 := by
  refine fun h0 => h ?_
  rw [← UInt32.toBitVec_inj, UInt32.toBitVec_and] at h0 ⊢
  refine BitVec.eq_of_getLsbD_eq fun i _ => ?_
  have hbit := congrArg (BitVec.getLsbD · i) h0
  simp only [UInt32.toBitVec_or, BitVec.getLsbD_and, BitVec.getLsbD_or] at hbit ⊢
  cases ha : a.toBitVec.getLsbD i
  · exact (BitVec.getLsbD_zero).symm ▸ Bool.false_and _
  · rw [ha, Bool.true_or, Bool.true_and] at hbit
    rw [Bool.true_and]
    exact hbit

/-- The interrupt prints nothing, leaves the report task where it
stands, and sets flags only. -/
theorem usart2IRQHandler_frame (l : Link σ) (sr : UInt32) (dr : UInt8) :
    (l.usart2IRQHandler sr dr).printed = l.printed ∧
      (l.usart2IRQHandler sr dr).report = l.report ∧
      ∃ flags, (l.usart2IRQHandler sr dr).errorUartSR = l.errorUartSR ||| flags := by
  obtain ⟨-, heq⟩ | ⟨-, queue, -, -, heq⟩ | ⟨-, -, -, -, heq⟩ | ⟨-, -, heq⟩ | ⟨-, heq⟩ :=
    usart2IRQHandler_cases l sr dr
  all_goals rw [heq]
  · exact ⟨rfl, rfl, 0, UInt32.or_zero.symm⟩
  · exact ⟨rfl, rfl, 0, UInt32.or_zero.symm⟩
  · exact ⟨rfl, rfl, flagErrorQueue, rfl⟩
  · exact ⟨rfl, rfl, sr, rfl⟩
  · exact ⟨rfl, rfl, 0, UInt32.or_zero.symm⟩

/-- A byte that comes while the queue is full is flagged in `errorUartSR`. -/
theorem Overflows.flagged {sr : UInt32} {dr : UInt8} (h : l.Overflows (.interrupt sr dr)) :
    (l.usart2IRQHandler sr dr).errorUartSR &&& flagErrorQueue ≠ 0 := by
  obtain ⟨hrxne, herrors, hfull⟩ := h
  obtain ⟨queue, hqueue, hle⟩ := Option.any_eq_true _ _ |>.1 hfull
  have hfull : ¬ queue.length < sizeQueueRx := Nat.not_lt.2 (of_decide_eq_true hle)
  simp only [usart2IRQHandler, if_pos hrxne, if_pos herrors, hqueue, xQueueSendFromISR,
    if_neg hfull]
  rw [UInt32.or_comm]
  exact or_flag_ne (by decide) _

/-- **A line owed stays flagged**, where no byte is dropped behind the test:
the flag is only cleared by the task that prints the line. -/
theorem Flagged.step {s s' : Link σ × Bool} (h : Flagged s)
    (hwindow : s.1.Overflows e → ¬ s.1.Tested) (hstep : stepOwed stack s e = some s') :
    Flagged s' := by
  obtain ⟨l, owed⟩ := s
  obtain ⟨l', hl', rfl⟩ := Option.map_eq_some_iff.1 hstep
  cases e with
  | interrupt sr dr =>
    cases hl'
    obtain ⟨hprinted, hreport, flags, hflags⟩ := usart2IRQHandler_frame l sr dr
    intro howed
    rw [Tested, hreport]
    by_cases hover : l.Overflows (.interrupt sr dr)
    · exact ⟨hover.flagged, hwindow hover⟩
    · rw [if_neg hover, if_neg (by rw [hprinted]; simp)] at howed
      obtain ⟨hflag, htested⟩ := h howed
      exact ⟨by rw [hflags]; exact or_flag_ne hflag flags, htested⟩
  | create =>
    rw [Link.step] at hl'
    split_ifs at hl'
    cases hl'
    intro howed
    rw [if_neg (show ¬ l.Overflows .create from id), if_neg (by simp)] at howed
    exact h howed
  | loop =>
    obtain ⟨c, queue, -, rfl⟩ := step_loop.1 hl'
    intro howed
    rw [if_neg (show ¬ l.Overflows .loop from id), if_neg (by simp)] at howed
    exact h howed
  | report =>
    rw [Link.step] at hl'
    split_ifs at hl'
    cases hl'
    intro howed
    rw [if_neg (show ¬ l.Overflows .report from id)] at howed
    split_ifs at howed with hprinted
    obtain ⟨hflag, htested⟩ := h howed
    cases hreport : l.report with
    | test =>
      have hne : l.errorUartSR ≠ 0 := fun h0 => hflag (by rw [h0, UInt32.zero_and])
      simp only [taskRrintErrorUart, hreport, if_pos hne]
      exact ⟨hflag, by rintro (h | h) <;> cases h⟩
    | testQueue => exact absurd (by simp only [taskRrintErrorUart, hreport, if_pos hflag]) hprinted
    | testOre => exact absurd (.inl hreport) htested
    | clear => exact absurd (.inr hreport) htested

/-- **Every overflow is reported**, where none falls between the report
task's test of the flag and its clearing: as long as the line is owed the
flag is set, and the task is in front of its test, so the line is still to
come. -/
theorem overflow_reported {es : List LinkEvent} {owed : Bool}
    (hwindow : Along (stepOwed stack) (fun s e => s.1.Overflows e → ¬ s.1.Tested)
      (init netif, false) es)
    (hrun : run (stepOwed stack) (init netif, false) es = some (l, owed)) :
    owed = true → l.errorUartSR &&& flagErrorQueue ≠ 0 ∧ ¬ l.Tested :=
  (always_of_invariant (I := Flagged) (P := fun s e => s.1.Overflows e → ¬ s.1.Tested)
    (fun _ _ _ h hwindow hstep => h.step hwindow hstep) (fun _ h => h)
    (show Flagged (init netif, false) from nofun) hwindow).last hrun

/-- Bytes that a queue has room for, -/
theorem run_interrupts (stack : Stack σ) (owed : Bool) :
    ∀ (cs : List UInt8) {queue : List UInt8} {l : Link σ},
      l.queueUART = some queue → queue.length + cs.length ≤ sizeQueueRx →
        run (stepOwed stack) (l, owed) (cs.map (.interrupt usartSrRxne)) =
          some ({ l with arrived := l.arrived ++ cs, queueUART := some (queue ++ cs) }, owed) ∧
        Along (stepOwed stack) (fun s e => s.1.Overflows e → ¬ s.1.Tested) (l, owed)
          (cs.map (.interrupt usartSrRxne)) := by
  intro cs
  induction cs with
  | nil =>
    intro queue l hqueue _
    exact ⟨by simp [← hqueue], trivial⟩
  | cons c cs ih =>
    intro queue l hqueue hle
    rw [List.length_cons] at hle
    have hlt : queue.length < sizeQueueRx := by omega
    have hroom : ¬ l.Overflows (.interrupt usartSrRxne c) := by
      rintro ⟨-, -, hfull⟩
      rw [hqueue] at hfull
      exact absurd (of_decide_eq_true hfull) (Nat.not_le.2 hlt)
    have hstep : stepOwed stack (l, owed) (.interrupt usartSrRxne c) =
        some ({ l with arrived := l.arrived ++ [c], queueUART := some (queue ++ [c]) }, owed) := by
      have hirq : l.usart2IRQHandler usartSrRxne c =
          { l with arrived := l.arrived ++ [c], queueUART := some (queue ++ [c]) } := by
        simp only [usart2IRQHandler, hqueue, xQueueSendFromISR, if_pos hlt]
        rfl
      rw [stepOwed, Link.step, Option.map_some, hirq, if_neg hroom, if_neg (by simp)]
    obtain ⟨hrun, halong⟩ := ih (l := { l with
      arrived := l.arrived ++ [c], queueUART := some (queue ++ [c]) }) rfl
      (by rw [List.length_append, List.length_singleton]; omega)
    refine ⟨?_, fun h => absurd h hroom, fun t ht => ?_⟩
    · rw [List.map_cons, run, hstep, Option.bind_some, hrun]
      simp
    · rw [hstep] at ht
      exact Option.some.inj ht ▸ halong

/-- and one more. -/
theorem stepOwed_full (stack : Stack σ) {queue : List UInt8} (hqueue : l.queueUART = some queue)
    (hle : sizeQueueRx ≤ queue.length) (owed : Bool) (c : UInt8) :
    stepOwed stack (l, owed) (.interrupt usartSrRxne c) =
      some (l.usart2IRQHandler usartSrRxne c, true) := by
  have hfull : l.Overflows (.interrupt usartSrRxne c) :=
    ⟨by decide, by decide, by rw [hqueue]; exact decide_eq_true hle⟩
  rw [stepOwed, Link.step, Option.map_some, if_pos hfull]

/-- **A byte too many** for a queue that the thread does not empty: it is
flagged, and its line owed. -/
theorem overflow_reported_full : ∃ l : Link Unit,
    run (stepOwed (fullPool 3)) (init ((), slipifInit), false)
        (.create :: ((List.replicate sizeQueueRx 0).map (.interrupt usartSrRxne) ++
          [.interrupt usartSrRxne 0])) = some (l, true) ∧
      l.errorUartSR &&& flagErrorQueue ≠ 0 := by
  obtain ⟨hfill, halong⟩ := run_interrupts (fullPool 3) false (List.replicate sizeQueueRx 0)
    (l := { init ((), slipifInit) with queueUART := some [] }) rfl (by simp)
  have hover := stepOwed_full (fullPool 3)
    (l := { init ((), slipifInit) with
      arrived := List.replicate sizeQueueRx 0, queueUART := some (List.replicate sizeQueueRx 0) })
    rfl (by simp) false 0
  have hcreate : stepOwed (fullPool 3) (init ((), slipifInit), false) .create =
      some ({ init ((), slipifInit) with queueUART := some [] }, false) := rfl
  have hrun := run_cons.2 ⟨_, hcreate, run_append.2 ⟨_, hfill, run_cons.2 ⟨_, hover, run_nil _⟩⟩⟩
  refine ⟨_, hrun, (overflow_reported ?_ hrun rfl).1⟩
  refine ⟨nofun, fun t ht => ?_⟩
  obtain rfl := Option.some.inj (hcreate.symm.trans ht)
  refine along_append.2 ⟨halong, fun t ht => ?_⟩
  obtain rfl := Option.some.inj (hfill.symm.trans ht)
  exact ⟨fun _ => (by rintro (h | h) <;> cases h), fun _ _ => trivial⟩

end Link

end Slip

end SlipBoard
