import SlipBoard.Slip.Framing
import SlipBoard.Slip.Poll
/-!
# SLIP — delivery

`slipif_rxbyte` follows the receiver of frames (`Stuffing.step`) byte by
byte (`slipifRxbyte_cases`). Where every byte finds a buffer the packets
it delivers are the frames on the line, cut behind `SLIP_MAX_SIZE + 1`
bytes (`delivered_eq`), so what `slipif_output` has sent arrives
(`output_delivered`), and behind garbage all of it but at most the first
packet (`output_delivered_behind`). Where buffers run out a packet may
miss bytes or be missing itself, and nothing is delivered that was not on
the line (`delivered_sublist`).
-/

namespace SlipBoard

namespace Slip

variable {σ : Type} {stack : Stack σ}

/-- The longest packet that is stored: the test lets one byte more through
than `SLIP_MAX_SIZE`. -/
abbrev maxPacket : ℕ := slipMaxSize.toNat + 1

/-- The packets delivered to `netif->input` while bytes come in, by their
bytes. -/
def delivered (stack : Stack σ) : σ × SlipifPriv → List UInt8 → List (List UInt8)
  | _, [] => []
  | s, c :: cs => ((slipifRxbyte stack s c).2.map chainBytes).toList ++
      delivered stack (slipifRxbyteInput stack s c) cs

/-- The pool has a buffer whenever a byte comes in and there is none. -/
def Supplied (stack : Stack σ) : σ × SlipifPriv → List UInt8 → Prop
  | _, [] => True
  | s, c :: cs => (s.2.p = none → (stack.pbufAlloc s.1).2.isSome) ∧
      Supplied stack (slipifRxbyteInput stack s c) cs

/-! ## A byte received -/

theorem length_stored {priv : SlipifPriv} (h : Receiving priv) :
    (stored priv).length = priv.recved.toNat := by
  rw [stored, List.length_take]
  refine Nat.min_eq_left ?_
  cases hp : priv.p with
  | none => exact Nat.le_of_eq (h.full hp).2
  | some p =>
    obtain ⟨b, hb, hi, hrecved⟩ := h.place p hp
    exact hrecved ▸ Nat.le_of_lt (offset_lt hb hi)

theorem length_stored_le {priv : SlipifPriv} (h : Receiving priv) :
    (stored priv).length ≤ maxPacket := by
  rw [length_stored h]
  exact UInt16.le_iff_toNat_le.1 h.recved_le

theorem recved_pos_iff {priv : SlipifPriv} (h : Receiving priv) :
    priv.recved > 0 ↔ stored priv ≠ [] := by
  rw [← List.length_pos_iff, length_stored h]
  exact UInt16.lt_iff_toNat_lt

/-- Whether an escape is pending, of the two states of the receiver. -/
def RecvState.escaped : RecvState → Bool
  | .normal => false
  | .escape => true

/-- **The driver beside the receiver of frames** `d`: what it has stored
is to what `d` holds as `R` says. -/
structure Beside (R : List UInt8 → List UInt8 → Prop) (s : σ × SlipifPriv)
    (d : Deframer UInt8) : Prop where
  receiving : Receiving s.2
  escaped : d.escaped = s.2.state.escaped
  rel : R (stored s.2) d.frame

variable {R : List UInt8 → List UInt8 → Prop} {s : σ × SlipifPriv} {d : Deframer UInt8}

/-! ## `slipif_rxbyte`, by its cases -/

/-- A packet is complete, -/
theorem slipifRxbyte_end {mem : σ} {priv : SlipifPriv} (hstate : priv.state = .normal)
    (hpos : priv.recved > 0) :
    slipifRxbyte stack (mem, priv) slipEnd =
      ((mem, { priv with p := none, q := [], i := 0, recved := 0 }),
        some (pbufRealloc priv.recved.toNat priv.q)) := by
  obtain ⟨p, q, state, i, recved⟩ := priv
  cases hstate
  simp only [slipifRxbyte, if_pos hpos, if_true]

/-- or there is none, -/
theorem slipifRxbyte_end_empty (hstate : s.2.state = .normal) (hpos : ¬ s.2.recved > 0) :
    slipifRxbyte stack s slipEnd = (s, none) := by
  obtain ⟨mem, p, q, state, i, recved⟩ := s
  cases hstate
  simp only [slipifRxbyte, if_neg hpos, if_true]

/-- an escape begins, -/
theorem slipifRxbyte_esc (hstate : s.2.state = .normal) :
    slipifRxbyte stack s slipEsc = ((s.1, { s.2 with state := .escape }), none) := by
  obtain ⟨mem, p, q, state, i, recved⟩ := s
  cases hstate
  rfl

/-- a byte is stored, -/
theorem slipifRxbyte_store (hstate : s.2.state = .normal) {c : UInt8} (hend : c ≠ slipEnd)
    (hesc : c ≠ slipEsc) : slipifRxbyte stack s c = (storeByte stack s c, none) := by
  obtain ⟨mem, p, q, state, i, recved⟩ := s
  cases hstate
  simp only [slipifRxbyte, if_neg hend, if_neg hesc]

/-- or an escape ends. -/
theorem slipifRxbyte_escape (hstate : s.2.state = .escape) (c : UInt8) :
    slipifRxbyte stack s c =
      (storeByte stack (s.1, { s.2 with state := .normal }) (slip.unstuff c), none) := by
  obtain ⟨mem, p, q, state, i, recved⟩ := s
  cases hstate
  rfl

/-! ## Beside the receiver of frames -/

/-- A byte stored or dropped: the real receiver and the abstract one stay
beside each other, by what `R` says of the two. -/
theorem Beside.store (hsized : stack.Sized) (h : Beside R s d) {b : UInt8}
    (hstore : R (if Accepts stack s then stored s.2 ++ [b] else stored s.2) (d.frame ++ [b])) :
    Beside R (storeByte stack s b) { d with frame := d.frame ++ [b] } := by
  obtain ⟨hreceiving, hstate, hstored⟩ := storeByte_spec hsized h.receiving b
  exact ⟨hreceiving, by rw [hstate]; exact h.escaped, by rw [hstored]; exact hstore⟩

/-- A packet delivered: the two receivers deliver at the same END, each what
it has stored. -/
theorem Beside.end (stack : Stack σ) (h : Beside R s d) (hescaped : d.escaped = false) (hnil : R [] []) :
    Beside R (slipifRxbyteInput stack s slipEnd) (slip.step d slipEnd) ∧
      ((slipifRxbyte stack s slipEnd).2.map chainBytes).toList = Stuffing.solid (stored s.2) ∧
      (slip.completed d slipEnd).toList = Stuffing.solid d.frame := by
  obtain ⟨mem, priv⟩ := s
  obtain ⟨escaped, f⟩ := d
  cases hescaped
  have hstate : priv.state = .normal := by
    have := h.escaped
    cases hs : priv.state with
    | normal => rfl
    | escape => rw [hs] at this; cases this
  obtain ⟨hstep, hcompleted⟩ := Stuffing.received_delim (S := slip) f
  rw [Stuffing.received_cons, Stuffing.received_nil, List.append_nil] at hcompleted
  have hstep : slip.step ⟨false, f⟩ slipEnd = .idle := hstep
  rw [hstep]
  by_cases hpos : priv.recved > 0
  · have hne : stored priv ≠ [] := (recved_pos_iff h.receiving).1 hpos
    have hrx : slipifRxbyte stack (mem, priv) slipEnd = _ := slipifRxbyte_end hstate hpos
    simp only [slipifRxbyteInput, hrx]
    refine ⟨⟨⟨?_, UInt16.zero_le, fun _ => ⟨rfl, rfl⟩, ?_⟩, by rw [hstate]; rfl, hnil⟩, ?_,
      hcompleted⟩
    · intro b hb
      cases hb
    · intro k hk
      cases hk
    · rw [Option.map_some, chainBytes_pbufRealloc, Stuffing.solid, if_neg hne]
      rfl
  · have hempty : stored priv = [] := by
      by_contra hne
      exact hpos ((recved_pos_iff h.receiving).2 hne)
    have hrx : slipifRxbyte stack (mem, priv) slipEnd = _ := slipifRxbyte_end_empty hstate hpos
    simp only [slipifRxbyteInput, hrx]
    refine ⟨⟨h.receiving, by rw [hstate]; rfl, by rw [hempty]; exact hnil⟩, ?_, hcompleted⟩
    rw [Stuffing.solid, if_pos hempty]
    rfl

/-- **One byte**: the driver stays beside the receiver where `R` stands a
byte stored or dropped, and delivers at the delimiters at which that
does. -/
theorem Beside.step (hsized : stack.Sized) (h : Beside R s d) (hnil : R [] [])
    (hstore : ∀ b, R (if Accepts stack s then stored s.2 ++ [b] else stored s.2) (d.frame ++ [b]))
    (c : UInt8) :
    Beside R (slipifRxbyteInput stack s c) (slip.step d c) ∧
      ((slipifRxbyte stack s c).2 = none ∧ slip.completed d c = none ∨
        ((slipifRxbyte stack s c).2.map chainBytes).toList = Stuffing.solid (stored s.2) ∧
          (slip.completed d c).toList = Stuffing.solid d.frame) := by
  have hescaped := h.escaped
  cases hstate : s.2.state with
  | normal =>
    rw [hstate] at hescaped
    have hescaped : d.escaped = false := hescaped
    by_cases hend : c = slipEnd
    · subst hend
      obtain ⟨hbeside, hpacket⟩ := h.end stack hescaped hnil
      exact ⟨hbeside, .inr hpacket⟩
    · have hcompleted : slip.completed d c = none := if_neg fun h => hend h.2.1
      by_cases hesc : c = slipEsc
      · subst hesc
        rw [slipifRxbyteInput, slipifRxbyte_esc hstate]
        have hstep : slip.step d slipEsc = { d with escaped := true } := by
          simp only [Stuffing.step, hescaped]
          rfl
        exact ⟨⟨⟨h.receiving.1, h.receiving.2, h.receiving.3, h.receiving.4⟩,
          by rw [hstep]; rfl, by rw [hstep]; exact h.rel⟩, .inl ⟨rfl, hcompleted⟩⟩
      · have hstep : slip.step d c = { d with frame := d.frame ++ [c] } := by
          rw [Stuffing.step, hescaped, if_neg (show c ≠ slip.delim from hend),
            if_neg (show c ≠ slip.esc from hesc)]
          rfl
        rw [slipifRxbyteInput, slipifRxbyte_store hstate hend hesc, hstep]
        exact ⟨h.store hsized (hstore c), .inl ⟨rfl, hcompleted⟩⟩
  | escape =>
    rw [hstate] at hescaped
    have hescaped : d.escaped = true := hescaped
    have hcompleted : slip.completed d c = none := by
      rw [Stuffing.completed, hescaped]
      exact if_neg (by simp)
    have hstep : slip.step d c = ⟨false, d.frame ++ [slip.unstuff c]⟩ := by
      rw [Stuffing.step, hescaped]
      rfl
    have hnormal : Beside R (s.1, { s.2 with state := .normal }) { d with escaped := false } :=
      ⟨⟨h.receiving.1, h.receiving.2, h.receiving.3, h.receiving.4⟩, rfl, h.rel⟩
    rw [slipifRxbyteInput, slipifRxbyte_escape hstate, hstep]
    exact ⟨hnormal.store hsized (hstore _), .inl ⟨rfl, hcompleted⟩⟩

/-! ## A run of bytes -/

/-- With a buffer for every byte the driver holds the front of the
frame. -/
def Kept (l f : List UInt8) : Prop := l = f.take maxPacket

theorem kept_store {f : List UInt8} (h : Receiving s.2) (hkept : Kept (stored s.2) f)
    (hbuffer : s.2.p = none → (stack.pbufAlloc s.1).2.isSome) (b : UInt8) :
    Kept (if Accepts stack s then stored s.2 ++ [b] else stored s.2) (f ++ [b]) := by
  have haccepts : Accepts stack s ↔ (stored s.2).length < maxPacket := by
    rw [Accepts, and_iff_right hbuffer, length_stored h, UInt16.le_iff_toNat_le]
    exact Nat.lt_succ_iff.symm
  have hlen : (stored s.2).length = min maxPacket f.length := by rw [hkept, List.length_take]
  unfold Kept at hkept ⊢
  split_ifs with hacc
  · have hlt := haccepts.1 hacc
    have hwhole : stored s.2 = f := by rw [hkept, List.take_of_length_le (by omega)]
    rw [hwhole, List.take_of_length_le]
    rw [hwhole] at hlt
    rw [List.length_append]
    exact hlt
  · have hge : ¬ (stored s.2).length < maxPacket := fun hlt => hacc (haccepts.2 hlt)
    rw [List.take_append_of_le_length (by omega)]
    exact hkept

/-- **Delivery, byte by byte**: with a buffer for every byte the packets
delivered are the frames received. -/
theorem delivered_eq (hsized : stack.Sized) {cs : List UInt8} :
    ∀ {s : σ × SlipifPriv} {d : Deframer UInt8}, Supplied stack s cs → Beside Kept s d →
      delivered stack s cs = (slip.received d cs).map (·.take maxPacket) ∧
        Beside Kept (process stack s cs) (slip.after d cs) := by
  induction cs with
  | nil => exact fun _ h => ⟨rfl, h⟩
  | cons c cs ih =>
    rintro s d ⟨hbuffer, hsupplied⟩ h
    obtain ⟨hbeside, hpacket⟩ :=
      h.step hsized rfl (kept_store h.receiving h.rel hbuffer) c
    obtain ⟨hdelivered, hafter⟩ := ih hsupplied hbeside
    refine ⟨?_, hafter⟩
    rw [delivered, hdelivered, Stuffing.received_cons, List.map_append]
    refine congrArg (· ++ _) ?_
    rcases hpacket with ⟨hnone, hcompleted⟩ | ⟨hsolid, hcompleted⟩
    · rw [hnone, hcompleted]
      rfl
    · have hrel : stored s.2 = d.frame.take maxPacket := h.rel
      rw [hsolid, hcompleted, hrel, Stuffing.solid, Stuffing.solid]
      have hnil : d.frame.take maxPacket = [] ↔ d.frame = [] := by
        rw [List.take_eq_nil_iff]
        exact or_iff_right (by decide)
      by_cases hf : d.frame = []
      · rw [if_pos (hnil.2 hf), if_pos hf]
        rfl
      · rw [if_neg (mt hnil.1 hf), if_neg hf]
        rfl

/-- Where buffers run out, -/
theorem sublist_store {l f : List UInt8} (h : l.Sublist f) (p : Prop) [Decidable p] (b : UInt8) :
    (if p then l ++ [b] else l).Sublist (f ++ [b]) := by
  split_ifs
  · exact h.append (List.Sublist.refl _)
  · exact h.trans (List.sublist_append_left f [b])

/-- the packets are parts of frames, in their order. -/
theorem delivered_sublistForall₂ (hsized : stack.Sized) {cs : List UInt8} :
    ∀ {s : σ × SlipifPriv} {d : Deframer UInt8}, Beside List.Sublist s d →
      List.SublistForall₂ List.Sublist (delivered stack s cs) (slip.received d cs) := by
  induction cs with
  | nil => exact fun _ => .nil
  | cons c cs ih =>
    intro s d h
    obtain ⟨hbeside, hpacket⟩ := h.step hsized (List.Sublist.refl _)
      (sublist_store h.rel (Accepts stack s)) c
    have hrest := ih hbeside
    rw [delivered, Stuffing.received_cons]
    rcases hpacket with ⟨hnone, hcompleted⟩ | ⟨hsolid, hcompleted⟩
    · rw [hnone, hcompleted]
      exact hrest
    · rw [hsolid, hcompleted, Stuffing.solid, Stuffing.solid]
      have hrel : (stored s.2).Sublist d.frame := h.rel
      split_ifs with hl hf
      · exact hrest
      · exact .cons_right hrest
      · exact absurd (List.sublist_nil.1 (by rw [← ‹d.frame = []›]; exact hrel)) hl
      · exact .cons hrel hrest

/-- No packet that is delivered is empty, and none is longer than what is
stored of one. -/
theorem length_of_mem_delivered (hsized : stack.Sized) {x : List UInt8} {cs : List UInt8} :
    ∀ {s : σ × SlipifPriv}, Receiving s.2 → x ∈ delivered stack s cs →
      x ≠ [] ∧ x.length ≤ maxPacket := by
  induction cs with
  | nil =>
    intro s _ hx
    cases hx
  | cons c cs ih =>
    intro s h hx
    have hbeside : Beside (fun _ _ => True) s ⟨s.2.state.escaped, []⟩ := ⟨h, rfl, trivial⟩
    obtain ⟨hnext, hpacket⟩ := hbeside.step hsized trivial (fun _ => trivial) c
    rw [delivered, List.mem_append] at hx
    rcases hx with hx | hx
    · rcases hpacket with ⟨hnone, -⟩ | ⟨hsolid, -⟩
      · rw [hnone] at hx
        cases hx
      · rw [hsolid, Stuffing.solid] at hx
        split_ifs at hx with hne
        · cases hx
        · rw [List.mem_singleton.1 hx]
          exact ⟨hne, length_stored_le h⟩
    · exact ih hnext.receiving hx

/-! ## From one end to the other -/

/-- What `slipif_output` puts on the line for packets one after the
other. -/
def sent (ps : List (List Pbuf)) : List UInt8 := ps.flatMap fun p => (slipifOutput p).log

theorem sent_eq (ps : List (List Pbuf)) : sent ps = (ps.map chainBytes).flatMap slip.frame := by
  rw [sent, List.flatMap_map]
  exact List.flatMap_congr fun p _ => by rw [slipifOutput_eq]

theorem receiving_init : Receiving slipifInit := by
  refine ⟨?_, UInt16.zero_le, fun _ => ⟨rfl, rfl⟩, ?_⟩
  · intro b hb
    cases hb
  · intro k hk
    cases hk

/-- **What is sent is delivered**, where every byte finds its buffer: each
packet that holds something, once, in the order sent, and cut where it is
longer than `SLIP_MAX_SIZE + 1`. -/
theorem output_delivered (hsized : stack.Sized) (mem : σ) (ps : List (List Pbuf))
    (hsupplied : Supplied stack (mem, slipifInit) (sent ps)) :
    delivered stack (mem, slipifInit) (sent ps) =
      ((ps.map chainBytes).filter (· ≠ [])).map (·.take maxPacket) := by
  have hbeside : Beside Kept (mem, slipifInit) .idle := ⟨receiving_init, rfl, rfl⟩
  rw [(delivered_eq hsized hsupplied hbeside).1, sent_eq, Stuffing.received_frames]
  rfl

/-- **Behind garbage**, where every byte finds its buffer: whatever the
driver holds, the first packet sent ends it, or is taken into it where an
escape is pending, and all others that hold something are delivered in their
order, cut where they are longer than `SLIP_MAX_SIZE + 1`. -/
theorem output_delivered_behind (hsized : stack.Sized) (s : σ × SlipifPriv) (h : Receiving s.2)
    (p : List Pbuf) (ps : List (List Pbuf)) (hsupplied : Supplied stack s (sent (p :: ps))) :
    delivered stack s (sent (p :: ps)) =
      ((if s.2.state = .escape then [stored s.2 ++ slipEnd :: chainBytes p]
        else [stored s.2, chainBytes p].filter (· ≠ [])) ++
          (ps.map chainBytes).filter (· ≠ [])).map (·.take maxPacket) := by
  have hkept : Kept (stored s.2) (stored s.2) :=
    (List.take_of_length_le (length_stored_le h)).symm
  have hbeside : Beside Kept s ⟨s.2.state.escaped, stored s.2⟩ := ⟨h, rfl, hkept⟩
  rw [(delivered_eq hsized hsupplied hbeside).1, sent_eq, List.map_cons, Stuffing.received_behind]
  refine congrArg (List.map _) (congrArg (· ++ _) ?_)
  cases s.2.state with
  | normal =>
    have hsolids : [stored s.2, chainBytes p].filter (· ≠ []) =
        Stuffing.solids [stored s.2, chainBytes p] := rfl
    rw [if_neg (show ¬ RecvState.normal.escaped = true from Bool.false_ne_true),
      if_neg (show RecvState.normal ≠ .escape from nofun), hsolids, Stuffing.solids_cons,
      Stuffing.solids_cons]
    exact congrArg _ (List.append_nil _).symm
  | escape => rfl

/-- A pool that never runs out, with buffers of `n` bytes. -/
def fullPool (n : ℕ) : Stack Unit where
  pbufAlloc mem := (mem, some (⟨fun _ => 0, n⟩, []))
  input mem _ := mem

theorem fullPool_sized {n : ℕ} (hn : 0 < n ∧ n < 2 ^ 16) : (fullPool n).Sized := by
  rintro mem b bs halloc x hx
  cases halloc
  rw [List.mem_singleton.1 hx]
  exact hn

theorem fullPool_supplied (n : ℕ) : ∀ (s : Unit × SlipifPriv) (cs : List UInt8),
    Supplied (fullPool n) s cs := by
  intro s cs
  induction cs generalizing s with
  | nil => trivial
  | cons c cs ih => exact ⟨fun _ => rfl, ih _⟩

/-- **A packet of marks**, spread over two buffers, and one behind it. -/
theorem output_delivered_marks :
    delivered (fullPool 3) ((), slipifInit)
        (sent [[⟨fun _ => slipEnd, 2⟩, ⟨fun _ => slipEsc, 3⟩], [], [⟨fun _ => slipEscEnd, 1⟩]]) =
      [[slipEnd, slipEnd, slipEsc, slipEsc, slipEsc], [slipEscEnd]] :=
  (output_delivered (fullPool_sized ⟨by decide, by decide⟩) () _ (fullPool_supplied 3 _ _)).trans
    (by decide)

/-- **A lone escape** in front of two packets: the first is taken into what
was open, the second is delivered as it was sent. -/
theorem output_delivered_behind_escape :
    delivered (fullPool 3) ((), { slipifInit with state := .escape })
        (sent [[⟨fun _ => slipEsc, 1⟩], [⟨fun _ => slipEscEnd, 1⟩]]) =
      [[slipEnd, slipEsc], [slipEscEnd]] :=
  (output_delivered_behind (fullPool_sized ⟨by decide, by decide⟩) _
    ⟨receiving_init.1, receiving_init.2, receiving_init.3, receiving_init.4⟩ _ _
    (fullPool_supplied 3 _ _)).trans (by decide)

/-- **What is delivered was on the line**: whatever `pbuf_alloc` does,
the packets are parts of frames received, in their order, and none is
empty or too long. -/
theorem delivered_sublist (hsized : stack.Sized) (mem : σ) (cs : List UInt8) :
    List.SublistForall₂ List.Sublist (delivered stack (mem, slipifInit) cs)
        (slip.received .idle cs) ∧
      ∀ x ∈ delivered stack (mem, slipifInit) cs, x ≠ [] ∧ x.length ≤ maxPacket :=
  ⟨delivered_sublistForall₂ hsized ⟨receiving_init, rfl, List.Sublist.refl _⟩,
    fun _ hx => length_of_mem_delivered hsized receiving_init hx⟩

/-- A pool of buffers of one byte whose second call fails. -/
def failingPool : Stack ℕ where
  pbufAlloc calls := (calls + 1, if calls = 1 then none else some (⟨fun _ => 0, 1⟩, []))
  input calls _ := calls

/-- **No buffer for the second byte**: it is missing in the first packet,
and the packet behind is whole. -/
theorem delivered_sublist_failing :
    delivered failingPool (0, slipifInit) [slipEnd, 1, 2, 3, slipEnd, 4, slipEnd] = [[1, 3], [4]] ∧
      slip.received .idle [slipEnd, 1, 2, 3, slipEnd, 4, slipEnd] = [[1, 2, 3], [4]] ∧
      List.SublistForall₂ List.Sublist
        (delivered failingPool (0, slipifInit) [slipEnd, 1, 2, 3, slipEnd, 4, slipEnd])
        (slip.received .idle [slipEnd, 1, 2, 3, slipEnd, 4, slipEnd]) := by
  have hsized : failingPool.Sized := by
    intro calls b bs halloc x hx
    change (if calls = 1 then none else some _) = _ at halloc
    split_ifs at halloc
    obtain ⟨rfl, rfl⟩ := Prod.mk.inj (Option.some.inj halloc)
    rw [List.mem_singleton.1 hx]
    exact ⟨by decide, by decide⟩
  exact ⟨by decide, by decide, (delivered_sublist hsized 0 _).1⟩

end Slip

end SlipBoard
