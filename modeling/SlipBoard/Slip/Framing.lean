import SlipBoard.Common.Stuffing
import SlipBoard.Slip.Model.Output
import Mathlib.Data.List.Flatten
import Mathlib.Data.List.Forall2
import Mathlib.Algebra.Order.Ring.Nat
/-!
# SLIP — framing

What `slipif_output` puts on the line is the frame of the packet
(`slipifOutput_eq`), and what `slipif_rxbyte` takes off it are frames.
The receiver stores a packet across a chain of buffers, where `p`, `i`
and `recved` keep the place (`Receiving`), and each byte it stores goes
behind the others (`storeByte_spec`). It holds the frame it is in up to
`SLIP_MAX_SIZE + 1` bytes, and less where a buffer could not be had.
-/

namespace SlipBoard

namespace Slip

variable {σ : Type} {stack : Stack σ}

/-! ## The line -/

/-- The bytes of a buffer, -/
def Pbuf.bytes (b : Pbuf) : List UInt8 := (List.range b.len).map b.payload

/-- and of a chain. -/
def chainBytes (q : List Pbuf) : List UInt8 := q.flatMap Pbuf.bytes

@[simp] theorem length_bytes (b : Pbuf) : b.bytes.length = b.len := by simp [Pbuf.bytes]

theorem chainBytes_cons (b : Pbuf) (q : List Pbuf) :
    chainBytes (b :: q) = b.bytes ++ chainBytes q := List.flatMap_cons

theorem chainBytes_append (q q' : List Pbuf) :
    chainBytes (q ++ q') = chainBytes q ++ chainBytes q' := List.flatMap_append

/-- The four bytes of SLIP with a meaning of their own, as the constants of
the source have them. -/
def slip : Stuffing UInt8 where
  delim := slipEnd
  esc := slipEsc
  escDelim := slipEscEnd
  escEsc := slipEscEsc
  esc_ne := by decide
  escDelim_ne := by decide
  escEsc_ne := by decide
  escEsc_ne_escDelim := by decide

theorem outputByte_eq (c : UInt8) : outputByte c = ⟨slip.stuff c, some ()⟩ := by
  unfold outputByte Stuffing.stuff
  by_cases hend : c = slipEnd
  · rw [if_pos hend, if_pos (show c = slip.delim from hend)]
    rfl
  · rw [if_neg hend, if_neg (show c ≠ slip.delim from hend)]
    by_cases hesc : c = slipEsc
    · rw [if_pos hesc, if_pos (show c = slip.esc from hesc)]
      rfl
    · rw [if_neg hesc, if_neg (show c ≠ slip.esc from hesc)]
      rfl

theorem outputPbuf_eq (q : Pbuf) : ∀ left i,
    outputPbuf q left i =
      ⟨((List.range' i left).map q.payload).flatMap slip.stuff, some ()⟩ := by
  intro left
  induction left with
  | zero => exact fun _ => rfl
  | succ left ih =>
    intro i
    rw [outputPbuf, outputByte_eq, ih, Traced.mk_some_bind, List.range'_succ, List.map_cons,
      List.flatMap_cons]

theorem outputChain_eq (p : List Pbuf) :
    outputChain p = ⟨(chainBytes p).flatMap slip.stuff, some ()⟩ := by
  induction p with
  | nil => rfl
  | cons q p ih =>
    rw [outputChain, outputPbuf_eq, ih, Traced.mk_some_bind, chainBytes_cons,
      List.flatMap_append, ← List.range_eq_range']
    rfl

/-- **What `slipif_output` sends is the frame of the packet**, however
it is spread over a chain. -/
theorem slipifOutput_eq (p : List Pbuf) :
    slipifOutput p = ⟨slip.frame (chainBytes p), some errOk⟩ := by
  unfold slipifOutput
  rw [outputChain_eq]
  simp only [sioSend, Traced.emit, Traced.mk_some_bind, Stuffing.frame]
  rfl

/-! ## The chain -/

/-- `pbuf_realloc` keeps the first bytes of the chain, and drops the others. -/
theorem chainBytes_pbufRealloc : ∀ (size : ℕ) (q : List Pbuf),
    chainBytes (pbufRealloc size q) = (chainBytes q).take size := by
  intro size q
  induction q generalizing size with
  | nil => exact List.take_nil.symm
  | cons b q ih =>
    rw [pbufRealloc, chainBytes_cons, List.take_append, length_bytes]
    split_ifs with hle
    · rw [chainBytes_cons, Nat.sub_eq_zero_of_le hle, List.take_zero]
      refine congrArg (· ++ []) ?_
      rw [Pbuf.bytes, Pbuf.bytes, ← List.map_take, List.take_range, Nat.min_eq_left hle]
    · rw [chainBytes_cons, ih, List.take_of_length_le (l := b.bytes) (by rw [length_bytes]; omega)]

/-- The number of bytes in front of the place `i` of buffer `k`. -/
def offset (q : List Pbuf) (k i : ℕ) : ℕ := (chainBytes (q.take k)).length + i

/-- A byte written into a buffer. -/
def Pbuf.write (b : Pbuf) (i : ℕ) (c : UInt8) : Pbuf :=
  { b with payload := Function.update b.payload i c }

@[simp] theorem len_write (b : Pbuf) (i : ℕ) (c : UInt8) : (b.write i c).len = b.len := rfl

theorem bytes_write (b : Pbuf) (i : ℕ) (c : UInt8) : (b.write i c).bytes = b.bytes.set i c := by
  refine List.ext_getElem (by simp) fun n hn hn' => ?_
  rw [List.getElem_set]
  split_ifs with hin
  · simp [Pbuf.bytes, Pbuf.write, hin]
  · simp [Pbuf.bytes, Pbuf.write, Function.update_of_ne (Ne.symm hin)]

/-- **A write into a buffer of the chain** is one into its bytes, behind
those of the buffers in front. -/
theorem chainBytes_modify {b : Pbuf} {c : UInt8} : ∀ {q : List Pbuf} {k i : ℕ},
    q[k]? = some b → i < b.len →
      chainBytes (q.modify k (·.write i c)) = (chainBytes q).set (offset q k i) c := by
  intro q
  induction q with
  | nil => intro k i hb; cases hb
  | cons b' q ih =>
    intro k i hb hi
    cases k with
    | zero =>
      cases hb
      rw [List.modify_zero_cons, chainBytes_cons, chainBytes_cons, bytes_write,
        List.set_append_left _ _ (by simpa [offset, chainBytes] using hi)]
      simp [offset, chainBytes]
    | succ k =>
      rw [List.modify_succ_cons, chainBytes_cons, chainBytes_cons, ih hb hi,
        List.set_append_right _ _ (by simp [offset, chainBytes_cons]; omega)]
      simp only [offset, List.take_succ_cons, chainBytes_cons, List.length_append, length_bytes]
      congr 2
      omega

/-- It leaves the places of the chain where they are, -/
theorem offset_modify {i : ℕ} {c : UInt8} : ∀ (q : List Pbuf) (k j n : ℕ),
    offset (q.modify k (·.write i c)) j n = offset q j n := by
  intro q
  induction q with
  | nil => intro k j n; simp
  | cons b q ih =>
    intro k j n
    cases j with
    | zero => simp [offset]
    | succ j =>
      cases k with
      | zero => simp [offset, chainBytes_cons, Pbuf.write]
      | succ k =>
        have h := ih k j n
        simp only [offset] at h
        simp [offset, chainBytes_cons, Nat.add_assoc, h]

/-- and the buffers as long as they were. -/
theorem map_len_modify {i : ℕ} {c : UInt8} : ∀ (q : List Pbuf) (k : ℕ),
    (q.modify k (·.write i c)).map Pbuf.len = q.map Pbuf.len := by
  intro q
  induction q with
  | nil => intro k; simp
  | cons b q ih =>
    intro k
    cases k with
    | zero => rfl
    | succ k => simp [ih k]

/-- The end of a buffer is the front of the next. -/
theorem offset_succ {q : List Pbuf} {k : ℕ} {b : Pbuf} (hb : q[k]? = some b) :
    offset q (k + 1) 0 = offset q k b.len := by
  rw [offset, offset, List.take_add_one, hb, chainBytes_append]
  simp [chainBytes]

/-- A place in a chain is in front of its end. -/
theorem offset_lt {q : List Pbuf} {k i : ℕ} {b : Pbuf} (hb : q[k]? = some b) (hi : i < b.len) :
    offset q k i < (chainBytes q).length := by
  have hle : (chainBytes (q.take (k + 1))).length ≤ (chainBytes q).length := by
    conv_rhs => rw [← List.take_append_drop (k + 1) q, chainBytes_append, List.length_append]
    exact Nat.le_add_right _ _
  have hsucc := offset_succ hb
  rw [offset, offset] at hsucc
  rw [offset]
  omega

/-! ## The receiver -/

/-- What the receiver has stored of a packet: the first `recved` bytes of
its chain. -/
def stored (priv : SlipifPriv) : List UInt8 := (chainBytes priv.q).take priv.recved.toNat

/-- **The place is behind what is stored**: in a buffer with room, or,
with no buffer, at the end of a full chain. -/
structure Receiving (priv : SlipifPriv) : Prop where
  sized : ∀ b ∈ priv.q, 0 < b.len ∧ b.len < 2 ^ 16
  recved_le : priv.recved ≤ slipMaxSize + 1
  full : priv.p = none → priv.i = 0 ∧ priv.recved.toNat = (chainBytes priv.q).length
  place : ∀ k, priv.p = some k → ∃ b, priv.q[k]? = some b ∧ priv.i.toNat < b.len ∧
    priv.recved.toNat = offset priv.q k priv.i.toNat

/-- What `pbuf_alloc` gives has no empty buffer, and `len` is a `u16_t`. -/
def Stack.Sized (stack : Stack σ) : Prop :=
  ∀ mem b bs, (stack.pbufAlloc mem).2 = some (b, bs) → ∀ x ∈ b :: bs, 0 < x.len ∧ x.len < 2 ^ 16

/-- A buffer to store into, as `slipif_rxbyte` gets it: the one there is, or
a new one that is chained to the others, if the pool has one. -/
def withBuffer (stack : Stack σ) (s : σ × SlipifPriv) : σ × SlipifPriv :=
  match s.2.p with
  | some _ => s
  | none =>
    match stack.pbufAlloc s.1 with
    | (mem, none) => (mem, s.2)
    | (mem, some (b, bs)) => (mem, { s.2 with p := some s.2.q.length, q := s.2.q ++ b :: bs })

/-- A byte put into the buffer there is, and dropped where the packet is too
long already. -/
def put (priv : SlipifPriv) (c : UInt8) : SlipifPriv :=
  match priv.p with
  | none => priv
  | some p =>
    if priv.recved ≤ slipMaxSize then
      let q := priv.q.modify p (·.write priv.i.toNat c)
      let i := priv.i + 1
      if (q[p]?.map Pbuf.len).getD 0 ≤ i.toNat then
        let more := (q[p + 1]?.map Pbuf.len).getD 0 > 0
        { priv with
          q := q, recved := priv.recved + 1, i := 0, p := if more then some (p + 1) else none }
      else { priv with q := q, recved := priv.recved + 1, i := i }
    else priv

theorem storeByte_of_some (stack : Stack σ) {mem : σ} {priv : SlipifPriv} {p : ℕ} (hp : priv.p = some p)
    (c : UInt8) : storeByte stack (mem, priv) c = (mem, put priv c) := by
  simp only [storeByte, put, hp, Pbuf.write, apply_ite (Prod.mk mem)]
  rfl

theorem storeByte_eq (s : σ × SlipifPriv) (c : UInt8) :
    storeByte stack s c = ((withBuffer stack s).1, put (withBuffer stack s).2 c) := by
  obtain ⟨mem, priv⟩ := s
  cases hp : priv.p with
  | some p =>
    rw [storeByte_of_some stack hp]
    simp only [withBuffer, hp]
  | none =>
    rcases halloc : stack.pbufAlloc mem with ⟨mem', _ | ⟨b, bs⟩⟩
    · simp only [storeByte, withBuffer, put, hp, halloc]
    · simp only [withBuffer, hp, halloc]
      refine Eq.trans ?_ (storeByte_of_some stack rfl c)
      simp only [storeByte, hp, halloc]

/-- A byte is stored where there is a buffer for it and the packet is not
too long. -/
def Accepts (stack : Stack σ) (s : σ × SlipifPriv) : Prop :=
  (s.2.p = none → (stack.pbufAlloc s.1).2.isSome) ∧ s.2.recved ≤ slipMaxSize

instance (s : σ × SlipifPriv) : Decidable (Accepts stack s) :=
  inferInstanceAs (Decidable (_ ∧ _))

/-- A buffer more leaves what is stored as it is, and there is one unless
the pool has refused it. -/
theorem withBuffer_spec {s : σ × SlipifPriv} (hsized : stack.Sized) (h : Receiving s.2) :
    Receiving (withBuffer stack s).2 ∧ stored (withBuffer stack s).2 = stored s.2 ∧
      (withBuffer stack s).2.recved = s.2.recved ∧ (withBuffer stack s).2.state = s.2.state ∧
      ((withBuffer stack s).2.p.isSome ↔ (s.2.p = none → (stack.pbufAlloc s.1).2.isSome)) := by
  obtain ⟨mem, priv⟩ := s
  cases hp : priv.p with
  | some p => simpa [withBuffer, hp] using h
  | none =>
    have hi : priv.i = 0 := (h.full hp).1
    have hrecved : priv.recved.toNat = (chainBytes priv.q).length := (h.full hp).2
    rcases halloc : stack.pbufAlloc mem with ⟨mem', _ | ⟨b, bs⟩⟩
    · simpa [withBuffer, hp, halloc] using h
    · have hbuffers : ∀ x ∈ b :: bs, 0 < x.len ∧ x.len < 2 ^ 16 :=
        hsized mem b bs (by rw [halloc])
      simp only [withBuffer, hp, halloc]
      refine ⟨⟨?_, h.recved_le, fun hnone => absurd hnone (by simp), ?_⟩, ?_, by simp⟩
      · intro x hx
        rcases List.mem_append.1 hx with hx | hx
        · exact h.sized x hx
        · exact hbuffers x hx
      · rintro k hk
        cases hk
        refine ⟨b, by simp, ?_, ?_⟩
        · simpa [hi] using (hbuffers b (by simp)).1
        · simp [offset, hi, hrecved]
      · simp [stored, chainBytes_append, hrecved]

theorem toNat_add_one {n : UInt16} (h : n.toNat + 1 < 2 ^ 16) : (n + 1).toNat = n.toNat + 1 := by
  rw [UInt16.toNat_add]
  exact Nat.mod_eq_of_lt h

theorem take_succ_set {l : List UInt8} {n : ℕ} (hn : n < l.length) (c : UInt8) :
    (l.set n c).take (n + 1) = l.take n ++ [c] := by
  rw [List.take_add_one, List.take_set_of_le (Nat.le_refl n), List.getElem?_set_self hn]
  rfl

/-- Where there is a buffer and the packet is not too long. -/
theorem put_of_le {priv : SlipifPriv} {p : ℕ} {b : Pbuf} (hp : priv.p = some p)
    (hb : priv.q[p]? = some b) (hle : priv.recved ≤ slipMaxSize) (c : UInt8) :
    ∃ p' i', put priv c = { priv with
        q := priv.q.modify p (·.write priv.i.toNat c), recved := priv.recved + 1, i := i', p := p' } ∧
      (if b.len ≤ (priv.i + 1).toNat then
        i' = 0 ∧ p' = if (priv.q[p + 1]?.map Pbuf.len).getD 0 > 0 then some (p + 1) else none
      else i' = priv.i + 1 ∧ p' = some p) := by
  have hlen : ∀ k, (priv.q.modify p (·.write priv.i.toNat c))[k]?.map Pbuf.len =
      priv.q[k]?.map Pbuf.len := fun k => by
    rw [← List.getElem?_map, map_len_modify, List.getElem?_map]
  simp only [put, hp, if_pos hle, hlen, hb, Option.map_some, Option.getD_some]
  split_ifs
  · exact ⟨_, _, rfl, rfl, rfl⟩
  · exact ⟨_, _, rfl, rfl, rfl⟩
  · exact ⟨_, _, by rw [← hp], rfl, rfl⟩

/-- Behind the last buffer of a chain, -/
theorem length_chainBytes_of_last {q : List Pbuf} {k : ℕ} {b : Pbuf} (hb : q[k]? = some b)
    (hlast : q[k + 1]? = none) : (chainBytes q).length = offset q k b.len := by
  rw [← offset_succ hb, offset, List.take_of_length_le (List.getElem?_eq_none_iff.1 hlast),
    Nat.add_zero]

/-- and behind a place that is not the end of its buffer. -/
theorem offset_add_one (q : List Pbuf) (k i : ℕ) : offset q k (i + 1) = offset q k i + 1 := rfl

/-- **The place behind a byte put** is where the next one goes, in this
buffer or at the head of the next. -/
theorem receiving_put {priv : SlipifPriv} {p : ℕ} (h : Receiving priv) (hp : priv.p = some p)
    (hle : priv.recved ≤ slipMaxSize) (c : UInt8) : Receiving (put priv c) := by
  obtain ⟨b, hb, hi, hrecved⟩ := h.place p hp
  have hle' : priv.recved.toNat ≤ 1500 := UInt16.le_iff_toNat_le.1 hle
  have hi' : (priv.i + 1).toNat = priv.i.toNat + 1 :=
    toNat_add_one (by have := (h.sized b (List.mem_of_getElem? hb)).2; omega)
  have hrecved' : (priv.recved + 1).toNat = offset priv.q p (priv.i.toNat + 1) := by
    rw [toNat_add_one (by omega), hrecved, offset_add_one]
  obtain ⟨p', i', hput, hplace⟩ := put_of_le hp hb hle c
  rw [hput]
  refine ⟨fun x hx => ?_, ?_, fun hnone => ?_, fun k hk => ?_⟩
  · obtain ⟨y, hy, hlen⟩ : ∃ y ∈ priv.q, y.len = x.len := by
      rw [← List.mem_map, ← map_len_modify priv.q p (i := priv.i.toNat) (c := c)]
      exact List.mem_map_of_mem hx
    exact hlen ▸ h.sized y hy
  · refine UInt16.le_iff_toNat_le.2 ?_
    rw [hrecved', offset_add_one, ← hrecved]
    exact Nat.succ_le_succ hle'
  · change p' = none at hnone
    rw [hnone] at hplace
    split_ifs at hplace with hfull hnext
    · cases hplace.2
    · -- the last buffer of the chain is full
      have hlast : priv.q[p + 1]? = none := by
        cases hb' : priv.q[p + 1]? with
        | none => rfl
        | some b' =>
          exact absurd (h.sized b' (List.mem_of_getElem? hb')).1 (by simpa [hb'] using hnext)
      refine ⟨hplace.1, ?_⟩
      rw [hrecved', chainBytes_modify hb hi, List.length_set, length_chainBytes_of_last hb hlast,
        show b.len = priv.i.toNat + 1 by omega]
    · cases hplace.2
  · change p' = some k at hk
    rw [hk] at hplace
    simp only [offset_modify, hrecved']
    split_ifs at hplace with hfull hnext
    · -- on to the next buffer
      obtain ⟨hzero, hnext'⟩ := hplace
      cases hnext'
      cases hb' : priv.q[p + 1]? with
      | none => simp [hb'] at hnext
      | some b' =>
        refine ⟨b', ?_, ?_, ?_⟩
        · rw [List.getElem?_modify_ne _ _ (Nat.ne_of_lt (Nat.lt_succ_self p))]
          exact hb'
        · simpa [hzero, hb'] using hnext
        · rw [hzero, UInt16.toNat_zero, offset_succ hb, show b.len = priv.i.toNat + 1 by omega]
    · cases hplace.2
    · -- there is room in the buffer
      obtain ⟨hsucc, hsame⟩ := hplace
      cases hsame
      refine ⟨b.write priv.i.toNat c, ?_, ?_, ?_⟩
      · rw [List.getElem?_modify_eq, hb]
        rfl
      · rw [hsucc, len_write]
        omega
      · rw [hsucc, hi']

/-- What is stored with it: the byte is behind the others. -/
theorem stored_put {priv : SlipifPriv} {p : ℕ} (h : Receiving priv) (hp : priv.p = some p)
    (hle : priv.recved ≤ slipMaxSize) (c : UInt8) : stored (put priv c) = stored priv ++ [c] := by
  obtain ⟨b, hb, hi, hrecved⟩ := h.place p hp
  have hle' : priv.recved.toNat ≤ 1500 := UInt16.le_iff_toNat_le.1 hle
  obtain ⟨p', i', hput, -⟩ := put_of_le hp hb hle c
  rw [hput, stored, stored, toNat_add_one (by omega), chainBytes_modify hb hi, ← hrecved,
    take_succ_set (hrecved ▸ offset_lt hb hi)]

/-- **A byte stored** is behind the others, where there is a buffer for it
and the packet is not too long; else it is dropped. -/
theorem storeByte_spec {s : σ × SlipifPriv} (hsized : stack.Sized) (h : Receiving s.2)
    (c : UInt8) :
    Receiving (storeByte stack s c).2 ∧ (storeByte stack s c).2.state = s.2.state ∧
      stored (storeByte stack s c).2 =
        if Accepts stack s then stored s.2 ++ [c] else stored s.2 := by
  obtain ⟨hreceiving, hstored, hrecved, hstate, hbuffer⟩ := withBuffer_spec hsized h
  rw [storeByte_eq, ← hstored, ← hstate]
  simp only [Accepts, ← hbuffer, ← hrecved]
  cases hp : (withBuffer stack s).2.p with
  | none => simpa [put, hp] using hreceiving
  | some p =>
    by_cases hle : (withBuffer stack s).2.recved ≤ slipMaxSize
    · rw [if_pos ⟨rfl, hle⟩]
      obtain ⟨b, hb, -⟩ := hreceiving.place p hp
      obtain ⟨p', i', hput, -⟩ := put_of_le hp hb hle c
      exact ⟨receiving_put hreceiving hp hle c, by rw [hput], stored_put hreceiving hp hle c⟩
    · simpa [put, hp, hle] using hreceiving

end Slip

end SlipBoard
