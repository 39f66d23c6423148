import SlipBoard.Common.RingBuffer
import SlipBoard.Common.Transition
import SlipBoard.Microrl.Model.History
/-!
# Line editor — the history is a bounded log

`At` says that the ring spells a list of records from a cell on, and
`Holds` that it spells the lines held from `begin` on. The loops of the
code are walks over that list: the count, the search and the eviction
each step from one record to the next (`At.cons`), and the stores of a
save append one (`histSaveLine_spec`). What is held is then the longest
suffix of the saved lines that fits (`Longest`), and the two directions
of `hist_restore_line` are an index into it (`Log.restore`).
-/

namespace SlipBoard

namespace Microrl

open RingBuffer Transition

variable {buf : Block ringHistoryLen} {h : RingHistory} {held rest : List (List UInt8)}
variable {text : List UInt8} {p : ℕ}

/-! ## Records -/

/-- The cells that a list of lines takes in the ring: each its characters
and one for its length. -/
def cost (held : List (List UInt8)) : ℕ := (held.map fun l => l.length + 1).sum

/-- The records of a list of lines, one behind the other, each with its
length in front. -/
def encode (held : List (List UInt8)) : List UInt8 :=
  held.flatMap fun l => UInt8.ofNat l.length :: l

/-- Lines that a save accepts: none is empty, and each fits the ring with
its length and one cell to spare. -/
def Sound (held : List (List UInt8)) : Prop :=
  ∀ l ∈ held, l ≠ [] ∧ l.length ≤ 62

@[simp] theorem cost_nil : cost [] = 0 := rfl

@[simp] theorem cost_cons : cost (text :: rest) = text.length + 1 + cost rest := rfl

@[simp] theorem cost_append (a b : List (List UInt8)) : cost (a ++ b) = cost a + cost b := by
  simp [cost]

@[simp] theorem encode_nil : encode [] = [] := rfl

@[simp] theorem encode_cons :
    encode (text :: rest) = UInt8.ofNat text.length :: (text ++ encode rest) := rfl

@[simp] theorem encode_append (a b : List (List UInt8)) :
    encode (a ++ b) = encode a ++ encode b := by
  simp [encode]

theorem length_le_cost (held : List (List UInt8)) : held.length ≤ cost held := by
  induction held with
  | nil => exact Nat.le_refl 0
  | cons l held ih =>
    rw [List.length_cons, cost_cons]
    omega

theorem Sound.tail (hs : Sound (text :: rest)) : Sound rest :=
  fun l hl => hs l (List.mem_cons_of_mem _ hl)

theorem Sound.drop (hs : Sound held) (j : ℕ) : Sound (held.drop j) :=
  fun l hl => hs l (List.mem_of_mem_drop hl)

/-- A header byte reads as the length of its line, which is not zero. -/
theorem Sound.header (hs : Sound (text :: rest)) :
    (UInt8.ofNat text.length).toNat = text.length ∧ UInt8.ofNat text.length ≠ 0 := by
  obtain ⟨hne, hle⟩ := hs text (by simp)
  have hpos : 0 < text.length := List.length_pos_iff.2 hne
  have hnat : (UInt8.ofNat text.length).toNat = text.length := by
    rw [UInt8.toNat_ofNat']
    exact Nat.mod_eq_of_lt (by omega)
  refine ⟨hnat, fun h0 => ?_⟩
  rw [h0] at hnat
  exact absurd hnat.symm (Nat.ne_of_gt hpos)

theorem wrapHistory_eq_mod (hp : p < 128) : wrapHistory p = p % 64 := by
  simp only [wrapHistory, ringHistoryLen]
  split <;> omega

/-! ## The ring spells the records -/

/-- From cell `p` on the ring spells `rest` and the terminator. -/
structure At (buf : Block ringHistoryLen) (p : ℕ) (rest : List (List UInt8)) : Prop where
  lt : p < 64
  window : window buf.byte 64 p (cost rest + 1) = encode rest ++ [0]

/-- The terminator. -/
theorem At.nil (hat : At buf p []) : buf.load p = some 0 := by
  have hw := hat.window
  rw [cost_nil, window_succ, window_zero] at hw
  rw [Block.load_of_lt hat.lt]
  simpa [Nat.mod_eq_of_lt hat.lt] using hw

/-- **A record**: its header, its text, and the records behind it, each
found where the length of the one in front leads. -/
theorem At.cons (hs : Sound (text :: rest)) (hat : At buf p (text :: rest)) :
    buf.load p = some (UInt8.ofNat text.length) ∧
      RingBuffer.window buf.byte 64 (p + 1) text.length = text ∧
      At buf (wrapHistory (p + text.length + 1)) rest := by
  have hle := (hs text (by simp)).2
  have hlt := hat.lt
  have hw := hat.window
  -- the cells in the order header, text, records behind
  rw [cost_cons, show text.length + 1 + cost rest + 1 = 1 + text.length + (cost rest + 1) by omega,
    window_add, window_add, encode_cons] at hw
  have hlist : UInt8.ofNat text.length :: (text ++ encode rest) ++ [0] =
      [UInt8.ofNat text.length] ++ text ++ (encode rest ++ [0]) := by simp
  obtain ⟨hfront, hrest⟩ := List.append_inj (hw.trans hlist) (by simp; omega)
  obtain ⟨hhead, htext⟩ := List.append_inj hfront (by simp)
  refine ⟨?_, htext, ?_, ?_⟩
  · rw [window_succ, window_zero, List.nil_append, Nat.add_zero, Nat.mod_eq_of_lt hlt] at hhead
    rw [Block.load_of_lt hlt, List.cons.inj hhead |>.1]
  · rw [wrapHistory_eq_mod (by omega)]
    exact Nat.mod_lt _ (by omega)
  · rw [wrapHistory_eq_mod (by omega), window_mod, ← hrest]
    congr 1
    omega

/-! ## The loops walk over the records -/

theorem countRecords_eq (hs : Sound rest) (hat : At buf p rest) {fuel cnt : ℕ}
    (hfuel : rest.length < fuel) :
    countRecords buf fuel p cnt = some (cnt + rest.length) := by
  induction rest generalizing p fuel cnt with
  | nil =>
    obtain ⟨fuel, rfl⟩ : ∃ f, fuel = f + 1 := ⟨fuel - 1, by omega⟩
    simp [countRecords, hat.nil]
  | cons text rest ih =>
    obtain ⟨fuel, rfl⟩ : ∃ f, fuel = f + 1 := ⟨fuel - 1, by omega⟩
    obtain ⟨hload, -, hnext⟩ := hat.cons hs
    obtain ⟨hnat, hne⟩ := hs.header
    rw [List.length_cons] at hfuel
    simp only [countRecords, hload, Option.bind_eq_bind, Option.bind_some, hne, ne_eq,
      not_false_eq_true, if_true, hnat]
    rw [ih hs.tail hnext (by omega), List.length_cons]
    congr 1
    omega

/-- The walk stops at the record it looks for, or at the terminator. -/
theorem findRecord_eq {found : ℕ → Bool} (hs : Sound rest) (hat : At buf p rest) {fuel j t : ℕ}
    (hfuel : rest.length < fuel) (hbefore : ∀ i, i < t → found (j + i) = false)
    (hat' : t < rest.length → found (j + t) = true) (ht : t ≤ rest.length) :
    ∃ p', findRecord buf found fuel p j = some p' ∧ At buf p' (rest.drop t) := by
  induction rest generalizing p fuel j t with
  | nil =>
    obtain ⟨fuel, rfl⟩ : ∃ f, fuel = f + 1 := ⟨fuel - 1, by omega⟩
    exact ⟨p, by simp [findRecord, hat.nil], by simpa using hat⟩
  | cons text rest ih =>
    obtain ⟨fuel, rfl⟩ : ∃ f, fuel = f + 1 := ⟨fuel - 1, by omega⟩
    obtain ⟨hload, -, hnext⟩ := hat.cons hs
    obtain ⟨hnat, hne⟩ := hs.header
    rw [List.length_cons] at hfuel ht hat'
    -- the walk stops here, or goes on with one record less
    by_cases hzero : t = 0
    · subst hzero
      have hfound : found j = true := hat' (by omega)
      exact ⟨p, by simp [findRecord, hload, hfound], hat⟩
    · obtain ⟨t, rfl⟩ : ∃ k, t = k + 1 := ⟨t - 1, by omega⟩
      have hfound : found j = false := hbefore 0 (by omega)
      simp only [findRecord, hload, Option.bind_eq_bind, Option.bind_some, hne, ne_eq,
        not_false_eq_true, hfound, Bool.not_false, and_self, if_true, hnat]
      refine ih hs.tail hnext (by omega) (fun i hi => ?_) (fun hlt => ?_) (by omega)
      · rw [Nat.add_assoc, Nat.add_comm 1 i]
        exact hbefore (i + 1) (by omega)
      · rw [Nat.add_assoc, Nat.add_comm 1 t]
        exact hat' (by omega)

/-- A window that does not wrap is a slice. -/
theorem window_eq_slice {len : ℕ} (hp : p + len ≤ 64) :
    RingBuffer.window buf.byte 64 p len = buf.slice p len :=
  List.map_congr_left fun k hk => by
    rw [Nat.mod_eq_of_lt (by have := List.mem_range.1 hk; omega)]

/-- The text of a record, copied to the front of the line. -/
theorem histLoadText_cons (hs : Sound (text :: rest)) (hat : At buf p (text :: rest))
    (line : Block commandLineLen) :
    histLoadText buf p line = some (line.overwrite 0 text) := by
  obtain ⟨hload, htext, -⟩ := hat.cons hs
  obtain ⟨hnat, -⟩ := hs.header
  have hle := (hs text (by simp)).2
  have hlt := hat.lt
  have hfit : text.length ≤ commandLineLen := by
    rw [commandLineLen]
    omega
  simp only [histLoadText, hload, Option.bind_eq_bind, Option.bind_some, hnat, ringHistoryLen]
  split
  · rw [Block.read_of_le (by omega), ← window_eq_slice (by omega), htext, Option.bind_some,
      Block.write_of_le (by omega)]
  · -- the text goes on at cell 0
    have hwrap : window buf.byte 64 0 (text.length - (64 - p - 1)) =
        window buf.byte 64 (p + 1 + (64 - p - 1)) (text.length - (64 - p - 1)) := by
      rw [show p + 1 + (64 - p - 1) = 64 by omega]
      exact (window_mod : window buf.byte 64 (64 % 64) _ = _)
    have hsplit : buf.slice (p + 1) (64 - p - 1) ++ buf.slice 0 (text.length - (64 - p - 1)) =
        text := by
      rw [← window_eq_slice (by omega), ← window_eq_slice (by omega), hwrap, ← window_add,
        Nat.add_sub_cancel' (by omega), htext]
    rw [Block.read_of_le (by omega), Option.bind_some, Block.write_of_le (by simp; omega),
      Option.bind_some, Block.read_of_le (by omega), Option.bind_some,
      Block.write_of_le (by simp; omega), Block.overwrite_overwrite (by simp), hsplit]

theorem histLoadText_nil (hat : At buf p []) (line : Block commandLineLen) :
    histLoadText buf p line = some line := by
  have hlt := hat.lt
  simp only [histLoadText, hat.nil, Option.bind_eq_bind, Option.bind_some, ringHistoryLen,
    UInt8.toNat_zero, Nat.zero_add, hlt, if_true]
  rw [Block.read_of_le (by omega), Option.bind_some, Block.slice_zero,
    Block.write_of_le (Nat.zero_le _), Block.overwrite_nil]

/-! ## The ring holds a list of lines -/

/-- **The ring holds `held`**, oldest first, and its indices stand at
the two ends. -/
structure Holds (h : RingHistory) (held : List (List UInt8)) : Prop where
  sound : Sound held
  at_begin : At h.ringBuf h.begin held
  cost_le : cost held ≤ 63
  end_eq : h.end = (h.begin + cost held) % 64

theorem Holds.init : Holds RingHistory.init [] := by
  refine ⟨fun l hl => (by cases hl), ⟨?_, ?_⟩, ?_, ?_⟩
  · decide
  · rfl
  · decide
  · rfl

theorem Holds.length_lt (hh : Holds h held) : held.length < ringHistoryLen := by
  have hle := length_le_cost held
  have hcost := hh.cost_le
  rw [ringHistoryLen]
  omega

theorem Holds.with_cur (hh : Holds h held) (cur : ℕ) : Holds { h with cur := cur } held :=
  ⟨hh.sound, hh.at_begin, hh.cost_le, hh.end_eq⟩

/-- The test for space: the records held leave `len + 1` of the 63 cells
they may take. -/
theorem histIsSpaceForNew_eq (hh : Holds h held) {len : ℕ} (hlen : len ≤ 62) :
    histIsSpaceForNew h len = some (decide (cost held + len + 1 ≤ 63)) := by
  obtain ⟨hs, hat, hcost, hend⟩ := hh
  have hlt := hat.lt
  cases held with
  | nil =>
    rw [cost_nil]
    simp only [histIsSpaceForNew, hat.nil, Option.bind_eq_bind, Option.bind_some, if_true,
      Option.pure_def, Option.some.injEq]
    exact (decide_eq_true (by omega)).symm
  | cons text rest =>
    obtain ⟨hload, -, -⟩ := hat.cons hs
    obtain ⟨-, hne⟩ := hs.header
    have hpos : 0 < cost (text :: rest) := by
      rw [cost_cons]
      omega
    simp only [histIsSpaceForNew, hload, Option.bind_eq_bind, Option.bind_some, hne, if_false,
      Option.pure_def, ringHistoryLen]
    -- the records wrap where `end` stands in front of `begin`
    by_cases hge : h.end ≥ h.begin
    · rw [if_pos hge, Option.some.injEq, decide_eq_decide]
      omega
    · rw [if_neg hge, Option.some.injEq, decide_eq_decide]
      omega

/-- The eviction drops the oldest line, and keeps the others with their
order. -/
theorem histEraseOlder_eq (hh : Holds h (text :: rest)) :
    ∃ h', histEraseOlder h = some h' ∧ Holds h' rest := by
  obtain ⟨hs, hat, hcost, hend⟩ := hh
  obtain ⟨hload, -, hnext⟩ := hat.cons hs
  obtain ⟨hnat, -⟩ := hs.header
  have hlt := hat.lt
  rw [cost_cons] at hcost hend
  refine ⟨{ h with begin := wrapHistory (h.begin + text.length + 1) }, ?_, hs.tail, hnext,
    by omega, ?_⟩
  · simp only [histEraseOlder, hload, Option.bind_eq_bind, Option.bind_some, hnat]
    rfl
  · show h.end = (wrapHistory (h.begin + text.length + 1) + cost rest) % 64
    rw [hend, wrapHistory_eq_mod (by omega), Nat.mod_add_mod]
    congr 1
    omega

/-- The loop evicts the fewest lines that make space. -/
theorem histMakeSpace_eq (hh : Holds h held) {len fuel : ℕ} (hlen : len ≤ 62)
    (hfuel : held.length < fuel) :
    ∃ h' j, histMakeSpace len fuel h = some h' ∧ Holds h' (held.drop j) ∧
      cost (held.drop j) + len + 1 ≤ 63 ∧ ∀ i, i < j → 63 < cost (held.drop i) + len + 1 := by
  induction held generalizing h fuel with
  | nil =>
    obtain ⟨fuel, rfl⟩ : ∃ f, fuel = f + 1 := ⟨fuel - 1, by omega⟩
    refine ⟨h, 0, ?_, hh, by simp; omega, fun i hi => absurd hi (Nat.not_lt_zero i)⟩
    simp only [histMakeSpace, histIsSpaceForNew_eq hh hlen, Option.bind_eq_bind, Option.bind_some]
    rw [if_pos (decide_eq_true (by simp; omega))]
    rfl
  | cons text rest ih =>
    obtain ⟨fuel, rfl⟩ : ∃ f, fuel = f + 1 := ⟨fuel - 1, by omega⟩
    by_cases hspace : cost (text :: rest) + len + 1 ≤ 63
    · refine ⟨h, 0, ?_, hh, hspace, fun i hi => absurd hi (Nat.not_lt_zero i)⟩
      simp only [histMakeSpace, histIsSpaceForNew_eq hh hlen, Option.bind_eq_bind, Option.bind_some]
      rw [if_pos (decide_eq_true hspace)]
      rfl
    · obtain ⟨h₁, herase, hh₁⟩ := histEraseOlder_eq hh
      rw [List.length_cons] at hfuel
      obtain ⟨h', j, hmake, hh', hfit, hmin⟩ := ih hh₁ (show rest.length < fuel by omega)
      refine ⟨h', j + 1, ?_, hh', hfit, fun i hi => ?_⟩
      · simp only [histMakeSpace, histIsSpaceForNew_eq hh hlen, hspace, decide_false,
          Option.bind_eq_bind, Option.bind_some, Bool.false_eq_true, if_false, herase]
        exact hmake
      · cases i with
        | zero => exact Nat.lt_of_not_le hspace
        | succ i => exact hmin i (by omega)

/-! ## A save appends a record -/

/-- The text of a new record goes behind its header and nowhere else. -/
theorem histStoreText_eq (buf : Block ringHistoryLen) {n len : ℕ} (line : Block n) (hp : p < 64)
    (hlen : len ≤ 62) (hn : len ≤ n) :
    ∃ buf', histStoreText buf p line len = some buf' ∧
      (∀ i, i < len → buf'.byte ((p + 1 + i) % 64) = line.byte i) ∧
      ∀ i, len ≤ i → i < 64 → buf'.byte ((p + 1 + i) % 64) = buf.byte ((p + 1 + i) % 64) := by
  simp only [histStoreText, ringHistoryLen, Option.bind_eq_bind]
  -- the text fits in front of the end of the ring, or goes on at cell 0
  split
  · rw [Block.read_of_le (by omega), Option.bind_some, Block.write_of_le (by simp; omega)]
    refine ⟨_, rfl, fun i hi => ?_, fun i hi hlt => ?_⟩
    · rw [Nat.mod_eq_of_lt (by omega), Block.byte_overwrite, if_pos (by simp; omega),
        Block.getD_slice (by omega)]
      congr 1
      omega
    · rw [Block.byte_overwrite, if_neg (by simp; omega)]
  · rw [Block.read_of_le (by omega), Option.bind_some, Block.write_of_le (by simp; omega),
      Option.bind_some, Block.read_of_le (by omega), Option.bind_some,
      Block.write_of_le (by simp; omega)]
    refine ⟨_, rfl, fun i hi => ?_, fun i hi hlt => ?_⟩
    · by_cases hfirst : i < 64 - p - 1
      · rw [Nat.mod_eq_of_lt (by omega), Block.byte_overwrite, if_neg (by simp; omega),
          Block.byte_overwrite, if_pos (by simp; omega), Block.getD_slice (by omega)]
        congr 1
        omega
      · have hmod : (p + 1 + i) % 64 = i - (64 - p - 1) := by omega
        rw [hmod, Block.byte_overwrite, if_pos (by simp; omega), Block.getD_slice (by omega)]
        congr 1
        omega
    · rw [Block.byte_overwrite, if_neg (by simp; omega), Block.byte_overwrite,
        if_neg (by simp; omega)]

/-- The cells a record occupies, and those in front of it. -/
theorem Holds.push (hh : Holds h held) (buf : Block ringHistoryLen) (cur : ℕ)
    {len : ℕ} (hlen : text.length = len) (hpos : 0 < len) (hfit : cost held + len + 1 ≤ 63)
    (hold : ∀ k, k < cost held → buf.byte ((h.begin + k) % 64) = h.ringBuf.byte ((h.begin + k) % 64))
    (hhead : buf.byte ((h.begin + cost held) % 64) = UInt8.ofNat len)
    (htext : window buf.byte 64 (h.begin + cost held + 1) len = text)
    (hzero : buf.byte ((h.begin + (cost held + len + 1)) % 64) = 0) :
    Holds ⟨buf, h.begin, (h.begin + (cost held + len + 1)) % 64, cur⟩ (held ++ [text]) := by
  subst hlen
  obtain ⟨hs, hat, hcost, hend⟩ := hh
  have hw := hat.window
  rw [window_succ] at hw
  have hwold := List.append_inj' hw rfl |>.1
  refine ⟨?_, ⟨hat.lt, ?_⟩, ?_, ?_⟩
  · intro l hl
    rcases List.mem_append.1 hl with hl | hl
    · exact hs l hl
    · rw [List.mem_singleton.1 hl]
      exact ⟨List.ne_nil_of_length_pos hpos, by omega⟩
  -- the old records, the header, the text and the new terminator, cell by cell
  · show window buf.byte 64 h.begin (cost (held ++ [text]) + 1) = encode (held ++ [text]) ++ [0]
    have hsum : cost (held ++ [text]) = cost held + 1 + text.length := by
      simp
      omega
    rw [hsum, window_succ, window_add, window_succ, ← Nat.add_assoc, htext, hhead,
      window_congr hold, hwold, show h.begin + (cost held + 1 + text.length) =
        h.begin + (cost held + text.length + 1) by omega, hzero]
    simp
  · simp
    omega
  · simp [Nat.add_assoc]

/-- The header of a first line is stored before its text as well. -/
theorem histStoreFirst_eq (hh : Holds h held) (len : ℕ) :
    ∃ buf, histStoreFirst h len = some buf ∧ ∀ k, k < cost held →
        buf.byte ((h.begin + k) % 64) = h.ringBuf.byte ((h.begin + k) % 64) := by
  -- only an empty ring has a zero at `begin`
  cases held with
  | nil =>
    refine ⟨h.ringBuf.set h.begin (UInt8.ofNat len), ?_, fun k hk => absurd hk (Nat.not_lt_zero k)⟩
    simp only [histStoreFirst, hh.at_begin.nil, Option.bind_eq_bind, Option.bind_some, if_true,
      Block.store_of_lt hh.at_begin.lt]
  | cons l rest =>
    refine ⟨h.ringBuf, ?_, fun k _ => rfl⟩
    simp only [histStoreFirst, (hh.at_begin.cons hh.sound).1, Option.bind_eq_bind, Option.bind_some,
      hh.sound.header.2, if_false, Option.pure_def]

/-- **A save** evicts the fewest of the oldest lines and appends the new
one; the history is then read from its end. -/
theorem histSaveLine_eq (hh : Holds h held) {n len : ℕ} (line : Block n) (hpos : 0 < len)
    (hlen : len ≤ 62) (hn : len ≤ n) :
    ∃ h' j, histSaveLine h line len = some h' ∧ h'.cur = 0 ∧
      Holds h' (held.drop j ++ [line.slice 0 len]) ∧
      cost (held.drop j) + len + 1 ≤ 63 ∧ ∀ i, i < j → 63 < cost (held.drop i) + len + 1 := by
  obtain ⟨h₁, j, hmake, hh₁, hfit, hmin⟩ := histMakeSpace_eq hh hlen hh.length_lt
  have hend := hh₁.end_eq
  have he : h₁.end < 64 := by omega
  have hpos' : wrapHistory (h₁.end + len + 1) = (h₁.begin + (cost (held.drop j) + len + 1)) % 64 := by
    rw [wrapHistory_eq_mod (by omega)]
    omega
  obtain ⟨buf₁, hbuf₁, hold₁⟩ := histStoreFirst_eq hh₁ len
  obtain ⟨buf₂, hbuf₂, htext₂, hold₂⟩ := histStoreText_eq buf₁ line he hlen hn
  have hp : wrapHistory (h₁.end + len + 1) < 64 := by omega
  refine ⟨⟨(buf₂.set h₁.end (UInt8.ofNat len)).set (wrapHistory (h₁.end + len + 1)) 0, h₁.begin,
    wrapHistory (h₁.end + len + 1), 0⟩, j, ?_, rfl, ?_, hfit, hmin⟩
  · rw [histSaveLine, if_neg (by rw [ringHistoryLen]; omega)]
    simp only [hmake, hbuf₁, hbuf₂, Option.bind_eq_bind, Option.bind_some, Block.store_of_lt he,
      Block.store_of_lt hp]
    rfl
  · have hlen' : (line.slice 0 len).length = len := Block.length_slice
    rw [hpos']
    refine hh₁.push _ 0 hlen' hpos hfit (fun k hk => ?_) ?_ ?_ ?_
    · -- an old cell lies past the new text, counted on from the header
      have hidx : (h₁.begin + k) % 64 = (h₁.end + 1 + (k + 63 - cost (held.drop j))) % 64 := by omega
      rw [Block.byte_set, if_neg (by omega), Block.byte_set, if_neg (by omega), hidx,
        hold₂ _ (by omega) (by omega), ← hidx, hold₁ k hk]
    · rw [Block.byte_set, if_neg (by omega), Block.byte_set, if_pos hend.symm]
    · refine window_eq_of_length hlen' fun k hk => ?_
      have hk' : k < len := by rwa [hlen'] at hk
      have hidx : (h₁.begin + cost (held.drop j) + 1 + k) % 64 = (h₁.end + 1 + k) % 64 := by omega
      rw [Block.byte_set, if_neg (by omega), Block.byte_set, if_neg (by omega), hidx,
        htext₂ k hk', Block.getElem_slice, Nat.zero_add]
    · rw [Block.byte_set, if_pos rfl]

/-! ## What is held -/

/-- The longest suffix of `ls` whose records fit in 63 cells. -/
structure Longest (held ls : List (List UInt8)) : Prop where
  suffix : held <:+ ls
  cost_le : cost held ≤ 63
  longest : ∀ s, s <:+ ls → cost s ≤ 63 → s <:+ held

theorem Longest.nil : Longest [] [] :=
  ⟨List.suffix_refl [], by decide, fun _ hs _ => hs⟩

/-- Evicting the fewest lines that make space for the next one keeps the
suffix the longest. -/
theorem Longest.push {ls : List (List UInt8)} {j : ℕ} (hl : Longest held ls)
    (hfit : cost (held.drop j) + text.length + 1 ≤ 63)
    (hmin : ∀ i, i < j → 63 < cost (held.drop i) + text.length + 1) :
    Longest (held.drop j ++ [text]) (ls ++ [text]) := by
  refine ⟨List.suffix_append_self_iff.2 ((List.drop_suffix j held).trans hl.suffix),
    by simp; omega, fun s hs hcost => ?_⟩
  rcases List.suffix_concat_iff.1 hs with rfl | ⟨t, rfl, ht⟩
  · exact List.nil_suffix
  · rw [cost_append, cost_cons, cost_nil] at hcost
    have hheld := hl.longest t ht (by omega)
    rw [List.suffix_iff_eq_drop] at hheld
    -- a longer suffix would have kept a line the eviction had to drop
    by_cases hj : j ≤ held.length - t.length
    · rw [List.suffix_append_self_iff, hheld]
      exact List.drop_suffix_drop_left held hj
    · have hmin := hmin (held.length - t.length) (by omega)
      rw [← hheld] at hmin
      omega

/-- `hist_save_line` as a step. The line is the front of an array. -/
def saveStep (h : RingHistory) (s : Block commandLineLen × ℕ) : Option RingHistory :=
  histSaveLine h s.1 s.2

/-- The saved lines that a ring of 64 cells can hold. -/
def savedLines (saves : List (Block commandLineLen × ℕ)) : List (List UInt8) :=
  (saves.map fun s => s.1.slice 0 s.2).filter fun l => l.length ≤ ringHistoryLen - 2

theorem savedLines_cons (s : Block commandLineLen × ℕ) (saves : List (Block commandLineLen × ℕ)) :
    savedLines (s :: saves) =
      if s.2 ≤ 62 then s.1.slice 0 s.2 :: savedLines saves else savedLines saves := by
  simp only [savedLines, List.map_cons, List.filter_cons, Block.length_slice, ringHistoryLen,
    decide_eq_true_eq]

/-- **The ring after any sequence of saves** holds the longest suffix of
the lines that fits. -/
theorem run_saveStep {saves : List (Block commandLineLen × ℕ)}
    (hlen : ∀ s ∈ saves, 1 ≤ s.2 ∧ s.2 ≤ 100) {ls : List (List UInt8)} (hh : Holds h held)
    (hl : Longest held ls) (hcur : h.cur = 0) :
    ∃ h' held', run saveStep h saves = some h' ∧ Holds h' held' ∧
      Longest held' (ls ++ savedLines saves) ∧ h'.cur = 0 := by
  induction saves generalizing h held ls with
  | nil => exact ⟨h, held, rfl, hh, by simpa [savedLines] using hl, hcur⟩
  | cons s saves ih =>
    have hrest : ∀ t ∈ saves, 1 ≤ t.2 ∧ t.2 ≤ 100 := fun t ht => hlen t (List.mem_cons_of_mem _ ht)
    obtain ⟨hpos, hle⟩ := hlen s (by simp)
    by_cases hskip : s.2 ≤ 62
    · obtain ⟨h₁, j, hsave, hcur₁, hh₁, hfit, hmin⟩ := histSaveLine_eq hh s.1 hpos hskip
        (hle.trans (by decide))
      have hlen : (s.1.slice 0 s.2).length = s.2 := Block.length_slice
      rw [← hlen] at hfit hmin
      obtain ⟨h', held', hrun, hh', hl', hcur'⟩ := ih hrest hh₁ (hl.push hfit hmin) hcur₁
      refine ⟨h', held', run_cons.2 ⟨h₁, hsave, hrun⟩, hh', ?_, hcur'⟩
      rw [savedLines_cons, if_pos hskip]
      simpa using hl'
    · -- the line is longer than the ring admits
      have hsave : saveStep h s = some h := if_pos (by rw [ringHistoryLen]; omega)
      obtain ⟨h', held', hrun, hh', hl', hcur'⟩ := ih hrest hh hl hcur
      refine ⟨h', held', run_cons.2 ⟨h, hsave, hrun⟩, hh', ?_, hcur'⟩
      rwa [savedLines_cons, if_neg hskip]

/-! ## What is restored -/

/-- The `k`-th most recent line, and the empty line for `k = 0`. -/
def recent (held : List (List UInt8)) (k : ℕ) : List UInt8 := held.getD (held.length - k) []

/-- **The log**: a key moves an index into the lines held, and answers
the line there; `none` where Up finds no older one. -/
def Log.restore (held : List (List UInt8)) (cur : ℕ) : Dir → ℕ × Option (List UInt8)
  | .up => if cur < held.length then (cur + 1, some (recent held (cur + 1))) else (cur, none)
  | .down => (cur - 1, some (recent held (cur - 1)))

/-- What a restore leaves in the line and returns: the text, in front of
zeros or of what was there, and its length; or the line as it was
and −1. -/
def Restored (line line' : Block commandLineLen) (ret : Option ℕ) : Option (List UInt8) → Prop
  | some text => ret = some text.length ∧ line'.slice 0 text.length = text ∧
      ∀ k, text.length ≤ k → line'.byte k = 0 ∨ line'.byte k = line.byte k
  | none => ret = none ∧ line' = line

/-- A line restored is a line held, or the empty one. -/
theorem recent_eq_nil_or_mem (held : List (List UInt8)) (k : ℕ) :
    recent held k = [] ∨ recent held k ∈ held := by
  rw [recent, List.getD_eq_getElem?_getD]
  by_cases hlt : held.length - k < held.length
  · rw [List.getElem?_eq_getElem hlt, Option.getD_some]
    exact Or.inr (List.getElem_mem hlt)
  · rw [List.getElem?_eq_none (by omega), Option.getD_none]
    exact Or.inl rfl

theorem Sound.length_recent (hs : Sound held) (k : ℕ) : (recent held k).length ≤ 62 := by
  rcases recent_eq_nil_or_mem held k with hnil | hmem
  · rw [hnil]
    exact Nat.zero_le 62
  · exact (hs _ hmem).2

/-- Past the text, an array overwritten at its front is what it was. -/
theorem byte_overwrite_front {n k : ℕ} {line : Block n} {text : List UInt8}
    (hk : text.length ≤ k) : (line.overwrite 0 text).byte k = line.byte k := by
  rw [Block.byte_overwrite, if_neg (by omega)]

theorem byte_clear (line : Block commandLineLen) (k : ℕ) :
    (line.overwrite 0 (List.replicate commandLineLen 0)).byte k = 0 ∨
      (line.overwrite 0 (List.replicate commandLineLen 0)).byte k = line.byte k := by
  rw [Block.byte_overwrite]
  split
  · exact Or.inl (by simp [List.getElem?_replicate]; split <;> rfl)
  · exact Or.inr rfl

/-- The search finds the record of the `k`-th most recent line, where its
test tells that line from the others. -/
theorem Holds.find (hh : Holds h held) (found : ℕ → Bool) {k : ℕ} (hk : k ≤ held.length)
    (hfound : ∀ j, j < held.length → found j = decide (held.length = k + j)) :
    ∃ p, findRecord h.ringBuf found ringHistoryLen h.begin 0 = some p ∧
      At h.ringBuf p (held.drop (held.length - k)) := by
  refine findRecord_eq hh.sound hh.at_begin hh.length_lt (fun i hi => ?_) (fun hlt => ?_) (by omega)
  · rw [hfound _ (by omega)]
    exact decide_eq_false (by omega)
  · rw [hfound _ (by omega)]
    exact decide_eq_true (by omega)

theorem drop_recent {k : ℕ} (hpos : 0 < k) (hk : k ≤ held.length) :
    held.drop (held.length - k) = recent held k :: held.drop (held.length - k + 1) := by
  rw [List.drop_eq_getElem_cons (by omega), recent, List.getD_eq_getElem?_getD,
    List.getElem?_eq_getElem (by omega), Option.getD_some]

/-- The records are as many as the lines of the log. -/
theorem Holds.countRecords (hh : Holds h held) :
    countRecords h.ringBuf ringHistoryLen h.begin 0 = some held.length := by
  rw [countRecords_eq hh.sound hh.at_begin hh.length_lt, Nat.zero_add]

/-- A restore of an older line: the line and the index are those the log
says. -/
theorem histRestoreLine_up (hh : Holds h held) (hcur : h.cur ≤ held.length)
    (line : Block commandLineLen) :
    ∃ line' ret, histRestoreLine h line .up =
        some ({ h with cur := (Log.restore held h.cur .up).1 }, line', ret) ∧
      Restored line line' ret (Log.restore held h.cur .up).2 := by
  simp only [histRestoreLine, hh.countRecords, Option.bind_eq_bind, Option.bind_some, hcur, ge_iff_le,
    if_true, Log.restore]
  by_cases hlt : h.cur < held.length
  · obtain ⟨p, hfind, hat⟩ := hh.find (k := h.cur + 1)
      (fun j => decide (held.length = h.cur + j + 1)) (by omega)
      (fun j _ => by rw [decide_eq_decide]; omega)
    have hs := hh.sound.drop (held.length - (h.cur + 1))
    rw [drop_recent (by omega) (by omega)] at hat hs
    have hclear : clearLine line = some (line.overwrite 0 (List.replicate commandLineLen 0)) :=
      Block.write_of_le (by simp)
    refine ⟨(line.overwrite 0 (List.replicate commandLineLen 0)).overwrite 0
      (recent held (h.cur + 1)), some (recent held (h.cur + 1)).length, ?_, ?_⟩
    · simp only [hfind, Option.bind_some, (hat.cons hs).1, hs.header.2, ne_eq, not_false_eq_true,
        if_true, hclear, histLoadText_cons hs hat, hs.header.1, hlt]
      rfl
    · rw [if_pos hlt]
      refine ⟨rfl, Block.slice_overwrite, fun k hk => ?_⟩
      rw [byte_overwrite_front hk]
      exact byte_clear line k
  · -- no record is older than the oldest
    obtain ⟨p, hfind, hat⟩ := hh.find (k := 0)
      (fun j => decide (held.length = h.cur + j + 1)) (Nat.zero_le _)
      (fun j hj => by rw [decide_eq_decide]; omega)
    rw [Nat.sub_zero, List.drop_length] at hat
    refine ⟨line, none, ?_, ?_⟩
    · simp only [hfind, Option.bind_some, hat.nil, ne_eq, not_true_eq_false, if_false, hlt]
      rfl
    · rw [if_neg hlt]
      exact ⟨rfl, rfl⟩

/-- A restore of a newer line, or of the empty one behind them all. -/
theorem histRestoreLine_down (hh : Holds h held) (hcur : h.cur ≤ held.length)
    (line : Block commandLineLen) :
    ∃ line' ret, histRestoreLine h line .down =
        some ({ h with cur := (Log.restore held h.cur .down).1 }, line', ret) ∧
      Restored line line' ret (Log.restore held h.cur .down).2 := by
  simp only [histRestoreLine, hh.countRecords, Option.bind_eq_bind, Option.bind_some, Log.restore]
  by_cases hpos : h.cur > 0
  · obtain ⟨p, hfind, hat⟩ := hh.find (k := h.cur - 1)
      (fun j => decide (held.length = h.cur - 1 + j)) (by omega) (fun _ _ => rfl)
    by_cases hzero : h.cur - 1 = 0
    · -- the terminator, which reads as an empty line
      have hnil : recent held (h.cur - 1) = [] := by simp [recent, hzero]
      rw [hzero, Nat.sub_zero, List.drop_length] at hat
      refine ⟨line, some 0, ?_, ?_⟩
      · simp only [hpos, if_true, hfind, Option.bind_some, hat.nil, histLoadText_nil hat]
        rfl
      · rw [hnil]
        exact ⟨rfl, rfl, fun k _ => Or.inr rfl⟩
    · have hs := hh.sound.drop (held.length - (h.cur - 1))
      rw [drop_recent (by omega) (by omega)] at hat hs
      refine ⟨line.overwrite 0 (recent held (h.cur - 1)),
        some (recent held (h.cur - 1)).length, ?_, rfl, Block.slice_overwrite,
        fun k hk => Or.inr (byte_overwrite_front hk)⟩
      simp only [hpos, if_true, hfind, Option.bind_some, (hat.cons hs).1,
        histLoadText_cons hs hat, hs.header.1]
      rfl
  · have hzero : h.cur = 0 := by omega
    have hsame : { h with cur := h.cur - 1 } = h := by
      rw [show h.cur - 1 = h.cur by omega]
    refine ⟨line, some 0, ?_, ?_⟩
    · rw [if_neg hpos, hsame]
      rfl
    · simp [hzero, recent, Restored]

/-- **A restore is a move of the log**: the index moves by one record, and
the line is the record it then stands at, or stays where there is none. -/
theorem histRestoreLine_eq (hh : Holds h held) (hcur : h.cur ≤ held.length)
    (line : Block commandLineLen) (dir : Dir) :
    ∃ line' ret, histRestoreLine h line dir =
        some ({ h with cur := (Log.restore held h.cur dir).1 }, line', ret) ∧
      Restored line line' ret (Log.restore held h.cur dir).2 := by
  cases dir with
  | up => exact histRestoreLine_up hh hcur line
  | down => exact histRestoreLine_down hh hcur line

theorem Log.restore_le {k : ℕ} (hk : k ≤ held.length) (dir : Dir) :
    (Log.restore held k dir).1 ≤ held.length := by
  cases dir with
  | up =>
    simp only [Log.restore]
    split
    · exact ‹_›
    · exact hk
  | down => exact Nat.le_trans (Nat.sub_le k 1) hk

/-- Where a sequence of Up and Down leaves the log's index, from `k` on. -/
def Log.position (held : List (List UInt8)) (k : ℕ) (dirs : List Dir) : ℕ :=
  dirs.foldl (fun k dir => (Log.restore held k dir).1) k

/-- Up to the oldest line, every Up is one further back. -/
theorem Log.position_up {k m : ℕ} (hk : m + k ≤ held.length) :
    Log.position held m (List.replicate k .up) = m + k := by
  induction k generalizing m with
  | zero => rfl
  | succ k ih =>
    have hlt : m < held.length := by omega
    have hstep : (Log.restore held m .up).1 = m + 1 := by simp [Log.restore, hlt]
    rw [List.replicate_succ, Log.position, List.foldl_cons, hstep]
    exact (ih (by omega)).trans (by omega)

/-- `hist_restore_line` as a step of the history and of the array it
restores into, without the length it answers. -/
def restoreStep (r : RingHistory × Block commandLineLen) (dir : Dir) :
    Option (RingHistory × Block commandLineLen) :=
  (histRestoreLine r.1 r.2 dir).map fun x => (x.1, x.2.1)

/-- A sequence of keys moves the index as it moves the log's. -/
theorem run_restoreStep (hh : Holds h held) {k : ℕ} (hk : k ≤ held.length)
    (line : Block commandLineLen) (dirs : List Dir) :
    ∃ line', run restoreStep ({ h with cur := k }, line) dirs =
      some ({ h with cur := Log.position held k dirs }, line') ∧
        Log.position held k dirs ≤ held.length := by
  induction dirs generalizing k line with
  | nil => exact ⟨line, rfl, hk⟩
  | cons dir dirs ih =>
    obtain ⟨line₁, ret, hrestore, -⟩ := histRestoreLine_eq (hh.with_cur k) hk line dir
    obtain ⟨line', hrun, hle⟩ := ih (Log.restore_le hk dir) line₁
    refine ⟨line', run_cons.2 ⟨_, ?_, hrun⟩, hle⟩
    rw [restoreStep, hrestore]
    rfl

/-- **The history is a faithful bounded log.** After any sequence of
saves the ring holds the longest suffix of the lines saved that fits,
and any sequence of Ups and Downs from there stands at an index `k` into
it: the next Up restores the line behind and is refused at the oldest,
the next Down restores the line in front. -/
theorem history_log (saves : List (Block commandLineLen × ℕ))
    (hlen : ∀ s ∈ saves, 1 ≤ s.2 ∧ s.2 ≤ 100) :
    ∃ h held, run saveStep .init saves = some h ∧ h.cur = 0 ∧ Holds h held ∧
      Longest held (savedLines saves) ∧
      (∀ k, k ≤ held.length → Log.position held 0 (List.replicate k .up) = k) ∧
      ∀ line dirs k, Log.position held 0 dirs = k →
        ∃ line₁, run restoreStep (h, line) dirs = some ({ h with cur := k }, line₁) ∧
          (k < held.length → ∃ line₂,
            histRestoreLine { h with cur := k } line₁ .up =
              some ({ h with cur := k + 1 }, line₂, some (recent held (k + 1)).length) ∧
            line₂.slice 0 (recent held (k + 1)).length = recent held (k + 1)) ∧
          (k = held.length → histRestoreLine { h with cur := k } line₁ .up =
            some ({ h with cur := k }, line₁, none)) ∧
          (0 < k → ∃ line₂,
            histRestoreLine { h with cur := k } line₁ .down =
              some ({ h with cur := k - 1 }, line₂, some (recent held (k - 1)).length) ∧
            line₂.slice 0 (recent held (k - 1)).length = recent held (k - 1)) := by
  obtain ⟨h, held, hrun, hh, hlongest, hcur⟩ := run_saveStep hlen Holds.init Longest.nil rfl
  refine ⟨h, held, hrun, hcur, hh, by simpa using hlongest, fun k hk => ?_, ?_⟩
  · rw [Log.position_up (by omega), Nat.zero_add]
  intro line dirs k hpos
  have hzero : { h with cur := 0 } = h := by rw [← hcur]
  obtain ⟨line₁, hrun₁, hle⟩ := run_restoreStep hh (Nat.zero_le held.length) line dirs
  rw [hzero, hpos] at hrun₁
  rw [hpos] at hle
  refine ⟨line₁, hrun₁, fun hlt => ?_, fun heq => ?_, fun _ => ?_⟩
  · obtain ⟨line₂, ret, hrestore, hrestored⟩ := histRestoreLine_eq (hh.with_cur k) hle line₁ .up
    simp only [Log.restore, hlt, if_true] at hrestore hrestored
    obtain ⟨rfl, hslice, -⟩ := hrestored
    exact ⟨line₂, hrestore, hslice⟩
  · obtain ⟨line₂, ret, hrestore, hrestored⟩ := histRestoreLine_eq (hh.with_cur k) hle line₁ .up
    simp only [Log.restore, heq, Nat.lt_irrefl, if_false] at hrestore hrestored
    obtain ⟨rfl, rfl⟩ := hrestored
    rw [heq]
    exact hrestore
  · obtain ⟨line₂, ret, hrestore, rfl, hslice, -⟩ := histRestoreLine_eq (hh.with_cur k) hle line₁ .down
    exact ⟨line₂, hrestore, hslice⟩

/-- An array with a line at its front, and the length of that line. -/
def lineOf (text : List UInt8) : Block commandLineLen × ℕ :=
  ((⟨fun _ => 0⟩ : Block commandLineLen).overwrite 0 text, text.length)

theorem history_log_three :
    ∃ h held, run saveStep .init [lineOf (ascii "help"), lineOf (List.replicate 63 97),
        lineOf (ascii "clear")] = some h ∧ Holds h held ∧
      Longest held [ascii "help", ascii "clear"] := by
  obtain ⟨h, held, hrun, -, hh, hlongest, -⟩ := history_log [lineOf (ascii "help"),
    lineOf (List.replicate 63 97), lineOf (ascii "clear")] (by decide)
  exact ⟨h, held, hrun, hh, hlongest⟩

end Microrl

end SlipBoard
