import SlipBoard.Snmp.Model.Frame
import SlipBoard.Snmp.Asn1
/-!
# SNMP — octets that are copied from a chain of pbufs

`snmp_pbuf_stream_writeto` copies in chunks that are as long as the pbuf
they are in, wherever in that pbuf they begin. Octets that begin a pbuf
are copied whole, over as many pbufs as they take; others only where they
lie in the pbuf they begin in, and else it reads behind the end of that
pbuf (`exec_writeto`). So a message in one pbuf is always copied right
(`inPlace_single`).
-/

namespace SlipBoard

namespace Snmp

namespace Agent

open Code

variable {p : List (List UInt8)} {q : List UInt8} {offset len k : ℕ} {s : Stream}

/-! ## The pbuf of an offset -/

/-- `pbuf_skip` goes on behind the pbufs that end in front of the
offset. -/
theorem pbufSkip_append (done todo : List (List UInt8)) (k : ℕ) :
    pbufSkip (done ++ todo) (done.flatten.length + k) = pbufSkip todo k := by
  induction done with
  | nil => rw [List.flatten_nil, List.length_nil, Nat.zero_add, List.nil_append]
  | cons q done ih =>
    rw [List.cons_append, List.flatten_cons, List.length_append, pbufSkip, if_pos (by omega),
      Nat.add_assoc, Nat.add_sub_cancel_left, ih]

/-- **The pbuf that is found** has the offset, and the pbufs in front of it
end there. -/
theorem pbufSkip_some (h : pbufSkip p offset = some (q, k)) : ∃ done todo,
    p = done ++ q :: todo ∧ offset = done.flatten.length + k ∧ k < q.length := by
  induction p generalizing offset with
  | nil => cases h
  | cons q' p ih =>
    rw [pbufSkip] at h
    split_ifs at h with hbehind
    · obtain ⟨done, todo, rfl, hoffset, hlt⟩ := ih h
      refine ⟨q' :: done, todo, rfl, ?_, hlt⟩
      rw [List.flatten_cons, List.length_append]
      omega
    · obtain ⟨rfl, rfl⟩ := Prod.mk.inj (Option.some.inj h)
      exact ⟨[], p, rfl, (Nat.zero_add _).symm, by omega⟩

/-- From the offset on the chain has what is left of that pbuf, and the pbufs
behind it. -/
theorem drop_flatten (done todo : List (List UInt8)) (hk : k ≤ q.length) :
    (done ++ q :: todo).flatten.drop (done.flatten.length + k) = q.drop k ++ todo.flatten := by
  rw [← List.drop_drop, List.flatten_append, List.drop_left, List.flatten_cons,
    List.drop_append_of_le_length hk]

/-- Where none is found, the offset is behind all of the chain. -/
theorem pbufSkip_none (h : pbufSkip p offset = none) : p.flatten.length ≤ offset := by
  induction p generalizing offset with
  | nil => exact Nat.zero_le _
  | cons q p ih =>
    rw [pbufSkip] at h
    split_ifs at h with hbehind
    have hrest := ih h
    rw [List.flatten_cons, List.length_append]
    omega

/-- **Octets of a chain that `snmp_pbuf_stream_writeto` copies right**: they
begin a pbuf, or lie in the one they begin in. Others it would take from
behind the end of a pbuf. -/
def InPlace (p : List (List UInt8)) (offset len : ℕ) : Prop :=
  ∀ found ∈ pbufSkip p offset, found.2 = 0 ∨ found.2 + len ≤ found.1.length

instance (p : List (List UInt8)) (offset len : ℕ) : Decidable (InPlace p offset len) :=
  inferInstanceAs (Decidable (∀ found ∈ pbufSkip p offset, _))

/-- Whether octets are in place, told by the pbuf they begin in. -/
theorem inPlace_iff (h : pbufSkip p offset = some (q, k)) :
    InPlace p offset len ↔ k = 0 ∨ k + len ≤ q.length := by
  rw [InPlace, h]
  constructor
  · exact fun hplace => hplace (q, k) rfl
  · rintro hplace found hmem
    obtain rfl := Option.some.inj hmem
    exact hplace

/-- No octets are in place anywhere: nothing is copied then. -/
theorem inPlace_zero : InPlace p offset 0 := by
  rintro ⟨q, k⟩ hfound
  obtain ⟨-, -, -, -, hlt⟩ := pbufSkip_some hfound
  exact .inr hlt.le

/-- What is in one pbuf is in place, so a message that is not chained is
always copied right. -/
theorem inPlace_single (h : offset + len ≤ q.length) : InPlace [q] offset len := by
  intro found hfound
  rw [pbufSkip] at hfound
  split_ifs at hfound with hbehind
  · cases hfound
  · obtain rfl := Option.some.inj hfound
    exact .inr h

/-! ## The copy -/

theorem exec_writetoLoop_zero (p : List (List UInt8)) (rounds offset : ℕ) (s : Stream) :
    exec (writetoLoop p rounds offset 0) s = (.ok (), s) := by
  cases rounds with
  | zero => rfl
  | succ rounds => rfl

/-- A round of the loop that stays in its pbuf. -/
theorem exec_writetoLoop_chunk (hfound : pbufSkip p offset = some (q, k)) (hpos : 0 < len)
    (hinside : k + min len q.length ≤ q.length) (hs : s.Within) (hfits : len ≤ s.length)
    (rounds : ℕ) : exec (writetoLoop p (rounds + 1) offset len) s =
      exec (writetoLoop p rounds (offset + min len q.length) (len - min len q.length))
        (s.put ((q.drop k).take (min len q.length))) := by
  obtain ⟨-, -, -, -, hlt⟩ := pbufSkip_some hfound
  have hlength : ((q.drop k).take (min len q.length)).length = min len q.length := by
    rw [List.length_take, List.length_drop]
    omega
  have hne : (q.drop k).take (min len q.length) ≠ [] := by
    intro hnil
    rw [hnil, List.length_nil] at hlength
    omega
  have hwrite := writes_writebuf hne s hs (by omega)
  rw [writetoLoop, if_pos hpos, hfound]
  dsimp only
  rw [if_neg (by omega), if_neg (by omega)]
  exact exec_bind_ok hwrite

/-- A round that does not stay in its pbuf reads what is not of the message. -/
theorem exec_writetoLoop_outside (hfound : pbufSkip p offset = some (q, k)) (hpos : 0 < len)
    (houtside : q.length < k + min len q.length) (s : Stream) (rounds : ℕ) :
    exec (writetoLoop p (rounds + 1) offset len) s = (.error .outside, s) := by
  obtain ⟨-, -, -, -, hlt⟩ := pbufSkip_some hfound
  rw [writetoLoop, if_pos hpos, hfound]
  dsimp only
  rw [if_neg (by omega), if_pos houtside]
  rfl

/-- **From the head of a pbuf on**, all is copied: each chunk is a whole
pbuf, but for the last, which ends with the octets. -/
theorem exec_writetoLoop_pbufs (todo : List (List UInt8)) : ∀ (done : List (List UInt8))
    (rounds len : ℕ) {s : Stream}, s.Within → len ≤ rounds → len ≤ todo.flatten.length →
    len ≤ s.length → exec (writetoLoop (done ++ todo) rounds done.flatten.length len) s =
      (.ok (), s.put (todo.flatten.take len)) := by
  induction todo with
  | nil =>
    intro done rounds len s _ _ hlen _
    obtain rfl : len = 0 := Nat.le_zero.1 hlen
    rw [exec_writetoLoop_zero, List.take_zero, s.put_nil]
  | cons q todo ih =>
    intro done rounds len s hs hrounds hlen hfits
    have hcons : done ++ q :: todo = (done ++ [q]) ++ todo := by rw [List.append_assoc]; rfl
    have hbehind : done.flatten.length + q.length = (done ++ [q]).flatten.length := by
      rw [List.flatten_append, List.length_append, List.flatten_singleton]
    rcases Nat.eq_zero_or_pos len with rfl | hpos
    · rw [exec_writetoLoop_zero, List.take_zero, s.put_nil]
    obtain ⟨rounds, rfl⟩ : ∃ n, rounds = n + 1 := ⟨rounds - 1, by omega⟩
    rw [List.flatten_cons, List.length_append] at hlen
    rcases Nat.eq_zero_or_pos q.length with hempty | hsome
    · -- an empty pbuf is passed over
      have hrest := ih (done ++ [q]) (rounds + 1) len hs hrounds (by omega) hfits
      rw [← hbehind, hempty, Nat.add_zero, ← hcons] at hrest
      rw [List.flatten_cons, List.eq_nil_of_length_eq_zero hempty, List.nil_append]
      rwa [List.eq_nil_of_length_eq_zero hempty] at hrest
    have hfound : pbufSkip (done ++ q :: todo) done.flatten.length = some (q, 0) := by
      have hskip := pbufSkip_append done (q :: todo) 0
      rw [Nat.add_zero] at hskip
      rw [hskip, pbufSkip, if_neg (by omega)]
    rw [exec_writetoLoop_chunk hfound hpos (by omega) hs hfits, List.drop_zero, List.flatten_cons]
    rcases Nat.le_total len q.length with hle | hle
    · rw [Nat.min_eq_left hle, Nat.sub_self, exec_writetoLoop_zero,
        List.take_append_of_le_length hle]
    · have hput : q.length ≤ s.length := hle.trans hfits
      have hrest := ih (done ++ [q]) rounds (len - q.length) (hs.put hput) (by omega) (by omega)
        (show len - q.length ≤ s.length - q.length by omega)
      rw [← hbehind, ← hcons] at hrest
      rw [Nat.min_eq_right hle, List.take_length, hrest, Cursor.put_put hs hput,
        List.take_append, List.take_of_length_le hle]

/-- **What the loop copies**: the octets from the offset on where they are
in place, and else it leaves the pbuf they begin in. -/
theorem exec_writetoLoop (hwhole : offset + len ≤ p.flatten.length) (hs : s.Within)
    (hfits : len ≤ s.length) : exec (writetoLoop p len offset len) s =
      if InPlace p offset len then (.ok (), s.put ((p.flatten.drop offset).take len))
      else (.error .outside, s) := by
  rcases Nat.eq_zero_or_pos len with rfl | hpos
  · rw [if_pos inPlace_zero, List.take_zero, s.put_nil]
    rfl
  rcases hfound : pbufSkip p offset with _ | ⟨q, k⟩
  · have hend := pbufSkip_none hfound
    omega
  have hiff : InPlace p offset len ↔ k = 0 ∨ k + len ≤ q.length := inPlace_iff hfound
  obtain ⟨done, todo, rfl, rfl, hlt⟩ := pbufSkip_some hfound
  obtain ⟨rounds, hrounds⟩ : ∃ n, len = n + 1 := ⟨len - 1, by omega⟩
  rw [drop_flatten done todo hlt.le]
  by_cases hplace : k = 0 ∨ k + len ≤ q.length
  · rw [if_pos (hiff.2 hplace)]
    rcases hplace with rfl | hinside
    · -- they begin a pbuf
      have hall := exec_writetoLoop_pbufs (q :: todo) done len len hs (le_refl _) (by
        rw [List.flatten_append, List.length_append] at hwhole
        omega) hfits
      rwa [List.flatten_cons] at hall
    · -- they lie in one, and a single round copies them
      have hmin : min len q.length = len := Nat.min_eq_left (by omega)
      have hone := exec_writetoLoop_chunk hfound hpos (by omega) hs hfits rounds
      rw [hmin, Nat.sub_self, exec_writetoLoop_zero, ← hrounds] at hone
      rw [hone, List.take_append_of_le_length (by rw [List.length_drop]; omega)]
  · rw [if_neg fun h => hplace (hiff.1 h)]
    have hone := exec_writetoLoop_outside hfound hpos (by omega) s rounds
    rwa [← hrounds] at hone

/-- **What is copied from a chain**: as many of the octets as there is room
for where these are in place, and else the code leaves a pbuf. -/
theorem exec_writeto (front vbs : List UInt8) (hp : p.flatten = front ++ vbs) (hs : s.Within) :
    exec (snmpPbufStreamWriteto p front.length vbs.length) s =
      if InPlace p front.length (min vbs.length s.length) then (.ok (), s.put (vbs.take s.length))
      else (.error .outside, s) := by
  have hwhole : p.flatten.length = front.length + vbs.length := by rw [hp, List.length_append]
  have hcount : min vbs.length s.length ≤ vbs.length := Nat.min_le_left _ _
  have htake : vbs.take (min vbs.length s.length) = vbs.take s.length := by
    rcases Nat.le_total vbs.length s.length with hle | hle
    · rw [Nat.min_eq_left hle, List.take_of_length_le hle, List.take_length]
    · rw [Nat.min_eq_right hle]
  rw [snmpPbufStreamWriteto, exec_bind_ok (exec_left s)]
  dsimp only
  rw [exec_writetoLoop (by omega) hs (Nat.min_le_right _ _), hp, List.drop_left, htake]

end Agent

end Snmp

end SlipBoard
