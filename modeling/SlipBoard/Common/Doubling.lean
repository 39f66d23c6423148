import Mathlib.Algebra.Ring.Parity
import Mathlib.Data.List.Count
/-!
# Doubled marks

A stream in which each mark `e` is sent twice (`double`), and two ways
back. `pairs` keeps a flag, whether the stream stands between the halves
of a pair, and yields the mark at the second half: it may be cut
anywhere (`pairs_append`). `lookAhead` keeps nothing and drops a mark
that follows the symbol it yields. On one piece the two agree unless the
piece begins outside a pair and is an odd number of marks and nothing
else (`lookAhead_eq`), where `lookAhead` yields a mark too many.
-/

namespace SlipBoard

namespace Doubling

variable {α : Type*} [DecidableEq α] (e : α)

/-- What is sent for a stream: each mark twice, every other symbol once. -/
def double (l : List α) : List α := l.flatMap fun b => if b = e then [e, e] else [b]

/-- Whether a stream ends between the halves of a pair, when it begins there
(`true`) or not (`false`). -/
def inside : Bool → List α → Bool
  | a, [] => a
  | a, b :: l => inside (b = e && !a) l

/-- The halves of each pair stand side by side, as they do in what `double`
gives. -/
def Paired : Bool → List α → Prop
  | _, [] => True
  | a, b :: l => (a = true → b = e) ∧ Paired (b = e && !a) l

/-- The symbols of a stream, with a flag whether it begins between the
halves of a pair. A mark is yielded at the second half. -/
def pairs : Bool → List α → List α
  | _, [] => []
  | a, b :: l => if b = e ∧ a = false then pairs true l else b :: pairs false l

/-- The symbols of a stream, where a mark is yielded when it comes and one
that stands behind a yielded symbol is dropped. -/
def lookAhead : List α → List α
  | [] => []
  | [b] => [b]
  | b :: b' :: l => if b' = e then b :: lookAhead l else b :: lookAhead (b' :: l)

/-- Looking ahead ends with a symbol dropped, and not with one yielded, so
that a mark that comes next is yielded. -/
def EndsDropped : List α → Prop
  | [] => True
  | [_] => False
  | _ :: b' :: l => if b' = e then EndsDropped l else EndsDropped (b' :: l)

/-- A piece that begins outside a pair and is an odd number of marks. -/
def Half (a : Bool) (l : List α) : Prop := a = false ∧ (∀ b ∈ l, b = e) ∧ Odd l.length

instance {e : α} {a : Bool} {l : List α} : Decidable (Half e a l) :=
  inferInstanceAs (Decidable (_ ∧ _ ∧ _))

variable {e} {a : Bool} {l l' : List α}

/-! ## Pairs -/

theorem inside_append : inside e a (l ++ l') = inside e (inside e a l) l' := by
  induction l generalizing a with
  | nil => rfl
  | cons b l ih => exact ih

theorem paired_append : Paired e a (l ++ l') ↔ Paired e a l ∧ Paired e (inside e a l) l' := by
  induction l generalizing a with
  | nil => simp [Paired, inside]
  | cons b l ih =>
    simp only [List.cons_append, Paired, inside, ih, and_assoc]

theorem pairs_append : pairs e a (l ++ l') = pairs e a l ++ pairs e (inside e a l) l' := by
  induction l generalizing a with
  | nil => rfl
  | cons b l ih =>
    simp only [List.cons_append, pairs, inside]
    by_cases hb : b = e
    · cases a <;> simp [hb, ih]
    · simp [hb, ih]

/-- Where the halves stand side by side, the flag is the parity of the
marks. -/
theorem inside_eq (h : Paired e false l) : inside e false l = decide (Odd (l.count e)) := by
  have key : ∀ a (l : List α), Paired e a l →
      inside e a l = (a ^^ decide (Odd (l.count e))) := by
    intro a l
    induction l generalizing a with
    | nil => simp [inside]
    | cons b l ih =>
      rintro ⟨ha, hl⟩
      rw [inside, ih _ hl, List.count_cons]
      by_cases hb : b = e
      · cases a <;> simp [hb, Nat.odd_add_one, ← Nat.not_even_iff_odd]
      · have : a = false := by
          by_contra h
          exact hb (ha (by simpa using h))
        simp [hb, this]
  simpa using key false l h

theorem double_cons (b : α) : double e (b :: l) = (if b = e then [e, e] else [b]) ++ double e l :=
  rfl

theorem paired_double : Paired e false (double e l) := by
  induction l with
  | nil => trivial
  | cons b l ih =>
    rw [double_cons]
    split
    · simpa [Paired] using ih
    · rename_i hb
      simpa [Paired, hb] using ih

theorem inside_double : inside e false (double e l) = false := by
  induction l with
  | nil => rfl
  | cons b l ih =>
    rw [double_cons]
    split
    · simpa [inside] using ih
    · rename_i hb
      simpa [inside, hb] using ih

theorem inside_replicate (k : ℕ) : inside e a (List.replicate (2 * k) e) = a := by
  induction k with
  | zero => rfl
  | succ k ih =>
    rw [show 2 * (k + 1) = 2 * k + 1 + 1 by omega, List.replicate_succ, List.replicate_succ]
    simpa [inside] using ih

theorem pairs_double : pairs e false (double e l) = l := by
  induction l with
  | nil => rfl
  | cons b l ih =>
    rw [double_cons]
    split
    · rename_i hb
      simp [pairs, ih, hb]
    · rename_i hb
      simp [pairs, ih, hb]

/-! ## Looking ahead -/

omit [DecidableEq α] in
theorem half_mark_mark : Half e false (e :: e :: l) ↔ Half e false l := by
  unfold Half
  simp [Nat.odd_add_one]

omit [DecidableEq α] in
theorem not_half_of_mem {b : α} (hb : b ∈ l) (hne : b ≠ e) : ¬ Half e a l :=
  fun h => hne (h.2.1 b hb)

/-- **Looking ahead, in one piece.** It yields what the pairs yield, and a
mark more where the piece is a half. -/
theorem lookAhead_eq (h : Paired e a l) :
    lookAhead e l = pairs e a l ++ if Half e a l then [e] else [] := by
  induction l using lookAhead.induct e generalizing a with
  | case1 => simp [lookAhead, pairs, Half]
  | case2 b =>
    by_cases hb : b = e
    · cases a <;> simp [lookAhead, pairs, Half, hb]
    · simp [lookAhead, pairs, Half, hb]
  | case3 b l ih =>
    obtain ⟨ha, -, hl⟩ := h
    rw [lookAhead, if_pos rfl]
    by_cases hb : b = e
    · subst hb
      cases a with
      | false =>
        -- the pair yields its mark at the second half, looking ahead at the first
        rw [ih (a := false) (by simpa using hl)]
        simp [pairs, half_mark_mark]
      | true =>
        rw [ih (a := true) (by simpa using hl)]
        simp [pairs, Half]
    · rw [ih (a := true) (by simpa [hb] using hl),
        if_neg (not_half_of_mem List.mem_cons_self hb)]
      simp [pairs, hb, Half]
  | case4 b b' l hb' ih =>
    obtain ⟨ha, hl⟩ := h
    have hnot : ¬ (b = e ∧ a = false) := by
      rintro ⟨rfl, rfl⟩
      exact hb' (hl.1 (by simp))
    have hflag : (b = e && !a) = false := by
      by_contra hne
      simp only [Bool.not_eq_false, Bool.and_eq_true, decide_eq_true_eq,
        Bool.not_eq_true'] at hne
      exact hnot hne
    rw [hflag] at hl
    have hpairs : pairs e a (b :: b' :: l) = b :: pairs e false (b' :: l) := by
      rw [pairs, if_neg hnot]
    rw [lookAhead, if_neg hb', ih hl, hpairs,
      if_neg (not_half_of_mem List.mem_cons_self hb'),
      if_neg (not_half_of_mem (List.mem_cons_of_mem b List.mem_cons_self) hb'), List.cons_append]

/-- **Where the last symbol is dropped**: in an even number of marks, and
in an odd number of them behind another symbol. -/
theorem endsDropped_iff : EndsDropped e l ↔ (∃ k, l = List.replicate (2 * k) e) ∨
    ∃ front b k, b ≠ e ∧ l = front ++ b :: List.replicate (2 * k + 1) e := by
  induction l using lookAhead.induct e with
  | case1 => exact iff_of_true trivial (.inl ⟨0, rfl⟩)
  | case2 b =>
    refine iff_of_false id ?_
    rintro (⟨k, hk⟩ | ⟨front, b', k, -, hk⟩)
    · have := congrArg List.length hk
      simp only [List.length_singleton, List.length_replicate] at this
      omega
    · have := congrArg List.length hk
      simp only [List.length_nil, List.length_append, List.length_cons,
        List.length_replicate] at this
      omega
  | case3 b l ih =>
    rw [EndsDropped, if_pos rfl, ih]
    constructor
    · rintro (⟨k, rfl⟩ | ⟨front, b', k, hb', rfl⟩)
      · by_cases hb : b = e
        · exact .inl ⟨k + 1, by rw [hb]; rfl⟩
        · exact .inr ⟨[], b, k, hb, rfl⟩
      · exact .inr ⟨b :: e :: front, b', k, hb', rfl⟩
    · rintro (⟨k, hk⟩ | ⟨front, b', k, hb', hk⟩)
      · obtain ⟨k, rfl⟩ : ∃ n, k = n + 1 := by
          refine ⟨k - 1, ?_⟩
          have := congrArg List.length hk
          simp only [List.length_cons, List.length_replicate] at this
          omega
        exact .inl ⟨k, (List.cons.inj (List.cons.inj hk).2).2⟩
      · match front, hk with
        | [], hk => exact .inl ⟨k, (List.cons.inj (List.cons.inj hk).2).2⟩
        | [_], hk => exact absurd (List.cons.inj (List.cons.inj hk).2).1.symm hb'
        | _ :: _ :: front, hk =>
          exact .inr ⟨front, b', k, hb', (List.cons.inj (List.cons.inj hk).2).2⟩
  | case4 b b' l hb' ih =>
    rw [EndsDropped, if_neg hb', ih]
    constructor
    · rintro (⟨k, hk⟩ | ⟨front, b₀, k, hb₀, hk⟩)
      · exact absurd (List.eq_of_mem_replicate (hk ▸ List.mem_cons_self)) hb'
      · exact .inr ⟨b :: front, b₀, k, hb₀, by rw [hk, List.cons_append]⟩
    · rintro (⟨k, hk⟩ | ⟨front, b₀, k, hb₀, hk⟩)
      · have hmem : b' ∈ List.replicate (2 * k) e := hk ▸ List.mem_cons_of_mem b List.mem_cons_self
        exact absurd (List.eq_of_mem_replicate hmem) hb'
      · match front, hk with
        | [], hk => exact absurd (List.cons.inj (List.cons.inj hk).2).1 hb'
        | _ :: front, hk => exact .inr ⟨front, b₀, k, hb₀, (List.cons.inj hk).2⟩

/-- A piece that ends dropped is an even number of marks, or ends inside a
pair. -/
theorem EndsDropped.cases (h : EndsDropped e l) :
    (Even l.length ∧ ∀ b ∈ l, b = e) ∨ ∀ a, inside e a l = true := by
  rcases endsDropped_iff.1 h with ⟨k, rfl⟩ | ⟨front, b, k, hb, rfl⟩
  · refine .inl ⟨?_, fun b => List.eq_of_mem_replicate⟩
    rw [List.length_replicate]
    exact ⟨k, Nat.two_mul k⟩
  · refine .inr fun a => ?_
    rw [inside_append, inside, List.replicate_succ, inside, inside_replicate]
    simp [hb]

theorem endsDropped_of_even (heven : Even l.length) (hall : ∀ b ∈ l, b = e) :
    EndsDropped e l := by
  obtain ⟨k, hk⟩ := heven
  rw [List.eq_replicate_of_mem hall, hk, ← Nat.two_mul]
  exact endsDropped_iff.2 (.inl ⟨k, rfl⟩)

/-! ## In several pieces -/

/-- No piece of a stream is a half, when each begins where the one in front
has left off. -/
def NoHalf (e : α) : Bool → List (List α) → Prop
  | _, [] => True
  | a, p :: ps => ¬ Half e a p ∧ NoHalf e (inside e a p) ps

theorem length_pairs_le {ps : List (List α)} (h : Paired e a ps.flatten) :
    (pairs e a ps.flatten).length ≤ (ps.flatMap (lookAhead e)).length := by
  induction ps generalizing a with
  | nil => simp [pairs]
  | cons p ps ih =>
    obtain ⟨hp, hps⟩ := paired_append.1 h
    have hle := ih hps
    rw [List.flatten_cons, pairs_append, List.flatMap_cons, lookAhead_eq hp]
    simp only [List.length_append]
    omega

/-- **Looking ahead, piece by piece.** It yields the symbols of the pairs
exactly where no piece is a half. -/
theorem flatMap_lookAhead_eq_iff {ps : List (List α)} (h : Paired e a ps.flatten) :
    ps.flatMap (lookAhead e) = pairs e a ps.flatten ↔ NoHalf e a ps := by
  induction ps generalizing a with
  | nil => simp [pairs, NoHalf]
  | cons p ps ih =>
    obtain ⟨hp, hps⟩ := paired_append.1 h
    rw [List.flatten_cons, pairs_append, List.flatMap_cons, lookAhead_eq hp, NoHalf]
    by_cases hhalf : Half e a p
    · refine iff_of_false (fun heq => ?_) fun hno => hno.1 hhalf
      -- the symbols are one more
      have hlen := congrArg List.length heq
      have hle := length_pairs_le hps
      rw [if_pos hhalf] at hlen
      simp only [List.length_append, List.length_singleton] at hlen
      omega
    · rw [if_neg hhalf, List.append_nil, List.append_cancel_left_eq, ih hps]
      exact (and_iff_right hhalf).symm

/-- The same, with the flag told by the marks in front of a piece. -/
theorem noHalf_iff {ps : List (List α)} (h : Paired e false ps.flatten) :
    NoHalf e false ps ↔ ∀ before p after, ps = before ++ p :: after →
      Even (before.flatten.count e) → (∀ b ∈ p, b = e) → Even p.length := by
  have key : ∀ a (ps : List (List α)), NoHalf e a ps ↔ ∀ before p after,
      ps = before ++ p :: after → ¬ Half e (inside e a before.flatten) p := by
    intro a ps
    induction ps generalizing a with
    | nil => simp [NoHalf]
    | cons p ps ih =>
      rw [NoHalf, ih]
      constructor
      · rintro ⟨hp, hps⟩ before q after heq
        cases before with
        | nil =>
          obtain ⟨rfl, -⟩ := List.cons.inj heq
          exact hp
        | cons b before =>
          obtain ⟨rfl, htail⟩ := List.cons.inj heq
          rw [List.flatten_cons, inside_append]
          exact hps before q after htail
      · intro hall
        refine ⟨hall [] p ps rfl, fun before q after heq => ?_⟩
        have := hall (p :: before) q after (by rw [heq, List.cons_append])
        rwa [List.flatten_cons, inside_append] at this
  rw [key]
  refine forall_congr' fun before => forall_congr' fun p => forall_congr' fun after =>
    imp_congr_right fun heq => ?_
  have hbefore : Paired e false before.flatten := by
    rw [heq, List.flatten_append] at h
    exact (paired_append.1 h).1
  rw [inside_eq hbefore, Half]
  simp only [decide_eq_false_iff_not, not_and, Nat.not_odd_iff_even]

/-- **A whole stream in pieces that all end dropped** is marks alone, an
even number in each piece: what has ended inside a pair once would do so
to the end. -/
theorem endsDropped_pieces_iff {ps : List (List α)} (h : inside e false ps.flatten = false) :
    (∀ p ∈ ps, EndsDropped e p) ↔ ∀ p ∈ ps, Even p.length ∧ ∀ b ∈ p, b = e := by
  have key : ∀ a (ps : List (List α)), (∀ p ∈ ps, EndsDropped e p) →
      inside e a ps.flatten = false → a = false ∧ ∀ p ∈ ps, Even p.length ∧ ∀ b ∈ p, b = e := by
    intro a ps
    induction ps generalizing a with
    | nil => exact fun _ ha => ⟨ha, fun _ hp => by cases hp⟩
    | cons p ps ih =>
      intro hall hend
      rw [List.forall_mem_cons] at hall
      rw [List.flatten_cons, inside_append] at hend
      obtain ⟨hflag, hps⟩ := ih _ hall.2 hend
      rcases hall.1.cases with hp | hp
      · obtain ⟨k, hk⟩ := hp.1
        rw [List.eq_replicate_of_mem hp.2, hk, ← Nat.two_mul, inside_replicate] at hflag
        exact ⟨hflag, List.forall_mem_cons.2 ⟨hp, hps⟩⟩
      · rw [hp a] at hflag
        cases hflag
  exact ⟨fun hall => (key false ps hall h).2, fun hall p hp =>
    endsDropped_of_even (hall p hp).1 (hall p hp).2⟩

theorem length_lookAhead_le : (lookAhead e l).length ≤ l.length := by
  induction l using lookAhead.induct e with
  | case1 => exact le_refl 0
  | case2 b => exact le_refl 1
  | case3 b l ih =>
    rw [lookAhead, if_pos rfl]
    simp only [List.length_cons]
    omega
  | case4 b b' l hb' ih =>
    rw [lookAhead, if_neg hb', List.length_cons, List.length_cons]
    omega

end Doubling

end SlipBoard
