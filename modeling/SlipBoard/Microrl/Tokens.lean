import SlipBoard.Common.Words
import SlipBoard.Microrl.Model.Editor
/-!
# Line editor — what `split` finds

The two inner loops of `split` pass over the zeros to a start and over
the run to its end (`scan_eq`), so a round of the outer loop stores one
start and leaves the rest (`splitFrom_eq`). With fewer than ten starts
in front of the limit it answers all of them, and otherwise −1
(`split_eq`): the tenth word is refused where the configuration still
allows it (`tokenises_iff`).
-/

namespace SlipBoard

namespace Microrl

variable {cmdline : Block commandLineLen} {limit ind : ℕ} {tkn : List ℕ}

/-- A loop stops at the first cell that fails its test, or at the
limit. -/
theorem scan_eq (p : UInt8 → Bool) (cmdline : Block commandLineLen) (hlimit : limit ≤ 100)
    (hind : ind ≤ limit) {fuel : ℕ} (hfuel : limit - ind < fuel) :
    ∃ e, scan p cmdline limit fuel ind = some e ∧ (ind ≤ e ∧ e ≤ limit) ∧
      (∀ k, ind ≤ k → k < e → p (cmdline.byte k) = true) ∧
      (e < limit → p (cmdline.byte e) = false) := by
  induction fuel generalizing ind with
  | zero => omega
  | succ fuel ih =>
    have hload : cmdline.load ind = some (cmdline.byte ind) :=
      Block.load_of_lt (by rw [commandLineLen]; omega)
    simp only [scan, hload, Option.bind_eq_bind, Option.bind_some]
    by_cases hgo : p (cmdline.byte ind) = true ∧ ind < limit
    · rw [if_pos hgo]
      obtain ⟨e, hscan, ⟨hle, hel⟩, hall, hend⟩ := ih (show ind + 1 ≤ limit from hgo.2) (by omega)
      refine ⟨e, hscan, ⟨by omega, hel⟩, fun k hk hke => ?_, hend⟩
      rcases Nat.eq_or_lt_of_le hk with rfl | hk
      · exact hgo.1
      · exact hall k hk hke
    · rw [if_neg hgo]
      refine ⟨ind, rfl, ⟨Nat.le_refl ind, hind⟩, fun k hk hke => by omega, fun hlt => ?_⟩
      simpa [hlt] using hgo

/-- What `split` answers about a list of starts: their number, where it is
below the limit, else -1 with the array full. -/
def answer (found : List ℕ) : Option ℕ × List ℕ :=
  if found.length < commandTokenNmb then (some found.length, found)
  else (none, found.take commandTokenNmb)

/-- A round of the outer loop, between two words. -/
theorem splitFrom_eq (hlimit : limit ≤ 100) (hind : ind ≤ limit)
    (hbetween : ind < limit → ind = 0 ∨ cmdline.byte ind = 0) {fuel : ℕ}
    (hfuel : tkn.length + fuel = commandTokenNmb) (hpos : 0 < fuel) :
    splitFrom cmdline limit fuel ind tkn = some (answer (tkn ++ cmdline.startsIn ind limit)) := by
  induction fuel generalizing ind tkn with
  | zero => omega
  | succ fuel ih =>
    rw [commandTokenNmb] at hfuel
    obtain ⟨e, hscan, ⟨hle, hel⟩, hzeros, hstop⟩ :=
      scan_eq (· = 0) cmdline hlimit hind
        (show limit - ind < commandLineLen + 1 by rw [commandLineLen]; omega)
    -- no word starts at a zero
    have hskip : cmdline.startsIn ind limit = cmdline.startsIn e limit := by
      refine Block.startsIn_skip hle hel fun k hk hke => ?_
      have hz : cmdline.byte k = 0 := by simpa using hzeros k hk hke
      simp [Block.isStart, hz]
    simp only [splitFrom, hscan, Option.bind_eq_bind, Option.bind_some, hskip]
    by_cases hlt : e < limit
    · have hne : cmdline.byte e ≠ 0 := by simpa using hstop hlt
      have hstart : cmdline.isStart e = true := by
        refine Block.isStart_iff.2 ⟨hne, ?_⟩
        rcases Nat.eq_or_lt_of_le hle with rfl | hgt
        · exact Or.inl ((hbetween hlt).resolve_right hne)
        · have hz := hzeros (e - 1) (by omega) (by omega)
          exact Or.inr (by simpa using hz)
      rw [Block.startsIn_cons hlt hstart, if_neg (not_not_intro hlt),
        List.append_cons tkn e (cmdline.startsIn (e + 1) limit)]
      by_cases hten : (tkn ++ [e]).length ≥ commandTokenNmb
      · -- the tenth token
        have hlen : tkn.length = 9 := by
          rw [List.length_append, List.length_singleton, commandTokenNmb] at hten
          omega
        have htake : (tkn ++ [e]).length = commandTokenNmb := by simp [hlen]
        rw [if_pos hten, answer, if_neg (by rw [List.length_append, htake]; omega),
          List.take_left' htake]
        rfl
      · rw [if_neg hten]
        have hlen : (tkn ++ [e]).length + fuel = commandTokenNmb := by
          rw [List.length_append, List.length_singleton, commandTokenNmb]
          omega
        rw [List.length_append, List.length_singleton, commandTokenNmb] at hten
        obtain ⟨e₂, hscan₂, ⟨hle₂, hel₂⟩, hrun, hstop₂⟩ :=
          scan_eq (· ≠ 0) cmdline hlimit hel
            (show limit - e < commandLineLen + 1 by rw [commandLineLen]; omega)
        have hgt : e < e₂ := by
          rcases Nat.eq_or_lt_of_le hle₂ with rfl | hgt
          · simpa [hne] using hstop₂ hlt
          · exact hgt
        -- nor behind another byte of the same word
        have hskip₂ : cmdline.startsIn (e + 1) limit = cmdline.startsIn e₂ limit := by
          refine Block.startsIn_skip hgt hel₂ fun k hk hke => ?_
          have hprev : cmdline.byte (k - 1) ≠ 0 := by simpa using hrun (k - 1) (by omega) (by omega)
          simp [Block.isStart, hprev]
          omega
        simp only [hscan₂, Option.bind_some, hskip₂]
        by_cases hlt₂ : e₂ < limit
        · rw [if_neg (not_not_intro hlt₂)]
          exact ih hel₂ (fun _ => Or.inr (by simpa using hstop₂ hlt₂)) hlen (by omega)
        · rw [if_pos hlt₂, show e₂ = limit by omega, Block.startsIn_self, List.append_nil, answer,
            if_pos (by rw [List.length_append, List.length_singleton, commandTokenNmb]; omega)]
          rfl
    · rw [if_pos hlt, show e = limit by omega, Block.startsIn_self, List.append_nil, answer,
        if_pos (by rw [commandTokenNmb]; omega)]
      rfl

/-- **`split` answers the starts of the words in front of the limit**,
and −1 from the tenth on. -/
theorem split_eq (hlimit : limit ≤ 100) :
    split cmdline limit = some (answer (cmdline.starts limit)) :=
  splitFrom_eq hlimit (Nat.zero_le limit) (fun _ => Or.inl rfl) rfl (by decide)

/-- Every token is a string of the array, when its last cell is zero. -/
theorem str_of_mem_starts (hguard : cmdline.byte 100 = 0) (hlimit : limit ≤ 100) :
    ∀ k ∈ cmdline.starts limit, cmdline.str k = some (cmdline.cstr k) := by
  intro k hk
  obtain ⟨⟨-, hk⟩, -⟩ := Block.mem_startsIn.1 hk
  exact Block.str_of_byte_eq_zero (show k ≤ 100 by omega) (by rw [commandLineLen]; omega) hguard

theorem mapM_str {ks : List ℕ} (h : ∀ k ∈ ks, cmdline.str k = some (cmdline.cstr k)) :
    ks.mapM cmdline.str = some (ks.map cmdline.cstr) := by
  induction ks with
  | nil => rfl
  | cons k ks ih =>
    rw [List.mapM_cons, h k List.mem_cons_self, ih fun j hj => h j (List.mem_cons_of_mem k hj)]
    rfl

/-! ## The limit of the configuration -/

/-- A line that `split` refuses is not executed: Enter makes no call for it. -/
theorem calls_of_refused {s s' : MicrorlT} {tkn : List ℕ}
    (hsplit : split s.cmdline s.cmdlen = some (none, tkn)) (henter : s.newLineHandler = some s') :
    s'.calls = s.calls := by
  have hsplit' : split s.terminalNewline.cmdline s.terminalNewline.cmdlen = some (none, tkn) :=
    hsplit
  simp only [MicrorlT.newLineHandler, hsplit', Option.bind_eq_bind, Option.bind_some,
    Option.bind_eq_some_iff, Option.pure_def, Option.some.injEq] at henter
  obtain ⟨ringHist, -, cmdline, -, rfl⟩ := henter
  rfl

/-- **What the configuration asks of `split`**: it answers, with no more
tokens than `tkn_arr` has cells; up to `_COMMAND_TOKEN_NMB` words are all
answered, each by its start, and more are refused, so that Enter calls
nothing. -/
def Tokenises (cmdline : Block commandLineLen) (limit : ℕ) : Prop :=
  ∃ status tkn, split cmdline limit = some (status, tkn) ∧ tkn.length ≤ commandTokenNmb ∧
    ((cmdline.starts limit).length ≤ commandTokenNmb →
      status = some (cmdline.starts limit).length ∧ tkn = cmdline.starts limit) ∧
    (commandTokenNmb < (cmdline.starts limit).length → status = none ∧
      ∀ s s' : MicrorlT, s.cmdline = cmdline → s.cmdlen = limit → s.newLineHandler = some s' →
        s'.calls = s.calls)

/-- **`split` is right but for lines of exactly `_COMMAND_TOKEN_NMB`
words**, which it refuses: behind each word it looks whether the array is
full, and not whether another word comes. A line of more words is refused as
it should be. -/
theorem tokenises_iff (hlimit : limit ≤ 100) :
    Tokenises cmdline limit ↔ (cmdline.starts limit).length ≠ commandTokenNmb := by
  have hsplit : split cmdline limit = some (answer (cmdline.starts limit)) := split_eq hlimit
  constructor
  · rintro ⟨status, tkn, heq, -, hfew, -⟩ hten
    rw [answer, if_neg (by omega)] at hsplit
    obtain ⟨rfl, -⟩ := Prod.mk.inj (Option.some.inj (hsplit.symm.trans heq))
    exact absurd (hfew hten.le).1 (by simp)
  · intro hne
    rcases Nat.lt_or_gt_of_ne hne with hlt | hgt
    · rw [answer, if_pos hlt] at hsplit
      exact ⟨_, _, hsplit, hlt.le, fun _ => ⟨rfl, rfl⟩, fun h => absurd h (by omega)⟩
    · rw [answer, if_neg (by omega)] at hsplit
      refine ⟨_, _, hsplit, List.length_take_le _ _, fun h => absurd h (by omega),
        fun _ => ⟨rfl, ?_⟩⟩
      rintro s s' rfl rfl henter
      exact calls_of_refused hsplit henter

/-- Words of one letter, at every second cell of the line. -/
def letters : Block commandLineLen := ⟨fun k => if k % 2 = 0 then 97 else 0⟩

/-- Nine words, the most that are split. -/
theorem tokenises_iff_nine : Tokenises letters 18 :=
  (tokenises_iff (by decide)).2 (by decide +kernel)

/-- **Ten words are refused**, though the configuration allows them: the
number is looked at behind the tenth. -/
theorem ten_words_refused : (letters.starts 19).length = commandTokenNmb ∧
    (split letters 19).map Prod.fst = some none ∧ ¬ Tokenises letters 19 := by
  have hten : (letters.starts 19).length = commandTokenNmb := by
    decide +kernel
  refine ⟨hten, by decide +kernel, ?_⟩
  rintro ⟨status, tkn, heq, -, hfew, -⟩
  rw [(hfew hten.le).1, split_eq (by decide), answer, if_neg (by omega)] at heq
  simp at heq

end Microrl

end SlipBoard
