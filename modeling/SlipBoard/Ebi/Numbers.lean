import SlipBoard.Ebi.Model.Arguments
/-!
# Register access — the numbers

`parse_number` takes the last letter that marks a base for its mark,
whatever stands in front of it, and leaves what is behind to `strtoul`,
which takes nothing for zero and reads blanks, a sign and a second `0X`
(`parseNumber_answer_iff`). So it accepts every number as documented,
and the strings of `Slack` besides (`parsesAsDocumented_iff`).
-/

namespace SlipBoard

namespace Ebi

open Numerals Traced

variable {str front body s : List UInt8} {c : UInt8} {base k v : ℕ}

/-- The letters that mark a base, in the order they are looked for. -/
def marks : List (UInt8 × ℕ) := [(120, 16), (88, 16), (104, 16), (72, 16), (98, 2), (66, 2)]

/-- The last `c` of the string marks its base: none of the letters looked
for before is in it. -/
def Marked (str front : List UInt8) (c : UInt8) (body : List UInt8) (base : ℕ) : Prop :=
  str = front ++ c :: body ∧ c ∉ body ∧
    ∃ before after, marks = before ++ (c, base) :: after ∧ ∀ m ∈ before, m.1 ∉ str

/-- No letter of the string marks a base, so it is read as decimal. -/
def Unmarked (str : List UInt8) : Prop := ∀ m ∈ marks, m.1 ∉ str

/-! ## The mark -/

theorem strrchr_eq_none_iff : strrchr s c = none ↔ c ∉ s := by
  induction s with
  | nil => simp [strrchr]
  | cons x s ih =>
    rw [List.mem_cons, not_or, ← ih]
    cases h : strrchr s c with
    | some k => simp [strrchr, h]
    | none => simp [strrchr, h, eq_comm]

theorem strrchr_eq_some (h : strrchr s c = some k) :
    ∃ front body, s = front ++ c :: body ∧ c ∉ body ∧ k = front.length := by
  induction s generalizing k with
  | nil => simp [strrchr] at h
  | cons x s ih =>
    unfold strrchr at h
    cases hs : strrchr s c with
    | some j =>
      rw [hs] at h
      obtain ⟨front, body, rfl, hbody, rfl⟩ := ih hs
      exact ⟨x :: front, body, rfl, hbody, (Option.some.inj h).symm⟩
    | none =>
      simp only [hs, Option.ite_none_right_eq_some, Option.some.injEq] at h
      obtain ⟨rfl, rfl⟩ := h
      exact ⟨[], s, rfl, strrchr_eq_none_iff.1 hs, rfl⟩

theorem dataString_eq (str : List UInt8) : dataString str =
    ((marks.findSome? fun m => (strrchr str m.1).map fun i => (m.2, i + 1)).getD (10, 0)) := by
  simp only [dataString, marks, List.findSome?]
  cases strrchr str 120 <;> cases strrchr str 88 <;> cases strrchr str 104 <;>
    cases strrchr str 72 <;> cases strrchr str 98 <;> cases strrchr str 66 <;> rfl

theorem strrchr_append (hbody : c ∉ body) : strrchr (front ++ c :: body) c = some front.length := by
  induction front with
  | nil => simp [strrchr, strrchr_eq_none_iff.2 hbody]
  | cons x front ih => simp [strrchr, ih]

/-- **Where the data start**: behind the letter that marks the base, -/
theorem Marked.dataString (h : Marked str front c body base) :
    dataString str = (base, front.length + 1) := by
  obtain ⟨rfl, hbody, before, after, hmarks, hbefore⟩ := h
  have hfind : (marks.findSome? fun m =>
      (strrchr (front ++ c :: body) m.1).map fun i => (m.2, i + 1)) =
        some (base, front.length + 1) := by
    refine List.findSome?_eq_some_iff.2 ⟨before, (c, base), after, hmarks, ?_, fun m hm => ?_⟩
    · rw [strrchr_append hbody]
      rfl
    · rw [strrchr_eq_none_iff.2 (hbefore m hm)]
      rfl
  rw [dataString_eq, hfind]
  rfl

/-- or with the string. -/
theorem Unmarked.dataString (h : Unmarked str) : dataString str = (10, 0) := by
  have hfind : (marks.findSome? fun m => (strrchr str m.1).map fun i => (m.2, i + 1)) = none := by
    refine List.findSome?_eq_none_iff.2 fun m hm => ?_
    rw [strrchr_eq_none_iff.2 (h m hm)]
    rfl
  rw [dataString_eq, hfind]
  rfl

theorem marked_or_unmarked (str : List UInt8) :
    (∃ front c body base, Marked str front c body base) ∨ Unmarked str := by
  cases hfind : marks.findSome? fun m => (strrchr str m.1).map fun i => (m.2, i + 1) with
  | some r =>
    obtain ⟨before, ⟨c, base⟩, after, hmarks, hc, hbefore⟩ := List.findSome?_eq_some_iff.1 hfind
    obtain ⟨k, hk, rfl⟩ := Option.map_eq_some_iff.1 hc
    obtain ⟨front, body, hstr, hbody, rfl⟩ := strrchr_eq_some hk
    refine Or.inl ⟨front, c, body, base, hstr, hbody, before, after, hmarks, fun m hm => ?_⟩
    exact strrchr_eq_none_iff.1 (Option.map_eq_none_iff.1 (hbefore m hm))
  | none =>
    refine Or.inr fun m hm => ?_
    exact strrchr_eq_none_iff.1 (Option.map_eq_none_iff.1 (List.findSome?_eq_none_iff.1 hfind m hm))

theorem Marked.not_unmarked (h : Marked str front c body base) : ¬ Unmarked str := by
  intro hunmarked
  have hdata := h.dataString.symm.trans hunmarked.dataString
  simp at hdata

/-- There is one mark at most, so the base and the digits are determined by
the string. -/
theorem Marked.unique {front' body' : List UInt8} {c' : UInt8} {base' : ℕ}
    (h : Marked str front c body base) (h' : Marked str front' c' body' base') :
    front = front' ∧ c = c' ∧ body = body' ∧ base = base' := by
  have hdata := h.dataString.symm.trans h'.dataString
  simp only [Prod.mk.injEq, Nat.add_right_cancel_iff] at hdata
  obtain ⟨hfront, hrest⟩ := List.append_inj (h.1.symm.trans h'.1) hdata.2
  obtain ⟨hc, hbody⟩ := List.cons.inj hrest
  exact ⟨hfront, hc, hbody, hdata.1⟩

/-! ## What is accepted -/

/-- What `parse_number` makes of a string: behind its mark nothing, which
is zero, or a numeral in range; without a mark a decimal one. -/
def Accepts (str : List UInt8) (v : ℕ) : Prop :=
  (∃ front c body base, Marked str front c body base ∧
    (body = [] ∧ v = 0 ∨ Denotes ulongMax base body v)) ∨
  Unmarked str ∧ Denotes ulongMax 10 str v

/-- The rejection of a string: the line that says so, and the call of
`exit`. -/
def rejection (str : List UInt8) : List Event :=
  [.print (.text "Error: unknow data formaton in argument \"%s\"\n" [.str str]), .exit]

theorem Marked.accepts_iff (h : Marked str front c body base) :
    Accepts str v ↔ body = [] ∧ v = 0 ∨ Denotes ulongMax base body v := by
  constructor
  · rintro (⟨front', c', body', base', h', hv⟩ | ⟨hunmarked, -⟩)
    · obtain ⟨-, -, rfl, rfl⟩ := h.unique h'
      exact hv
    · exact absurd hunmarked h.not_unmarked
  · exact fun hv => Or.inl ⟨front, c, body, base, h, hv⟩

theorem Unmarked.accepts_iff (h : Unmarked str) : Accepts str v ↔ Denotes ulongMax 10 str v := by
  constructor
  · rintro (⟨front, c, body, base, hmarked, -⟩ | ⟨-, hv⟩)
    · exact absurd h hmarked.not_unmarked
    · exact hv
  · exact fun hv => Or.inr ⟨h, hv⟩

/-- The test of `parse_number`, where `data_string` is `s`: it passes for a
numeral, and for an empty rest behind something. -/
theorem test_iff {start : ℕ} (hlen : str.length = start + s.length) :
    (¬ (start + (strtoul ulongMax s base).used ≤ 0 ∨
        start + (strtoul ulongMax s base).used < str.length ∨
        (strtoul ulongMax s base).erange = true) ∧ (strtoul ulongMax s base).value = v) ↔
      (0 < start ∧ s = [] ∧ v = 0) ∨ Denotes ulongMax base s v := by
  have hle : (strtoul ulongMax s base).used ≤ s.length := strtoul_used_le
  have hiff := strtoul_eq_iff ulongMax s base v
  have hne : Denotes ulongMax base s v → s.length ≠ 0 := by
    rintro ⟨neg, digits, ⟨blanks, sign, mark, rfl, -, -, -, hdigits, -⟩, -⟩
    simp [hdigits]
  generalize strtoul ulongMax s base = r at hle hiff ⊢
  obtain ⟨value, used, erange⟩ := r
  simp only [Converted.mk.injEq] at hiff
  dsimp only at hle ⊢
  constructor
  · rintro ⟨hok, rfl⟩
    simp only [not_or, Bool.not_eq_true] at hok
    rcases hiff.1 ⟨rfl, by omega, hok.2.2⟩ with ⟨rfl, hzero⟩ | hv
    · rw [List.length_nil] at hle
      exact Or.inl ⟨by omega, rfl, hzero⟩
    · exact Or.inr hv
  · intro h
    have hpos : 0 < start ∨ s.length ≠ 0 := by
      rcases h with h | h
      · exact Or.inl h.1
      · exact Or.inr (hne h)
    obtain ⟨rfl, rfl, rfl⟩ := hiff.2 (h.imp_left fun h => h.2)
    simp only [Bool.false_eq_true, or_false, and_true]
    omega

/-- **`parse_number`** answers what it accepts, without an event, and
otherwise prints an error and exits. -/
theorem parseNumber_eq (str : List UInt8) :
    (∃ v, parseNumber str = pure v ∧ ∀ w, Accepts str w ↔ w = v) ∨
    (∀ v, ¬ Accepts str v) ∧ parseNumber str = ⟨rejection str, none⟩ := by
  -- both ways of finding the data come down to one test of `strtoul`
  have htest : ∀ {base start : ℕ}, dataString str = (base, start) →
      (∀ v, Accepts str v ↔ ¬ (start + (strtoul ulongMax (str.drop start) base).used ≤ 0 ∨
        start + (strtoul ulongMax (str.drop start) base).used < str.length ∨
        (strtoul ulongMax (str.drop start) base).erange = true) ∧
        (strtoul ulongMax (str.drop start) base).value = v) →
      (∃ v, parseNumber str = pure v ∧ ∀ w, Accepts str w ↔ w = v) ∨
      (∀ v, ¬ Accepts str v) ∧ parseNumber str = ⟨rejection str, none⟩ := by
    intro base start hdata hiff
    unfold parseNumber
    simp only [hdata]
    split
    · rename_i hbad
      exact Or.inr ⟨fun v hv => ((hiff v).1 hv).1 hbad, rfl⟩
    · rename_i hok
      exact Or.inl ⟨_, rfl, fun w => (hiff w).trans ((and_iff_right hok).trans eq_comm)⟩
  rcases marked_or_unmarked str with ⟨front, c, body, base, h⟩ | h
  · refine htest h.dataString fun v => ?_
    have hdrop : str.drop (front.length + 1) = body := by
      rw [h.1, ← List.drop_drop, List.drop_left]
      rfl
    have hlen : str.length = front.length + 1 + body.length := by
      rw [h.1, List.length_append, List.length_cons]
      omega
    rw [hdrop, test_iff hlen, h.accepts_iff, and_iff_right (Nat.succ_pos _)]
  · refine htest h.dataString fun v => ?_
    rw [List.drop_zero, test_iff (Nat.zero_add _).symm, h.accepts_iff]
    simp

theorem parseNumber_answer_iff : (parseNumber str).answer = some v ↔ Accepts str v := by
  rcases parseNumber_eq str with ⟨w, heq, hiff⟩ | ⟨hnone, heq⟩
  · rw [heq, hiff, answer_pure, Option.some.injEq, eq_comm]
  · rw [heq]
    exact iff_of_false (by simp) (hnone v)

/-! ## What is documented -/

/-- **The documented numbers**: an optional `0`, a mark and digits of its
base, or decimal digits; in range. -/
def Documented (str : List UInt8) (v : ℕ) : Prop :=
  v ≤ ulongMax ∧
    ((∃ front c body base, str = front ++ c :: body ∧ (c, base) ∈ marks ∧
      (front = [] ∨ front = [48]) ∧ Plain base body ∧ v = magnitude base body) ∨
    Plain 10 str ∧ v = magnitude 10 str)

/-- **The strings it lets pass besides**: in front of the mark there is
something other than a `0`, or what is behind it is nothing, or a numeral
with a blank, a sign or a second mark; without a mark, a decimal numeral
with a blank or a sign. -/
def Slack (str : List UInt8) : Prop :=
  (∃ front c body base, Marked str front c body base ∧
    (body = [] ∨ ∃ v, Denotes ulongMax base body v) ∧
    ¬ ((front = [] ∨ front = [48]) ∧ Plain base body)) ∨
  Unmarked str ∧ (∃ v, Denotes ulongMax 10 str v) ∧ ¬ Plain 10 str

/-- The digits of a documented number hold no mark that is looked for
before its own. -/
theorem marked_of_plain (hc : (c, base) ∈ marks) (hfront : front = [] ∨ front = [48])
    (hbody : Plain base body) : Marked (front ++ c :: body) front c body base := by
  have hno : ∀ x, isDigit base x = false → x ∉ body := by
    intro x hx hmem
    rw [hbody.2 x hmem] at hx
    cases hx
  have hall : isDigit base c = false ∧ ∃ before after, marks = before ++ (c, base) :: after ∧
      ∀ m ∈ before, m.1 ≠ 48 ∧ m.1 ≠ c ∧ isDigit base m.1 = false := by
    simp only [marks, List.mem_cons, Prod.mk.injEq, List.not_mem_nil, or_false] at hc
    rcases hc with ⟨rfl, rfl⟩ | ⟨rfl, rfl⟩ | ⟨rfl, rfl⟩ | ⟨rfl, rfl⟩ | ⟨rfl, rfl⟩ | ⟨rfl, rfl⟩
    · exact ⟨by decide, marks.take 0, marks.drop 1, rfl, by decide⟩
    · exact ⟨by decide, marks.take 1, marks.drop 2, rfl, by decide⟩
    · exact ⟨by decide, marks.take 2, marks.drop 3, rfl, by decide⟩
    · exact ⟨by decide, marks.take 3, marks.drop 4, rfl, by decide⟩
    · exact ⟨by decide, marks.take 4, marks.drop 5, rfl, by decide⟩
    · exact ⟨by decide, marks.take 5, marks.drop 6, rfl, by decide⟩
  obtain ⟨hcbody, before, after, hmarks, hbefore⟩ := hall
  refine ⟨rfl, hno c hcbody, before, after, hmarks, fun m hm hmem => ?_⟩
  obtain ⟨hzero, hne, hdigit⟩ := hbefore m hm
  rcases List.mem_append.1 hmem with hmem | hmem
  · rcases hfront with rfl | rfl
    · cases hmem
    · exact hzero (List.mem_singleton.1 hmem)
  · rcases List.mem_cons.1 hmem with heq | hmem
    · exact hne heq
    · exact hno _ hdigit hmem

theorem unmarked_of_plain (h : Plain 10 str) : Unmarked str := by
  have hno : ∀ m ∈ marks, isDigit 10 m.1 = false := by decide
  intro m hm hmem
  have hdigit := h.2 _ hmem
  rw [hno m hm] at hdigit
  cases hdigit

/-- **Every documented number is accepted**, with the value it stands for. -/
theorem Documented.accepts (h : Documented str v) : Accepts str v := by
  obtain ⟨hmax, ⟨front, c, body, base, rfl, hc, hfront, hbody, rfl⟩ | ⟨hplain, rfl⟩⟩ := h
  · exact Or.inl ⟨front, c, body, base, marked_of_plain hc hfront hbody,
      Or.inr (hbody.denotes hmax)⟩
  · exact Or.inr ⟨unmarked_of_plain hplain, hplain.denotes hmax⟩

/-- What is accepted is documented, unless it is let pass. -/
theorem Accepts.documented (h : Accepts str v) (hslack : ¬ Slack str) : Documented str v := by
  rcases h with ⟨front, c, body, base, hmarked, hv⟩ | ⟨hunmarked, hv⟩
  · by_cases hdoc : (front = [] ∨ front = [48]) ∧ Plain base body
    · obtain ⟨hfront, hbody⟩ := hdoc
      have hden := hv.resolve_left fun h => hbody.1 h.1
      obtain ⟨hmag, hmax⟩ := hbody.of_denotes hden
      obtain ⟨before, after, hmarks, -⟩ := hmarked.2.2
      exact ⟨hmax, Or.inl ⟨front, c, body, base, hmarked.1, by rw [hmarks]; simp, hfront, hbody,
        hmag⟩⟩
    · refine absurd (Or.inl ⟨front, c, body, base, hmarked, ?_, hdoc⟩) hslack
      exact hv.imp (fun h => h.1) fun h => ⟨v, h⟩
  · by_cases hplain : Plain 10 str
    · obtain ⟨hmag, hmax⟩ := hplain.of_denotes hv
      exact ⟨hmax, Or.inr ⟨hplain, hmag⟩⟩
    · exact absurd (Or.inr ⟨hunmarked, ⟨v, hv⟩, hplain⟩) hslack

/-- What is let pass is accepted, and not documented. -/
theorem Slack.accepts (h : Slack str) : ∃ v, Accepts str v ∧ ¬ Documented str v := by
  rcases h with ⟨front, c, body, base, hmarked, hv, hdoc⟩ | ⟨hunmarked, ⟨v, hv⟩, hplain⟩
  · have hacc : ∃ v, Accepts str v := by
      rcases hv with rfl | ⟨v, hv⟩
      · exact ⟨0, Or.inl ⟨front, c, [], base, hmarked, Or.inl ⟨rfl, rfl⟩⟩⟩
      · exact ⟨v, Or.inl ⟨front, c, body, base, hmarked, Or.inr hv⟩⟩
    obtain ⟨v, hacc⟩ := hacc
    refine ⟨v, hacc, ?_⟩
    rintro ⟨-, ⟨front', c', body', base', rfl, hc, hfront, hbody, -⟩ | ⟨hplain, -⟩⟩
    · obtain ⟨rfl, rfl, rfl, rfl⟩ := hmarked.unique (marked_of_plain hc hfront hbody)
      exact hdoc ⟨hfront, hbody⟩
    · exact hmarked.not_unmarked (unmarked_of_plain hplain)
  · refine ⟨v, Or.inr ⟨hunmarked, hv⟩, ?_⟩
    rintro ⟨-, ⟨front', c', body', base', rfl, hc, hfront, hbody, -⟩ | ⟨hplain', -⟩⟩
    · exact (marked_of_plain hc hfront hbody).not_unmarked hunmarked
    · exact hplain hplain'

/-- `parse_number` answers a number exactly where it is documented, and
without a word, and reports every other string. -/
def ParsesAsDocumented (str : List UInt8) : Prop :=
  (∀ v, (parseNumber str).answer = some v ∧ (parseNumber str).log = [] ↔ Documented str v) ∧
    ((∀ v, ¬ Documented str v) → parseNumber str = ⟨rejection str, none⟩)

/-- **`parse_number` accepts what is documented**, with the value it stands
for, and rejects everything else, but for the strings it lets pass
(`Slack`): it looks for a mark anywhere, hands what is behind it to
`strtoul`, and does not look at what is in front. -/
theorem parsesAsDocumented_iff (str : List UInt8) : ParsesAsDocumented str ↔ ¬ Slack str := by
  constructor
  · rintro ⟨hiff, -⟩ hslack
    obtain ⟨v, hacc, hdoc⟩ := hslack.accepts
    refine hdoc ((hiff v).1 ⟨parseNumber_answer_iff.2 hacc, ?_⟩)
    rcases parseNumber_eq str with ⟨w, heq, -⟩ | ⟨hnone, -⟩
    · rw [heq]
      rfl
    · exact absurd hacc (hnone v)
  · intro hslack
    have hiff : ∀ v, Accepts str v ↔ Documented str v := fun v =>
      ⟨fun h => h.documented hslack, fun h => h.accepts⟩
    rcases parseNumber_eq str with ⟨w, heq, hw⟩ | ⟨hnone, heq⟩
    · refine ⟨fun v => ?_, fun hno => absurd ((hiff w).1 ((hw w).2 rfl)) (hno w)⟩
      rw [parseNumber_answer_iff, hiff, heq]
      exact and_iff_left rfl
    · refine ⟨fun v => ?_, fun _ => heq⟩
      rw [parseNumber_answer_iff, hiff, heq]
      exact iff_of_false (fun h => hnone v ((hiff v).2 h.1)) fun h => hnone v ((hiff v).2 h)

/-- **A mark alone is a zero**: "0x" is answered, though it has no
digit. -/
theorem mark_alone_accepted : (parseNumber (ascii "0x")).answer = some 0 ∧
    (∀ v, ¬ Documented (ascii "0x") v) ∧ ¬ ParsesAsDocumented (ascii "0x") := by
  have hanswer : (parseNumber (ascii "0x")).answer = some 0 := by
    decide +kernel
  have hmarked : Marked (ascii "0x") [48] 120 [] 16 :=
    ⟨by decide, by decide, [], marks.drop 1, rfl, by simp⟩
  have hdoc : ∀ v, ¬ Documented (ascii "0x") v := by
    rintro v ⟨-, ⟨front, c, body, base, heq, hc, hfront, hbody, -⟩ | ⟨hplain, -⟩⟩
    · have hmarked' := marked_of_plain hc hfront hbody
      rw [← heq] at hmarked'
      obtain ⟨-, -, rfl, -⟩ := hmarked.unique hmarked'
      exact hbody.1 rfl
    · exact hmarked.not_unmarked (unmarked_of_plain hplain)
  refine ⟨hanswer, hdoc, fun h => ?_⟩
  rw [h.2 hdoc] at hanswer
  cases hanswer

/-! ## Addresses and data -/

/-- A string that `parse_address` accepts: a number up to the greatest
address of the configuration. -/
def IsAddress (cfg : Config) (str : List UInt8) : Prop := ∃ v, Accepts str v ∧ v ≤ cfg.maxAddress

/-- A string `parse_data` accepts for a word of so many bytes. -/
def IsData (dataBytes : ℕ) (str : List UInt8) : Prop := ∃ v, Accepts str v ∧ v < 256 ^ dataBytes

/-- An error that exits prints its line, and nothing comes behind it. -/
theorem exitFailure_eq {α : Type} (format : String) (args : List Arg) :
    (exitFailure format args : Traced Event α) = ⟨[.print (.text format args), .exit], none⟩ := rfl

theorem parseAddress_eq (cfg : Config) (str : List UInt8) :
    (∃ v, parseAddress cfg str = pure v ∧ v ≤ cfg.maxAddress ∧ ∀ w, Accepts str w ↔ w = v) ∨
    ¬ IsAddress cfg str ∧
      ∃ format args, parseAddress cfg str = ⟨[.print (.text format args), .exit], none⟩ := by
  unfold parseAddress
  rcases parseNumber_eq str with ⟨v, heq, hiff⟩ | ⟨hnone, heq⟩
  · rw [heq]
    by_cases hmax : v > cfg.maxAddress
    · refine Or.inr ⟨?_, _, _, (if_pos hmax : ite _ _ _ = _)⟩
      rintro ⟨w, hw, hle⟩
      rw [(hiff w).1 hw] at hle
      omega
    · exact Or.inl ⟨v, (if_neg hmax : ite _ _ _ = _), by omega, hiff⟩
  · rw [heq]
    refine Or.inr ⟨?_, _, _, rfl⟩
    rintro ⟨w, hw, -⟩
    exact hnone w hw

theorem parseData_eq {dataBytes : ℕ} (hbytes : dataBytes ∈ [1, 2, 4]) (str : List UInt8) :
    (∃ v, parseData dataBytes str = pure v ∧ v < 256 ^ dataBytes ∧ ∀ w, Accepts str w ↔ w = v) ∨
    ¬ IsData dataBytes str ∧
      ∃ format args, parseData dataBytes str = ⟨[.print (.text format args), .exit], none⟩ := by
  unfold parseData
  rcases parseNumber_eq str with ⟨v, heq, hiff⟩ | ⟨hnone, heq⟩
  · rw [heq]
    have hnot : ¬ v < 256 ^ dataBytes → ¬ IsData dataBytes str := by
      rintro hge ⟨w, hw, hlt⟩
      rw [(hiff w).1 hw] at hlt
      exact hge hlt
    simp only [List.mem_cons, List.not_mem_nil, or_false] at hbytes
    rcases hbytes with rfl | rfl | rfl
    · by_cases hv : v > 0xFF
      · exact Or.inr ⟨hnot (by omega), _, _, (if_pos ⟨rfl, hv⟩ : ite _ _ _ = _)⟩
      · exact Or.inl ⟨v, (if_neg fun h => hv h.2 : ite _ _ _ = _), by omega, hiff⟩
    · by_cases hv : v > 0xFFFF
      · exact Or.inr ⟨hnot (by omega), _, _, (if_pos ⟨rfl, hv⟩ : ite _ _ _ = _)⟩
      · exact Or.inl ⟨v, (if_neg fun h => hv h.2 : ite _ _ _ = _), by omega, hiff⟩
    · by_cases hv : v > 0xFFFFFFFF
      · exact Or.inr ⟨hnot (by omega), _, _, (if_pos ⟨rfl, hv⟩ : ite _ _ _ = _)⟩
      · exact Or.inl ⟨v, (if_neg fun h => hv h.2 : ite _ _ _ = _), by omega, hiff⟩
  · rw [heq]
    refine Or.inr ⟨?_, _, _, rfl⟩
    rintro ⟨w, hw, -⟩
    exact hnone w hw

end Ebi

end SlipBoard
