import SlipBoard.Ebi.Options
/-!
# Register access — getopt

The loop over the options goes through the items one by one
(`parseOptions_ends`), and leaves with the options and the words that
are left, unless an item makes it return or exit, or `getopt` asks for a
word behind the last. `getopt` knows nothing of `argc`: what ends the
words for it is a null pointer, and where there is none it reads what is
behind them.
-/

namespace SlipBoard

namespace Ebi

open Numerals Traced

variable {cfg : Config} {name w : List UInt8} {o : Options} {c : UInt8}

/-! ## What getopt finds -/

/-- An argument vector: its words, and behind them the null pointer, where
there is one. -/
def vector (terminated : Bool) (words : List (List UInt8)) : List (Option (List UInt8)) :=
  words.map some ++ if terminated then [none] else []

theorem readArgv_of_some {argv : List (Option (List UInt8))} {k : ℕ} {a : Option (List UInt8)}
    (h : argv[k]? = some a) : readArgv argv k = ⟨[.argv k], some a⟩ := by
  unfold readArgv
  rw [h]
  rfl

theorem readArgv_of_none {argv : List (Option (List UInt8))} {k : ℕ} (h : argv[k]? = none) :
    readArgv argv k = ⟨[.argv k], none⟩ := by
  unfold readArgv
  rw [h]
  rfl

theorem strchr_optstring (c : UInt8) :
    (takesValue c = true ∧ ∃ k, strchr optstring c = some k ∧ optstring[k + 1]? = some 58) ∨
    (takesValue c = false ∧
      (strchr optstring c = none ∨
        ∃ k, strchr optstring c = some k ∧ optstring[k + 1]? ≠ some 58)) := by
  by_cases hc : c ∈ optstring
  · have hall : ∀ c ∈ optstring,
        (takesValue c = true ∧ optstring[optstring.idxOf c + 1]? = some 58) ∨
        (takesValue c = false ∧ optstring[optstring.idxOf c + 1]? ≠ some 58) := by
      decide +kernel
    have hat : strchr optstring c = some (optstring.idxOf c) := if_pos hc
    exact (hall c hc).imp (fun h => ⟨h.1, _, hat, h.2⟩) fun h => ⟨h.1, Or.inr ⟨_, hat, h.2⟩⟩
  · have hmem : ∀ c, takesValue c = true → c ∈ optstring := by
      intro c h
      rcases takesValue_iff.1 h with rfl | rfl | rfl <;> decide
    refine Or.inr ⟨?_, Or.inl (if_neg hc)⟩
    rw [Bool.eq_false_iff]
    exact fun h => hc (hmem c h)

section

variable {argv tail : List (Option (List UInt8))} {g : Getopt} {k p : ℕ} {optopt : UInt8}
  {optarg : Option (List UInt8)} {cs : List UInt8}

theorem getopt_zero : getopt argv ⟨0, p, optopt, optarg⟩ = getopt argv ⟨1, 1, optopt, optarg⟩ := rfl

theorem getopt_dashes (hk : k ≠ 0) (hw : argv[k]? = some (some (ascii "--"))) :
    getopt argv ⟨k, p, optopt, optarg⟩ = ⟨[.argv k], some (⟨k + 1, p, optopt, optarg⟩, none)⟩ := by
  simp only [getopt, if_neg hk, readArgv_of_some hw, mk_some_bind]
  rfl

theorem getopt_other (hk : k ≠ 0) (hw : argv[k]? = some (some w)) (hdash : w ≠ ascii "--")
    (hopt : isOption w = false) :
    getopt argv ⟨k, p, optopt, optarg⟩ = ⟨[.argv k], some (⟨k, p, optopt, optarg⟩, none)⟩ := by
  have hno : w.head? ≠ some 45 ∨ ¬ isalnum (w.getD 1 0) := by
    by_contra h
    exact Bool.false_ne_true (hopt.symm.trans (isOption_iff.2 h))
  simp only [getopt, if_neg hk, readArgv_of_some hw, mk_some_bind, if_neg hdash, if_pos hno]
  rfl

theorem getopt_null (hk : k ≠ 0) (hw : argv[k]? = some none) :
    getopt argv ⟨k, p, optopt, optarg⟩ = ⟨[.argv k], some (⟨k, p, optopt, optarg⟩, none)⟩ := by
  simp only [getopt, if_neg hk, readArgv_of_some hw, mk_some_bind]
  rfl

theorem getopt_unassigned (hk : k ≠ 0) (hw : argv[k]? = none) :
    getopt argv ⟨k, p, optopt, optarg⟩ = ⟨[.argv k], none⟩ := by
  simp only [getopt, if_neg hk, readArgv_of_none hw, mk_none_bind]

/-- At a letter of an option word, with `cs` behind it. -/
structure AtLetter (argv : List (Option (List UInt8))) (k p : ℕ) (w : List UInt8) (c : UInt8)
    (cs : List UInt8) : Prop where
  pos : k ≠ 0
  word : argv[k]? = some (some w)
  dash : w ≠ ascii "--"
  option : isOption w = true
  drop : w.drop p = c :: cs

theorem AtLetter.at (h : AtLetter argv k p w c cs) : w[p]? = some c := by
  have hhead := congrArg (fun l => l[0]?) h.drop
  simpa using hhead

theorem AtLetter.behind (h : AtLetter argv k p w c cs) : w.drop (p + 1) = cs := by
  have htail := congrArg (List.drop 1) h.drop
  rwa [List.drop_drop] at htail

theorem AtLetter.lt_iff (h : AtLetter argv k p w c cs) : p + 1 < w.length ↔ cs ≠ [] := by
  rw [← h.behind, Ne, List.drop_eq_nil_iff, not_le]

theorem getopt_letter (h : AtLetter argv k p w c cs) (optopt : UInt8) (optarg : Option (List UInt8)) :
    getopt argv ⟨k, p, optopt, optarg⟩ = emit (.argv k) >>= fun _ =>
      match strchr optstring c with
      | none => return (⟨k, p, c, optarg⟩, some 63)
      | some j =>
        if optstring[j + 1]? = some 58 then
          if cs ≠ [] then return (⟨k + 1, 1, c, some cs⟩, some c)
          else readArgv argv (k + 1) >>= fun next =>
            match next with
            | some _ => readArgv argv (k + 1) >>= fun next => return (⟨k + 2, 1, c, next⟩, some c)
            | none => return (⟨k, p, c, optarg⟩, some 63)
        else if cs ≠ [] then return (⟨k, p + 1, c, optarg⟩, some c)
        else return (⟨k + 1, 1, c, optarg⟩, some c) := by
  simp only [getopt, if_neg h.pos, readArgv_of_some h.word, mk_some_bind, if_neg h.dash,
    if_neg (isOption_iff.1 h.option), h.at, h.lt_iff, h.behind]
  rfl

/-- A letter without a value, or one that is not known. -/
theorem getopt_flag (h : AtLetter argv k p w c cs) (hc : takesValue c = false) (optopt : UInt8)
    (optarg : Option (List UInt8)) :
    (c ∉ optstring ∧ getopt argv ⟨k, p, optopt, optarg⟩ =
      ⟨[.argv k], some (⟨k, p, c, optarg⟩, some 63)⟩) ∨
    getopt argv ⟨k, p, optopt, optarg⟩ = ⟨[.argv k], some (if cs ≠ [] then ⟨k, p + 1, c, optarg⟩
      else ⟨k + 1, 1, c, optarg⟩, some c)⟩ := by
  rw [getopt_letter h]
  rcases strchr_optstring c with ⟨hvalue, -⟩ | ⟨-, hj | ⟨j, hj, hcolon⟩⟩
  · exact absurd (hvalue.symm.trans hc) Bool.noConfusion
  · refine Or.inl ⟨fun hmem => ?_, by rw [hj]; rfl⟩
    rw [strchr, if_pos hmem] at hj
    cases hj
  · refine Or.inr ?_
    simp only [hj, if_neg hcolon]
    split <;> rfl

/-- A value behind its letter, -/
theorem getopt_attached (h : AtLetter argv k p w c cs) (hc : takesValue c = true) (hcs : cs ≠ [])
    (optopt : UInt8) (optarg : Option (List UInt8)) :
    getopt argv ⟨k, p, optopt, optarg⟩ =
      ⟨[.argv k], some (⟨k + 1, 1, c, some cs⟩, some c)⟩ := by
  rcases strchr_optstring c with ⟨-, j, hj, hcolon⟩ | ⟨hflag, -⟩
  · rw [getopt_letter h]
    simp only [hj, if_pos hcolon, if_pos hcs]
    rfl
  · exact absurd (hc.symm.trans hflag) Bool.noConfusion

/-- and one that is the next entry, where there is one. -/
theorem getopt_next (h : AtLetter argv k p w c []) (hc : takesValue c = true) (optopt : UInt8)
    (optarg : Option (List UInt8)) :
    getopt argv ⟨k, p, optopt, optarg⟩ = emit (.argv k) >>= fun _ =>
      readArgv argv (k + 1) >>= fun next =>
        match next with
        | some _ => readArgv argv (k + 1) >>= fun next => return (⟨k + 2, 1, c, next⟩, some c)
        | none => return (⟨k, p, c, optarg⟩, some 63) := by
  rcases strchr_optstring c with ⟨-, j, hj, hcolon⟩ | ⟨hflag, -⟩
  · rw [getopt_letter h]
    simp only [hj, if_pos hcolon, ne_eq, not_true_eq_false, if_false]
  · exact absurd (hc.symm.trans hflag) Bool.noConfusion

end

/-! ## The loop -/

/-- **How the loop over the options ends.** The words are those below
`N`. It reads some of them on its way and goes through the items one by
one; what is behind the last word it reads where the words run out. -/
inductive Ends (cfg : Config) (name : List UInt8) (terminated : Bool) (N : ℕ) :
    Options → List Item → Stop → Traced Event (Option (Options × ℕ)) → Prop
  | read {o : Options} {is : List Item} {stop : Stop} {k : ℕ}
    {x : Traced Event (Option (Options × ℕ))} (hk : k < N)
    (h : Ends cfg name terminated N o is stop x) :
    Ends cfg name terminated N o is stop ⟨.argv k :: x.log, x.answer⟩
  | pass {o : Options} {it : Item} {is : List Item} {stop : Stop}
    {x : Traced Event (Option (Options × ℕ))} (hit : Passes cfg it)
    (h : Ends cfg name terminated N (o.add it) is stop x) :
    Ends cfg name terminated N o (it :: is) stop x
  | exits {o : Options} {it : Item} {is : List Item} {stop : Stop} (hit : Exits cfg it)
    (format : String) (args : List Arg) :
    Ends cfg name terminated N o (it :: is) stop ⟨[.print (.text format args), .exit], none⟩
  | help {o : Options} {it : Item} {is : List Item} {stop : Stop} (hpass : ¬ Passes cfg it)
    (hexits : ¬ Exits cfg it) :
    Ends cfg name terminated N o (it :: is) stop ⟨[.print (.help name)], some none⟩
  | rest (o : Options) (rest : List (List UInt8)) :
    Ends cfg name terminated N o [] (.rest rest) ⟨[], some (some (o, N - rest.length))⟩
  | runsOut (o : Options) :
    Ends cfg name terminated N o [] .runsOut
      ⟨[.argv N], if terminated then some (some (o, N)) else none⟩
  | lacks (o : Options) (c : UInt8) :
    Ends cfg name terminated N o [] (.lacks c)
      (if terminated then ⟨[.argv N, .print (.help name)], some none⟩ else ⟨[.argv N], none⟩)

section

variable {argv : List (Option (List UInt8))} {terminated : Bool} {g : Getopt} {k p N fuel : ℕ}
  {optopt : UInt8} {optarg : Option (List UInt8)} {cs : List UInt8} {it : Item} {is : List Item}
  {stop : Stop} {x : Traced Event (Option (Options × ℕ))}

/-- What an item does, and the rest of the loop. -/
theorem ends_handled {y : Traced Event (Option Options)} (hy : Handled cfg name o it y)
    {f : Options → Traced Event (Option (Options × ℕ))}
    (h : Passes cfg it → Ends cfg name terminated N (o.add it) is stop (f (o.add it))) :
    Ends cfg name terminated N o (it :: is) stop (y >>= fun r =>
      match r with
      | none => return none
      | some o => f o) := by
  rcases hy with hit | ⟨hit, format, args⟩ | ⟨hpass, hexits⟩
  · exact .pass hit (h hit)
  · exact .exits hit format args
  · exact .help hpass hexits

/-- Behind words that are read the loop ends as it does without them. -/
theorem Ends.behind {log : List Event} (hlog : ∀ e ∈ log, ∃ k < N, e = .argv k)
    (h : Ends cfg name terminated N o is stop x) :
    Ends cfg name terminated N o is stop ((⟨log, some ()⟩ : Traced Event Unit) >>= fun _ => x) := by
  induction log with
  | nil => exact h
  | cons e log ih =>
    obtain ⟨k, hk, rfl⟩ := hlog e List.mem_cons_self
    exact .read hk (ih fun e he => hlog e (List.mem_cons_of_mem _ he))

theorem ends_rest {left : List (List UInt8)} (hk : k + left.length = N) :
    Ends cfg name terminated N o [] (.rest left) (pure (some (o, k))) := by
  have hleft : N - left.length = k := by omega
  rw [← hleft]
  exact .rest o left

theorem parseOptions_succ {log : List Event} {g' : Getopt} {opt : UInt8}
    (hg : getopt argv g = ⟨log, some (g', some opt)⟩) :
    parseOptions cfg argv name (fuel + 1) g o = (⟨log, some ()⟩ : Traced Event Unit) >>= fun _ =>
      handleOption cfg name o opt g'.optarg >>= fun r =>
        match r with
        | none => return none
        | some o => parseOptions cfg argv name fuel g' o := by
  rw [parseOptions, hg]
  rfl

theorem parseOptions_end {log : List Event} {g' : Getopt}
    (hg : getopt argv g = ⟨log, some (g', none)⟩) :
    parseOptions cfg argv name (fuel + 1) g o = (⟨log, some ()⟩ : Traced Event Unit) >>= fun _ =>
      pure (some (o, g'.optind)) := by
  rw [parseOptions, hg]
  rfl

theorem parseOptions_stop {log : List Event} (hg : getopt argv g = ⟨log, none⟩) :
    parseOptions cfg argv name (fuel + 1) g o = ⟨log, none⟩ := by
  rw [parseOptions, hg, mk_none_bind]

/-- The vector from `k` on is these words, and the NULL behind them where
the vector has one. -/
def WordsAt (terminated : Bool) (argv : List (Option (List UInt8))) (k : ℕ)
    (ws : List (List UInt8)) : Prop :=
  argv.drop k = vector terminated ws

theorem WordsAt.head (h : WordsAt terminated argv k (w :: ws)) : argv[k]? = some (some w) := by
  have hhead := congrArg (fun l => l[0]?) h
  simpa [vector] using hhead

theorem WordsAt.tail (h : WordsAt terminated argv k (w :: ws)) :
    WordsAt terminated argv (k + 1) ws := by
  have htail := congrArg (List.drop 1) h
  rwa [List.drop_drop] at htail

theorem WordsAt.behind (h : WordsAt terminated argv k []) :
    argv[k]? = if terminated then some none else none := by
  have hhead := congrArg (fun l => l[0]?) h
  simp only [List.getElem?_drop, Nat.add_zero] at hhead
  rw [hhead]
  cases terminated <;> rfl

/-- Rounds of the loop enough for the words: one for each letter, and one
for the word. -/
def rounds (ws : List (List UInt8)) : ℕ := (ws.map fun w => w.length + 1).sum

theorem rounds_cons (w : List UInt8) (ws : List (List UInt8)) :
    rounds (w :: ws) = w.length + 1 + rounds ws := rfl

/-- The loop ends as the items say when it stands in front of a word, for
every state of `optopt` and `optarg`. -/
def EndsAtWord (cfg : Config) (name : List UInt8) (terminated : Bool) (N : ℕ)
    (argv : List (Option (List UInt8))) (fuel : ℕ) : Prop :=
  ∀ (k : ℕ) (ws : List (List UInt8)) (o : Options) (optopt : UInt8) (optarg : Option (List UInt8)),
    k ≠ 0 → WordsAt terminated argv k ws → k + ws.length = N → rounds ws < fuel →
      Ends cfg name terminated N o (items ws).1 (items ws).2
        (parseOptions cfg argv name fuel ⟨k, 1, optopt, optarg⟩ o)

/-- The loop ends as the items say when it stands at a letter within an
option word. -/
def EndsAtLetter (cfg : Config) (name : List UInt8) (terminated : Bool) (N : ℕ)
    (argv : List (Option (List UInt8))) (fuel : ℕ) : Prop :=
  ∀ (k p : ℕ) (w cs : List UInt8) (c : UInt8) (ws : List (List UInt8)) (o : Options) (optopt : UInt8)
    (optarg : Option (List UInt8)),
    k ≠ 0 → WordsAt terminated argv k (w :: ws) → k + 1 + ws.length = N → w ≠ ascii "--" →
      isOption w = true → w.drop p = c :: cs → cs.length + 1 + rounds ws < fuel →
      Ends cfg name terminated N o (itemsFrom (c :: cs) ws).1 (itemsFrom (c :: cs) ws).2
        (parseOptions cfg argv name fuel ⟨k, p, optopt, optarg⟩ o)

theorem endsAtWord_succ (h : EndsAtLetter cfg name terminated N argv (fuel + 1)) :
    EndsAtWord cfg name terminated N argv (fuel + 1) := by
  intro k ws o optopt optarg hk hws hN hfuel
  match ws with
  | [] =>
    obtain rfl : k = N := by simpa using hN
    have hbehind := hws.behind
    cases terminated with
    | true =>
      rw [parseOptions_end (getopt_null hk hbehind)]
      exact .runsOut o
    | false =>
      rw [parseOptions_stop (getopt_unassigned hk hbehind)]
      exact .runsOut o
  | w :: ws =>
    have hlt : k < N := by
      rw [List.length_cons] at hN
      omega
    have hreads : ∀ e ∈ [Event.argv k], ∃ j < N, e = .argv j := by
      simpa using hlt
    by_cases hdash : w = ascii "--"
    · subst hdash
      rw [parseOptions_end (getopt_dashes hk hws.head), items, if_pos rfl]
      exact .behind hreads (ends_rest ((Nat.succ_add_eq_add_succ k _).trans hN))
    · cases hopt : isOption w with
      | false =>
        rw [parseOptions_end (getopt_other hk hws.head hdash hopt), items, if_neg hdash,
          if_pos hopt]
        exact .behind hreads (ends_rest hN)
      | true =>
        rw [items_option hdash hopt]
        obtain ⟨d, c, cs, rfl⟩ : ∃ d c cs, w = d :: c :: cs := by
          rcases w with _ | ⟨d, _ | ⟨c, cs⟩⟩
          · simp [isOption] at hopt
          · simp [isOption, isalnum] at hopt
          · exact ⟨d, c, cs, rfl⟩
        rw [rounds_cons, List.length_cons, List.length_cons] at hfuel
        exact h k 1 _ cs c ws o optopt optarg hk hws
          ((Nat.succ_add_eq_add_succ k _).trans hN) hdash hopt rfl (by omega)

/-- A letter with a value: the value is the rest of its word, or the next
word, or is lacking. -/
theorem ends_of_value (hword : EndsAtWord cfg name terminated N argv fuel) {w : List UInt8}
    {ws : List (List UInt8)} (hat : AtLetter argv k p w c cs) (hc : takesValue c = true)
    (hws : WordsAt terminated argv (k + 1) ws) (hN : k + 1 + ws.length = N)
    (hfuel : cs.length + 1 + rounds ws < fuel + 1) :
    Ends cfg name terminated N o (itemsFrom (c :: cs) ws).1 (itemsFrom (c :: cs) ws).2
      (parseOptions cfg argv name (fuel + 1) ⟨k, p, optopt, optarg⟩ o) := by
  have hreads : ∀ e ∈ [Event.argv k], ∃ j < N, e = .argv j := by
    simpa using (by omega : k < N)
  rcases eq_or_ne cs [] with rfl | hcs
  · have hg := getopt_next hat hc optopt optarg
    match ws with
    | [] =>
      -- the value would be behind the last word
      obtain rfl : k + 1 = N := hN
      have hbehind := hws.behind
      rw [itemsFrom_lacks hc]
      cases terminated with
      | true =>
        rw [readArgv_of_some hbehind] at hg
        rw [parseOptions_succ (hg.trans rfl)]
        show Ends cfg name true (k + 1) o [] (.lacks c)
          ((⟨[.argv k], some ()⟩ : Traced Event Unit) >>=
            fun _ => ⟨[.argv (k + 1), .print (.help name)], some none⟩)
        exact .behind hreads (.lacks o c)
      | false =>
        rw [readArgv_of_none hbehind] at hg
        rw [parseOptions_stop (hg.trans rfl)]
        show Ends cfg name false (k + 1) o [] (.lacks c)
          ((⟨[.argv k], some ()⟩ : Traced Event Unit) >>= fun _ => ⟨[.argv (k + 1)], none⟩)
        exact .behind hreads (.lacks o c)
    | arg :: ws =>
      rw [List.length_cons] at hN
      have hreads : ∀ e ∈ [Event.argv k, .argv (k + 1), .argv (k + 1)], ∃ j < N, e = .argv j := by
        simpa using ⟨(by omega : k < N), (by omega : k + 1 < N)⟩
      rw [readArgv_of_some hws.head] at hg
      have hg' : getopt argv ⟨k, p, optopt, optarg⟩ = ⟨[.argv k, .argv (k + 1), .argv (k + 1)],
        some (⟨k + 2, 1, c, some arg⟩, some c)⟩ := hg
      rw [parseOptions_succ hg', itemsFrom_next hc]
      rw [rounds_cons, List.length_nil] at hfuel
      refine .behind hreads (ends_handled (handleOption_value hc) fun _ => ?_)
      exact hword (k + 2) ws _ c _ (by omega) hws.tail (by omega) (by omega)
  · rw [parseOptions_succ (getopt_attached hat hc hcs optopt optarg), itemsFrom_value hc hcs]
    refine .behind hreads (ends_handled (handleOption_value hc) fun _ => ?_)
    exact hword (k + 1) ws _ c _ k.succ_ne_zero hws hN (by omega)

theorem endsAtLetter_succ (hword : EndsAtWord cfg name terminated N argv fuel)
    (hletter : EndsAtLetter cfg name terminated N argv fuel) :
    EndsAtLetter cfg name terminated N argv (fuel + 1) := by
  intro k p w cs c ws o optopt optarg hk hws hN hdash hopt hdrop hfuel
  have hat : AtLetter argv k p w c cs := ⟨hk, hws.head, hdash, hopt, hdrop⟩
  cases hc : takesValue c with
  | true => exact ends_of_value hword hat hc hws.tail hN hfuel
  | false =>
    have hreads : ∀ e ∈ [Event.argv k], ∃ j < N, e = .argv j := by
      simpa using (by omega : k < N)
    rw [itemsFrom_flag hc]
    rcases getopt_flag hat hc optopt optarg with ⟨hno, hg⟩ | hg
    · have hpass : ¬ Passes cfg (.flag c) := by
        rintro (rfl | rfl)
        · exact hno (by decide)
        · exact hno (by decide)
      rw [parseOptions_succ hg]
      exact .behind hreads (.help hpass not_exits_flag)
    · rw [parseOptions_succ hg]
      match cs with
      | [] =>
        rw [itemsFrom_nil]
        refine .behind hreads (ends_handled (handleOption_flag hc _) fun _ => ?_)
        exact hword (k + 1) ws _ c _ k.succ_ne_zero hws.tail hN (by omega)
      | d :: cs =>
        rw [List.length_cons] at hfuel
        refine .behind hreads (ends_handled (handleOption_flag hc _) fun _ => ?_)
        exact hletter k (p + 1) w cs d ws _ c _ hk hws hN hdash hopt hat.behind (by omega)

/-- The loop ends as the items say, by induction on its rounds, from a word
and from a letter at once. -/
theorem ends_of_lt (argv : List (Option (List UInt8))) (fuel : ℕ) :
    EndsAtWord cfg name terminated N argv fuel ∧ EndsAtLetter cfg name terminated N argv fuel := by
  induction fuel with
  | zero =>
    refine ⟨fun k ws o optopt optarg _ _ _ hfuel => ?_,
      fun k p w cs c ws o optopt optarg _ _ _ _ _ _ hfuel => ?_⟩
    · exact absurd hfuel (Nat.not_lt_zero _)
    · exact absurd hfuel (Nat.not_lt_zero _)
  | succ fuel ih =>
    have hletter := endsAtLetter_succ ih.1 ih.2
    exact ⟨endsAtWord_succ hletter, hletter⟩

/-- **The loop of `main_ebi_rw` over the options** goes through the items of
the words, and ends as they do: at an item that does not pass, at the
address, or behind the words. -/
theorem parseOptions_ends (cfg : Config) (terminated : Bool) (word : List UInt8)
    (words : List (List UInt8)) (name : List UInt8) (o : Options) :
    Ends cfg name terminated (words.length + 1) o (items words).1 (items words).2
      (parseOptions cfg (vector terminated (word :: words)) name
        (optionRounds (vector terminated (word :: words))) ⟨0, 1, 0, none⟩ o) := by
  have hrounds : rounds words < optionRounds (vector terminated (word :: words)) := by
    have hmap : (words.map ((fun arg : Option (List UInt8) => (arg.getD []).length + 1) ∘ some)) =
        words.map fun w => w.length + 1 := rfl
    unfold optionRounds rounds vector
    rw [List.map_append, List.map_map, List.sum_append, List.map_cons, List.sum_cons, ← hmap]
    omega
  have hwords : WordsAt terminated (vector terminated (word :: words)) 1 words := rfl
  -- the first call of getopt is one with `optind` 1
  have hzero : parseOptions cfg (vector terminated (word :: words)) name
      (optionRounds (vector terminated (word :: words))) ⟨0, 1, 0, none⟩ o =
      parseOptions cfg (vector terminated (word :: words)) name
        (optionRounds (vector terminated (word :: words))) ⟨1, 1, 0, none⟩ o := by
    rw [optionRounds, parseOptions, parseOptions, getopt_zero]
  rw [hzero]
  exact (ends_of_lt _ _).1 1 words o 0 none Nat.one_ne_zero hwords (Nat.add_comm _ _) hrounds

end

/-! ## What is left of it -/

/-- The options behind items that pass, taken one after the other. -/
def Options.adds (o : Options) (is : List Item) : Options := is.foldl Options.add o

/-- The first item that does not pass makes it exit. -/
def Refuses (cfg : Config) (is : List Item) : Prop :=
  ∃ front it after, is = front ++ it :: after ∧ (∀ i ∈ front, Passes cfg i) ∧ Exits cfg it

/-- **The words run out**: every item passes, and `getopt` still looks for
one, or for a value, behind the last word. -/
def RunsPast (cfg : Config) (words : List (List UInt8)) : Prop :=
  (∀ it ∈ (items words).1, Passes cfg it) ∧ ∀ left, (items words).2 ≠ .rest left

section

variable {terminated : Bool} {k N : ℕ} {it : Item} {is : List Item} {stop : Stop}
  {x : Traced Event (Option (Options × ℕ))} {left : List (List UInt8)} {o' : Options}

theorem Exits.not_passes (h : Exits cfg it) : ¬ Passes cfg it := by
  obtain ⟨arg, rfl, hno⟩ := h
  exact hno

theorem not_refuses_nil : ¬ Refuses cfg [] := by
  rintro ⟨front, it, after, h, -⟩
  simp at h

theorem refuses_cons : Refuses cfg (it :: is) ↔ Exits cfg it ∨ Passes cfg it ∧ Refuses cfg is := by
  constructor
  · rintro ⟨front, it', after, h, hpass, hexits⟩
    rcases front with _ | ⟨i, front⟩
    · obtain ⟨rfl, -⟩ := List.cons.inj h
      exact Or.inl hexits
    · obtain ⟨rfl, rfl⟩ := List.cons.inj h
      have hrest : ∀ j ∈ front, Passes cfg j := fun j hj => hpass j (List.mem_cons_of_mem _ hj)
      exact Or.inr ⟨hpass _ List.mem_cons_self, front, it', after, rfl, hrest, hexits⟩
  · rintro (hexits | ⟨hpass, front, it', after, rfl, hrest, hexits⟩)
    · exact ⟨[], it, is, rfl, by simp, hexits⟩
    · refine ⟨it :: front, it', after, rfl, fun i hi => ?_, hexits⟩
      rcases List.mem_cons.1 hi with rfl | hi
      · exact hpass
      · exact hrest i hi

/-- The loop calls `exit` just where an item is refused. -/
theorem Ends.exit_mem_iff (h : Ends cfg name terminated N o is stop x) :
    Event.exit ∈ x.log ↔ Refuses cfg is := by
  induction h with
  | read hk h ih =>
    rw [← ih]
    simp
  | pass hit h ih =>
    rw [refuses_cons, ih, and_iff_right hit]
    exact (or_iff_right fun h => h.not_passes hit).symm
  | exits hit format args => exact iff_of_true (by simp) (refuses_cons.2 (Or.inl hit))
  | help hpass hexits =>
    refine iff_of_false (by simp) fun h => ?_
    rcases refuses_cons.1 h with h | h
    · exact hexits h
    · exact hpass h.1
  | rest o left => exact iff_of_false (by simp) not_refuses_nil
  | runsOut o => exact iff_of_false (by simp) not_refuses_nil
  | lacks o c => cases terminated <;> exact iff_of_false (by simp) not_refuses_nil

/-- Where there is an answer: with a null pointer behind the words, -/
theorem Ends.answer_isSome_iff (h : Ends cfg name true N o is stop x) :
    x.answer.isSome ↔ Event.exit ∉ x.log := by
  induction h with
  | read hk h ih => simpa using ih
  | pass hit h ih => exact ih
  | exits hit format args => simp
  | help hpass hexits => simp
  | rest o left => simp
  | runsOut o => simp
  | lacks o c => simp

/-- and what it is. -/
theorem Ends.of_answer (h : Ends cfg name terminated N o is stop x)
    (hx : x.answer = some (some (o', k))) :
    (∀ it ∈ is, Passes cfg it) ∧ o' = o.adds is ∧
      ((∃ left, stop = .rest left ∧ k = N - left.length) ∨ stop = .runsOut ∧ k = N) := by
  induction h with
  | read hk h ih => exact ih hx
  | pass hit h ih =>
    obtain ⟨hall, ho, hstop⟩ := ih hx
    refine ⟨fun i hi => ?_, ho, hstop⟩
    rcases List.mem_cons.1 hi with rfl | hi
    · exact hit
    · exact hall i hi
  | exits hit format args => cases hx
  | help hpass hexits => cases hx
  | rest o left =>
    cases hx
    exact ⟨by simp, rfl, Or.inl ⟨left, rfl, rfl⟩⟩
  | runsOut o =>
    cases terminated with
    | true =>
      cases hx
      exact ⟨by simp, rfl, Or.inr ⟨rfl, rfl⟩⟩
    | false => cases hx
  | lacks o c => cases terminated <;> cases hx

theorem Ends.answer_of_rest (h : Ends cfg name terminated N o is stop x)
    (hpass : ∀ it ∈ is, Passes cfg it) (hstop : stop = .rest left) :
    x.answer = some (some (o.adds is, N - left.length)) := by
  induction h with
  | read hk h ih => exact ih hpass hstop
  | pass hit h ih => exact ih (fun i hi => hpass i (List.mem_cons_of_mem _ hi)) hstop
  | exits hit format args => exact absurd (hpass _ List.mem_cons_self) hit.not_passes
  | help hno hexits => exact absurd (hpass _ List.mem_cons_self) hno
  | rest o left' =>
    cases hstop
    rfl
  | runsOut o => cases hstop
  | lacks o c => cases hstop

/-- It prints nothing where the loop goes through to the address. -/
theorem Ends.not_print (h : Ends cfg name terminated N o is stop x)
    (hx : x.answer = some (some (o', k))) (out : Out) : Event.print out ∉ x.log := by
  induction h with
  | read hk h ih => simpa using ih hx
  | pass hit h ih => exact ih hx
  | exits hit format args => cases hx
  | help hpass hexits => cases hx
  | rest o left => simp
  | runsOut o => simp
  | lacks o c => cases terminated <;> cases hx

/-- **What it reads**: words, and what is behind the last exactly where
they run out. -/
theorem Ends.reads_iff (h : Ends cfg name terminated N o is stop x) :
    (∀ k, Event.argv k ∈ x.log → k < N) ↔
      ¬ ((∀ it ∈ is, Passes cfg it) ∧ ∀ left, stop ≠ .rest left) := by
  induction h with
  | read hk h ih =>
    rw [← ih]
    simp only [List.mem_cons, Event.argv.injEq, forall_eq_or_imp]
    exact and_iff_right hk
  | pass hit h ih =>
    rw [ih, List.forall_mem_cons, and_iff_right hit]
  | exits hit format args =>
    refine iff_of_true (by simp) fun h => hit.not_passes (h.1 _ List.mem_cons_self)
  | help hpass hexits =>
    refine iff_of_true (by simp) fun h => hpass (h.1 _ List.mem_cons_self)
  | rest o left => exact iff_of_true (by simp) fun h => h.2 left rfl
  | runsOut o => exact iff_of_false (by simp) (not_not_intro ⟨by simp, by simp⟩)
  | lacks o c =>
    cases terminated <;> exact iff_of_false (by simp) (not_not_intro ⟨by simp, by simp⟩)

end

end Ebi

end SlipBoard
