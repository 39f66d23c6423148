import SlipBoard.Common.Prefix
import SlipBoard.Shell.Ids
import SlipBoard.Shell.Model.Tab
import SlipBoard.Shell.Parse
/-!
# Shell — what TAB completes

The loop of `shell_tab` breaks off behind the last command that can match:
the tree is in the order of the IDs, and the first digit of an ID is that
of the name's first character (`filter_eq_nil_of_lt`). So it finds every
registered name that begins with what has been typed (`tabLoop_spec`), and
puts in what these names share (`tabComplete_spec`). It stores a match
before it asks how many there are, and an eleventh one lies behind the
array (`shellTab_completes_iff`, `tab_overruns`).
-/

namespace SlipBoard

namespace Shell

open SlipBoard.Balanced ScaleTree Traced Transition

variable {sh : Commands} {regs : List Registration} {fuel : ℕ} {shellbuf : ShellBuf}
variable {text : List UInt8} {cmd : ShellCmd} {found : List Ptr} {b : Block commandlineMaxLen}
variable {t : ScaleTree Ptr} {p q : Ptr} {cnt i : ℕ}

/-- Where the event is an access of `match`, it is inside the ten elements
of the array. -/
def TabEvent.Inside : TabEvent → Prop
  | .matchAt cnt => cnt < 10
  | .print _ => True

/-- The name of the command at an address. -/
def Commands.name (sh : Commands) (q : Ptr) : List UInt8 := (sh.cmd q).name

/-! ## Characters -/

/-- The character of a name at an index, or its NUL. -/
abbrev charOf (name : List UInt8) (i : ℕ) : UInt8 := name[i]?.getD 0

theorem charAt_of_le (h : i ≤ cmd.name.length) : cmd.charAt i = some (charOf cmd.name i) := by
  unfold ShellCmd.charAt charOf
  rcases Nat.lt_or_eq_of_le h with hlt | rfl
  · rw [List.getElem?_append_left hlt, List.getElem?_eq_getElem hlt]
    rfl
  · rw [List.getElem?_append_right (le_refl _), Nat.sub_self, List.getElem?_eq_none (le_refl _)]
    rfl

/-- Names differ at a place where one of them has ended, since the NUL is in
neither. -/
theorem charOf_eq_iff {v w : List UInt8} (hv : 0 ∉ v) (hw : 0 ∉ w) :
    charOf v i = charOf w i ↔ v[i]? = w[i]? := by
  refine ⟨fun h => ?_, fun h => congrArg (·.getD 0) h⟩
  unfold charOf at h
  cases hvi : v[i]? with
  | none =>
    cases hwi : w[i]? with
    | none => rfl
    | some c =>
      rw [hvi, hwi] at h
      exact absurd (List.mem_of_getElem? hwi) ((show (0 : UInt8) = c from h) ▸ hw)
  | some a =>
    cases hwi : w[i]? with
    | none =>
      rw [hvi, hwi] at h
      exact absurd (List.mem_of_getElem? hvi) ((show a = 0 from h).symm ▸ hv)
    | some c =>
      rw [hvi, hwi] at h
      exact congrArg some h

/-- **The comparison of a name** with what has been typed tells whether the
name begins with it. -/
theorem sameFrom_spec {inputStr : ℕ} : ∀ {text : List UInt8} {i : ℕ},
    Reads b (inputStr + i) text → 0 ∉ text → i ≤ cmd.name.length →
      sameFrom cmd b inputStr text.length i = some (decide (text <+: cmd.name.drop i)) := by
  intro text
  induction text with
  | nil =>
    intro i _ _ _
    rw [decide_eq_true List.nil_prefix]
    rfl
  | cons c text ih =>
    intro i hreads hnul hi
    rw [List.mem_cons, not_or] at hnul
    rw [List.length_cons, sameFrom, charAt_of_le hi, Option.bind_eq_bind, Option.bind_some,
      hreads.load, Option.bind_some, List.headD_cons]
    rcases Nat.lt_or_eq_of_le hi with hlt | rfl
    · rw [List.drop_eq_getElem_cons hlt, charOf, List.getElem?_eq_getElem hlt, Option.getD_some]
      by_cases hc : cmd.name[i] = c
      · rw [if_pos hc, ih hreads.2 hnul.2 hlt]
        refine congrArg some (decide_eq_decide.2 ?_)
        rw [List.cons_prefix_cons, and_iff_right hc.symm]
      · rw [if_neg hc]
        refine congrArg some (decide_eq_false fun hprefix => ?_).symm
        exact hc (List.cons_prefix_cons.1 hprefix).1.symm
    · rw [charOf, List.getElem?_eq_none (le_refl _), Option.getD_none, if_neg hnul.1,
        List.drop_length]
      refine congrArg some (decide_eq_false fun hprefix => ?_).symm
      exact List.cons_ne_nil _ _ (List.prefix_nil.1 hprefix)

/-- **A character is put in** behind the others, inside the line, where
there is room for it and a NUL. -/
theorem shellGetchar_spec (h : Typed shellbuf text) (hroom : text.length + 1 < commandlineMaxLen)
    (c : UInt8) :
    Exact TabEvent.Inside True (fun buf => Typed buf (text ++ [c])) (shellGetchar shellbuf c) := by
  have hindex := h.index_eq
  unfold shellGetchar
  rw [hindex, Block.store_of_lt (by omega), lift_some_bind, Nat.mod_eq_of_lt hroom]
  dsimp only
  rw [Block.store_of_lt hroom, lift_some_bind, Block.load_of_lt (by omega), lift_some_bind]
  refine exact_bind (a := ()) rfl (meets_emit.2 trivial) (exact_pure trivial ?_)
  refine ⟨by rw [List.length_append]; rfl, by rwa [List.length_append], ?_, ?_⟩
  · rw [List.length_append, List.length_singleton, Block.slice_succ, Nat.zero_add,
      Block.slice_set_of_le (by omega), Block.slice_set_of_le (by omega), h.text,
      Block.byte_set_of_ne (by omega), Block.byte_set_self]
  · rw [List.length_append, List.length_singleton, Block.byte_set_self]

/-! ## The commands that match -/

/-- **The tree as `shell_tab` reads it**: the commands stand in the order
of their IDs, and each has the ID of its name. -/
structure Listed (sh : Commands) (t : ScaleTree Ptr) : Prop where
  holds : Holds sh.root [] t
  ordered : Ordered sh.ID t.toList
  named : ∀ q ∈ t.toList, sh.ID q = nameID (sh.name q)
  noNul : ∀ q ∈ t.toList, 0 ∉ sh.name q

/-- A name and what it begins with have one first character. -/
theorem firstBits_of_begins {name : List UInt8} (htext : text ≠ []) (h : text <+: name) :
    firstBits (nameID name) = firstBits (nameID text) := by
  obtain ⟨more, rfl⟩ := h
  cases text with
  | nil => exact absurd rfl htext
  | cons c text =>
    rw [firstBits_nameID, firstBits_nameID]
    rfl

/-- What the round of a command is to do: break off behind the last that
can match, store the command, or leave it. -/
theorem tabRound_eq (h : Listed sh t) (hq : q ∈ t.toList) (htext : text ≠ []) (hnul : 0 ∉ text)
    {inputStr : ℕ} (hreads : Reads b inputStr text) :
    tabRound sh b inputStr text.length (firstBits (nameID text)) q found =
      if firstBits (nameID text) < firstBits (sh.ID q) then pure (.stop found)
      else if text <+: sh.name q then do
        emit (.matchAt found.length)
        pure (if found.length + 1 > 10 then .full else .next (found ++ [q]))
      else pure (.next found) := by
  have hsame : sameFrom (sh.cmd q) b inputStr text.length 0 = some (decide (text <+: sh.name q)) :=
    sameFrom_spec (i := 0) hreads hnul (Nat.zero_le _)
  unfold tabRound
  dsimp only
  show (if firstBits (nameID text) = firstBits (sh.ID q) then _ else
    if firstBits (sh.ID q) > firstBits (nameID text) then _ else _) = _
  by_cases hfirst : firstBits (nameID text) = firstBits (sh.ID q)
  · rw [if_pos hfirst, hfirst, if_neg (UInt32.lt_irrefl _), hsame, lift_some_bind]
    by_cases hprefix : text <+: sh.name q
    · rw [if_pos hprefix, if_pos (decide_eq_true hprefix), List.length_append,
        List.length_singleton]
      refine congrArg (emit _ >>= ·) (funext fun _ => ?_)
      split <;> rfl
    · rw [if_neg hprefix, if_neg (by rw [decide_eq_false hprefix]; exact Bool.false_ne_true)]
  · have hprefix : ¬text <+: sh.name q := fun hprefix =>
      hfirst ((firstBits_of_begins htext hprefix).symm.trans (congrArg firstBits (h.named q hq).symm))
    rw [if_neg hfirst, if_neg hprefix]

/-- **Behind the break no command matches**: the IDs are in order, and so
are their first digits. -/
theorem filter_eq_nil_of_lt (h : Listed sh t) {front back : List Ptr}
    (hsplit : t.toList = front ++ q :: back) (htext : text ≠ [])
    (hlt : firstBits (nameID text) < firstBits (sh.ID q)) :
    (q :: back).filter (fun q => text <+: sh.name q) = [] := by
  have hordered := h.ordered
  rw [hsplit, Ordered, List.pairwise_append, List.pairwise_cons] at hordered
  obtain ⟨-, ⟨habove, -⟩, -⟩ := hordered
  refine List.filter_eq_nil_iff.2 fun p hp hprefix => ?_
  have hle : firstBits (sh.ID q) ≤ firstBits (sh.ID p) := by
    rcases List.mem_cons.1 hp with rfl | hp
    · exact UInt32.le_refl _
    · exact firstBits_le (UInt32.le_of_lt (habove p hp))
  have hmem : p ∈ t.toList := by
    rw [hsplit]
    exact List.mem_append_right _ hp
  rw [h.named p hmem, firstBits_of_begins htext (of_decide_eq_true hprefix)] at hle
  exact UInt32.lt_irrefl _ (UInt32.lt_of_lt_of_le hlt hle)

/-- What is kept of the commands that match: all of them up to ten, and
nothing beyond, where the loop returns. -/
def kept (found : List Ptr) : Option (List Ptr) := if found.length ≤ 10 then some found else none

/-- A loop that finds these commands, and stays inside `match` where they
are ten at most. -/
def Finds (all : List Ptr) (loop : Traced TabEvent (Option (List Ptr))) : Prop :=
  loop.answer = some (kept all) ∧ (loop.Meets TabEvent.Inside ↔ all.length ≤ 10)

theorem finds_pure (h : found.length ≤ 10) : Finds found (pure (some found)) :=
  ⟨congrArg some (if_pos h).symm, iff_of_true (meets_pure _) h⟩

theorem Finds.emit {loop : Traced TabEvent (Option (List Ptr))} {e : TabEvent}
    (h : Finds found loop) (he : e.Inside) : Finds found (Traced.emit e >>= fun _ => loop) := by
  refine ⟨(answer_bind_of_answer (answer_emit e)).trans h.1, ?_⟩
  rw [meets_bind_of_answer (answer_emit e), meets_emit, and_iff_right he]
  exact h.2

/-- **The loop over the commands** finds those whose names begin with the
text. -/
theorem tabLoop_spec (h : Listed sh t) (hfuel : t.toList.length < fuel) (htext : text ≠ [])
    (hnul : 0 ∉ text) {inputStr : ℕ} (hreads : Reads b inputStr text) :
    ∀ (back front : List Ptr) (rounds : ℕ) (found : List Ptr), t.toList = front ++ back →
      back.length < rounds → found.length ≤ 10 →
      Finds (found ++ back.filter fun q => text <+: sh.name q) (tabLoop fuel sh b inputStr
        text.length (firstBits (nameID text)) rounds back.head? found) := by
  intro back
  induction back with
  | nil =>
    intro front rounds found _ hrounds hfound
    obtain ⟨rounds, rfl⟩ : ∃ n, rounds = n + 1 := ⟨rounds - 1, by omega⟩
    rw [List.filter_nil, List.append_nil]
    exact finds_pure hfound
  | cons q back ih =>
    intro front rounds found hsplit hrounds hfound
    obtain ⟨rounds, rfl⟩ : ∃ n, rounds = n + 1 := ⟨rounds - 1, by omega⟩
    rw [List.length_cons] at hrounds
    have hq : q ∈ t.toList := by
      rw [hsplit]
      exact List.mem_append_right _ List.mem_cons_self
    have hnext := avlNext_of_split h.holds hsplit hfuel
    have hback : t.toList = (front ++ [q]) ++ back := by
      rw [hsplit, List.append_assoc, List.singleton_append]
    rw [List.head?_cons, tabLoop, tabRound_eq h hq htext hnul hreads]
    by_cases hlt : firstBits (nameID text) < firstBits (sh.ID q)
    · rw [if_pos hlt, filter_eq_nil_of_lt h hsplit htext hlt, List.append_nil]
      exact finds_pure hfound
    rw [if_neg hlt]
    by_cases hprefix : text <+: sh.name q
    · have hfilter : (q :: back).filter (fun q => text <+: sh.name q) =
          q :: back.filter fun q => text <+: sh.name q :=
        List.filter_cons_of_pos (decide_eq_true hprefix)
      rw [if_pos hprefix, hfilter, List.append_cons]
      by_cases hfull : found.length + 1 > 10
      · -- the eleventh is stored behind the array, and then the loop ends
        have hmany : ¬(found ++ [q] ++ back.filter fun q => text <+: sh.name q).length ≤ 10 := by
          rw [List.length_append, List.length_append, List.length_singleton]
          omega
        rw [if_pos hfull]
        refine ⟨congrArg some (if_neg hmany).symm, iff_of_false (fun hmeets => ?_) hmany⟩
        have hinside : found.length < 10 := hmeets (.matchAt found.length) (List.mem_singleton.2 rfl)
        omega
      · rw [if_neg hfull]
        show Finds _ (emit _ >>= fun _ => lift (avlNext fuel sh.root q) >>= _)
        rw [hnext]
        have hlength : (found ++ [q]).length ≤ 10 := by
          rw [List.length_append, List.length_singleton]
          omega
        exact (ih _ rounds _ hback (by omega) hlength).emit (show found.length < 10 by omega)
    · have hfilter : (q :: back).filter (fun q => text <+: sh.name q) =
          back.filter fun q => text <+: sh.name q :=
        List.filter_cons_of_neg (by simpa using hprefix)
      rw [if_neg hprefix, hfilter]
      show Finds _ (lift (avlNext fuel sh.root q) >>= _)
      rw [hnext]
      exact ih _ rounds found hback (by omega) hfound

/-! ## Completion -/

/-- The commands in `match`: ten at most, with names that begin with what
stands in the buffer. -/
structure Matched (sh : Commands) (found : List Ptr) (text : List UInt8) : Prop where
  le_ten : found.length ≤ 10
  noNul : ∀ q ∈ found, 0 ∉ sh.name q
  begins : ∀ q ∈ found, text <+: sh.name q

/-- The names of the commands at a list of addresses. -/
abbrev names (sh : Commands) (found : List Ptr) : List (List UInt8) := found.map sh.name

theorem Matched.getElem?_eq_some (h : Matched sh found text) (hq : found[cnt]? = some q) :
    q ∈ found ∧ cnt < 10 := by
  obtain ⟨hlt, rfl⟩ := List.getElem?_eq_some_iff.1 hq
  exact ⟨List.getElem_mem hlt, hlt.trans_le h.le_ten⟩

theorem matchCmd_spec (h : Matched sh found text) (hq : found[cnt]? = some q) :
    Exact TabEvent.Inside True (· = sh.cmd q) (matchCmd sh found cnt) := by
  unfold matchCmd
  rw [hq]
  refine exact_bind (a := ()) rfl (meets_emit.2 (h.getElem?_eq_some hq).2) ?_
  exact exact_pure trivial rfl

theorem matchChar_spec (h : Matched sh found text) (hq : found[cnt]? = some q) :
    Exact TabEvent.Inside True (· = charOf (sh.name q) text.length)
      (matchChar sh found cnt text.length) := by
  unfold matchChar
  refine (matchCmd_spec h hq).bind ?_
  rintro cmd rfl
  rw [charAt_of_le (h.begins q (h.getElem?_eq_some hq).1).length_le]
  exact exact_pure trivial rfl

/-- **The rest of the only name** is put in behind what has been typed,
character by character. -/
theorem tabRest_spec (hnul : 0 ∉ cmd.name) (hshort : cmd.name.length < commandlineMaxLen) :
    ∀ {more text : List UInt8} {rounds : ℕ} {shellbuf : ShellBuf}, cmd.name = text ++ more →
      Typed shellbuf text → more.length < rounds →
      Exact TabEvent.Inside True (fun buf => Typed buf cmd.name)
        (tabRest cmd rounds text.length shellbuf) := by
  intro more
  induction more with
  | nil =>
    intro text rounds shellbuf hname htyped hrounds
    obtain ⟨rounds, rfl⟩ : ∃ n, rounds = n + 1 := ⟨rounds - 1, by omega⟩
    rw [List.append_nil] at hname
    have hend : charOf cmd.name text.length = 0 := by
      rw [charOf, hname, List.getElem?_eq_none (le_refl _)]
      rfl
    rw [tabRest, charAt_of_le (by rw [hname]), lift_some_bind, if_pos hend]
    exact exact_pure trivial (hname ▸ htyped)
  | cons c more ih =>
    intro text rounds shellbuf hname htyped hrounds
    obtain ⟨rounds, rfl⟩ : ∃ n, rounds = n + 1 := ⟨rounds - 1, by omega⟩
    rw [List.length_cons] at hrounds
    have hlength := congrArg List.length hname
    rw [List.length_append, List.length_cons] at hlength
    have hchar : charOf cmd.name text.length = c := by
      rw [charOf, hname, List.getElem?_append_right (le_refl _), Nat.sub_self]
      rfl
    have hc : c ≠ 0 := by
      rintro rfl
      exact hnul (hname ▸ List.mem_append_right _ List.mem_cons_self)
    rw [tabRest, charAt_of_le (by omega), lift_some_bind, hchar, if_neg hc]
    refine (shellGetchar_spec htyped (by omega) c).bind fun buf hbuf => ?_
    have hnext := ih (hname.trans (List.append_cons text c more)) hbuf
      (show more.length < rounds by omega)
    rwa [List.length_append, List.length_singleton] at hnext

/-- The names are printed, and each access of `match` is inside of it. -/
theorem tabPrint_spec (h : Matched sh found text) : ∀ {rounds cnt : ℕ},
    cnt + rounds ≤ found.length →
    Exact TabEvent.Inside True (fun _ => True) (tabPrint sh found rounds cnt) := by
  intro rounds
  induction rounds with
  | zero => exact fun _ => exact_pure trivial trivial
  | succ rounds ih =>
    intro cnt hcnt
    have hq : found[cnt]? = some found[cnt] := List.getElem?_eq_getElem (by omega)
    rw [tabPrint]
    refine (matchCmd_spec h hq).bind fun _ _ => ?_
    exact exact_bind (a := ()) rfl (meets_emit.2 trivial) (ih (by omega))

/-- **The comparison with the first name**, of those from `match[cnt]` on:
all have the same character at the end of the text, or one has not. -/
theorem tabSame_spec (h : Matched sh found text) (hp : found[0]? = some p) : ∀ {rounds cnt : ℕ},
    cnt + rounds = found.length →
    Exact TabEvent.Inside True (fun same => same = decide (∀ q ∈ found.drop cnt,
        (sh.name q)[text.length]? = (sh.name p)[text.length]?))
      (tabSame sh found text.length rounds cnt) := by
  intro rounds
  induction rounds with
  | zero =>
    intro cnt hcnt
    refine exact_pure trivial (decide_eq_true ?_).symm
    rw [List.drop_eq_nil_of_le (by omega)]
    exact fun q hq => absurd hq List.not_mem_nil
  | succ rounds ih =>
    intro cnt hcnt
    have hlt : cnt < found.length := by omega
    have hq : found[cnt]? = some found[cnt] := List.getElem?_eq_getElem hlt
    have hsame := charOf_eq_iff (i := text.length) (h.noNul p (h.getElem?_eq_some hp).1)
      (h.noNul _ (h.getElem?_eq_some hq).1)
    rw [tabSame, List.drop_eq_getElem_cons hlt]
    refine (matchChar_spec h hp).bind ?_
    rintro first rfl
    refine (matchChar_spec h hq).bind ?_
    rintro c rfl
    by_cases hchar : charOf (sh.name p) text.length = charOf (sh.name found[cnt]) text.length
    · rw [if_neg (not_not.2 hchar)]
      have hrest := ih (show cnt + 1 + rounds = found.length by omega)
      simpa only [List.forall_mem_cons, (hsame.1 hchar).symm, true_and] using hrest
    · rw [if_pos hchar]
      refine exact_pure trivial (decide_eq_false fun hall => ?_).symm
      exact hchar (hsame.2 (hall _ List.mem_cons_self).symm)

/-- What stands in the buffer is in front of what the names share. -/
theorem Matched.prefix_shared (h : Matched sh found text) (hne : found ≠ []) :
    text <+: sharedPrefix (names sh found) :=
  (prefix_sharedPrefix_iff fun hnil => hne (List.map_eq_nil_iff.1 hnil)).2
    (List.forall_mem_map.2 h.begins)

/-- **The characters that the names share**, of which two differ, are put
in, and the loop ends where they do. -/
theorem tabShared_spec {rest : List Ptr} (hq : q ∈ p :: rest) (hne : sh.name p ≠ sh.name q)
    (hshort : (sharedPrefix (names sh (p :: rest))).length < commandlineMaxLen) :
    ∀ {rounds : ℕ} {text : List UInt8} {shellbuf : ShellBuf}, Matched sh (p :: rest) text →
      Typed shellbuf text → (sharedPrefix (names sh (p :: rest))).length < text.length + rounds →
      Exact TabEvent.Inside True (fun buf => Typed buf (sharedPrefix (names sh (p :: rest))))
        (tabShared sh (p :: rest) rounds text.length shellbuf) := by
  have hfirst : sh.name p ∈ names sh (p :: rest) := List.mem_cons_self
  intro rounds
  induction rounds with
  | zero =>
    intro text shellbuf h _ hrounds
    have hlength := (h.prefix_shared (List.cons_ne_nil _ _)).length_le
    omega
  | succ rounds ih =>
    intro text shellbuf h htyped hrounds
    have hp : (p :: rest)[0]? = some p := rfl
    have hall : (∀ q ∈ rest, (sh.name q)[text.length]? = (sh.name p)[text.length]?) ↔
        ∀ q ∈ p :: rest, (sh.name q)[text.length]? = (sh.name p)[text.length]? := by
      rw [List.forall_mem_cons, and_iff_right rfl]
    rw [tabShared]
    refine (tabSame_spec h hp (Nat.add_comm 1 _)).bind ?_
    rintro same rfl
    by_cases hend : text = sharedPrefix (names sh (p :: rest))
    · -- some name differs behind the common prefix
      obtain ⟨w, hw, hpart⟩ := exists_part hfirst (List.mem_map_of_mem hq) hne
      obtain ⟨u, hu, rfl⟩ := List.mem_map.1 hw
      rw [if_neg]
      · exact exact_pure trivial (hend ▸ htyped)
      · intro hsame
        refine hpart ?_
        rw [← hend]
        exact hall.1 (of_decide_eq_true hsame) u hu
    · obtain ⟨c, hnext, hchars⟩ :=
        exists_next_of_ne (h.prefix_shared (List.cons_ne_nil _ _)) hend
      have hlonger := hnext.length_le
      rw [List.length_append, List.length_singleton] at hlonger
      rw [if_pos]
      · refine (matchChar_spec h hp).bind ?_
        rintro first rfl
        have hchar : charOf (sh.name p) text.length = c := by
          rw [charOf, hchars _ hfirst]
          rfl
        rw [hchar]
        refine (shellGetchar_spec htyped (by omega) c).bind fun buf hbuf => ?_
        have hbegins : ∀ q ∈ p :: rest, text ++ [c] <+: sh.name q := fun q hq =>
          hnext.trans (sharedPrefix_le (List.mem_map_of_mem hq))
        have hrest := ih ⟨h.le_ten, h.noNul, hbegins⟩ hbuf
          (by rw [List.length_append, List.length_singleton]; omega)
        rwa [List.length_append, List.length_singleton] at hrest
      · refine decide_eq_true (hall.2 fun q hq => ?_)
        rw [hchars _ (List.mem_map_of_mem hq), hchars _ hfirst]

/-- What TAB leaves in the buffer for the names that begin with the text. -/
def completed (names : List (List UInt8)) (text : List UInt8) : List UInt8 :=
  if names = [] then text else sharedPrefix names

/-- **What is done behind the loop over the commands**: the line becomes
what is completed, and every access is inside. -/
theorem tabComplete_spec (shellInputSign : List UInt8) (h : Matched sh found text)
    (hnodup : found.Nodup) (hnames : ∀ p ∈ found, ∀ q ∈ found, sh.name p = sh.name q → p = q)
    (htyped : Typed shellbuf text)
    (hshort : (completed (names sh found) text).length < commandlineMaxLen) :
    Exact TabEvent.Inside True (fun buf => Typed buf (completed (names sh found) text))
      (tabComplete sh found shellInputSign text.length shellbuf) := by
  unfold tabComplete
  cases found with
  | nil => exact exact_pure trivial htyped
  | cons p found =>
    have hshared : completed (names sh (p :: found)) text = sharedPrefix (names sh (p :: found)) :=
      if_neg (List.cons_ne_nil _ _)
    rw [hshared] at hshort ⊢
    rw [if_neg (List.cons_ne_nil _ _)]
    cases found with
    | nil =>
      obtain ⟨more, hmore⟩ := h.begins p List.mem_cons_self
      have hlength := congrArg List.length hmore
      rw [List.length_append] at hlength
      rw [if_pos List.length_singleton]
      refine (matchCmd_spec h (show [p][0]? = some p from rfl)).bind ?_
      rintro cmd rfl
      exact tabRest_spec (h.noNul p List.mem_cons_self) hshort hmore.symm htyped
        (show more.length < (sh.name p).length + 2 by omega)
    | cons q found =>
      have hq : q ∈ p :: q :: found := List.mem_cons_of_mem _ List.mem_cons_self
      have hne : sh.name p ≠ sh.name q := by
        intro heq
        have hsame := hnames p List.mem_cons_self q hq heq
        exact (List.nodup_cons.1 hnodup).1 (hsame ▸ List.mem_cons_self)
      have hfirst : sh.name p ∈ names sh (p :: q :: found) := List.mem_cons_self
      have hle := (sharedPrefix_le hfirst).length_le
      rw [if_neg (by simp)]
      refine (tabPrint_spec h (Nat.zero_add _).le).bind fun _ _ => ?_
      rw [Block.str_of_byte_eq_zero (Nat.zero_le _) htyped.short htyped.nul, lift_some_bind]
      refine exact_bind (a := ()) rfl (meets_emit.2 trivial) ?_
      refine tabShared_spec hq hne hshort h htyped ?_
      rw [List.map_cons, List.sum_cons]
      show _ < text.length + ((sh.name p).length + _ + 2)
      omega

/-! ## TAB -/

/-- No two commands of the tree have one name. -/
theorem Listed.name_injective (h : Listed sh t) (hp : p ∈ t.toList) (hq : q ∈ t.toList)
    (heq : sh.name p = sh.name q) : p = q := by
  have hnodup : (t.toList.map sh.ID).Nodup :=
    List.pairwise_map.2 (h.ordered.imp fun hlt => UInt32.ne_of_lt hlt)
  refine List.inj_on_of_nodup_map hnodup hp hq ?_
  rw [h.named p hp, h.named q hq, heq]

/-- **What TAB is to do** where these names begin with the text: it ends,
stays inside `match`, and puts in what the names share, unless they are
more than ten. -/
def TabCompletes (fuel : ℕ) (shellInputSign : List UInt8) (sh : Commands) (shellbuf : ShellBuf)
    (text : List UInt8) (matching : List (List UInt8)) : Prop :=
  (shellTab fuel shellInputSign sh shellbuf).Meets TabEvent.Inside ∧
    ∃ buf, (shellTab fuel shellInputSign sh shellbuf).answer = some buf ∧
      if matching.length ≤ 10 then Typed buf (completed matching text) else buf = shellbuf

/-- What `shell_tab` does behind the loop over the commands, which has given
up or has found some. -/
def tabAnswer (shellInputSign : List UInt8) (sh : Commands) (shellbuf : ShellBuf)
    (text : List UInt8) : Option (List Ptr) → Traced TabEvent ShellBuf
  | none => pure shellbuf
  | some found => tabComplete sh found shellInputSign text.length shellbuf

/-- `shell_tab` goes through the commands from the first on. -/
theorem shellTab_eq (shellInputSign : List UInt8) (h : Listed sh t)
    (hfuel : t.toList.length < fuel) (hline : Typed shellbuf text) (htext : text ≠ [])
    (hspace : 32 ∉ text) (hnul : 0 ∉ text) :
    ∃ inputStr, Reads shellbuf.bufmem inputStr text ∧
      shellTab fuel shellInputSign sh shellbuf =
        tabLoop fuel sh shellbuf.bufmem inputStr text.length (firstBits (nameID text)) fuel
          t.toList.head? [] >>= tabAnswer shellInputSign sh shellbuf text := by
  obtain ⟨c, more, rfl⟩ := List.exists_cons_of_ne_nil htext
  rw [List.mem_cons, not_or] at hspace hnul
  have hshort : (c :: more).length < 36 := hline.short
  have hstrip : (c :: more).dropWhile (· = 32) = c :: more :=
    List.dropWhile_cons_of_neg (by simpa using Ne.symm hspace.1)
  obtain ⟨k, hskip, hreads⟩ := skipSpaces_spec hline.reads
    (show _ < commandlineMaxLen + 1 from hshort.trans (by decide))
  rw [hstrip] at hskip hreads
  have hlen : (((c :: more).length : ℤ) % 2 ^ 32).toNat = (c :: more).length := by omega
  have hgo : ¬(c = 0 ∨ (c :: more).length = 0) := by
    rintro (hzero | hempty)
    · exact hnul.1 hzero.symm
    · cases hempty
  refine ⟨k, hreads, ?_⟩
  unfold shellTab
  dsimp only
  rw [hline.index_eq, hskip, lift_some_bind]
  dsimp only
  rw [hlen, hreads.load, lift_some_bind, List.headD_cons, if_neg hgo, avlFirst_spec h.holds hfuel,
    lift_some_bind, firstBits_nameID]
  refine congrArg (tabLoop _ _ _ _ _ _ _ _ _ >>= ·) (funext fun found => ?_)
  cases found <;> rfl

/-- **What TAB does**: it ends in any case, and is inside `match` for ten
commands at most. -/
theorem shellTab_spec (shellInputSign : List UInt8) (h : Listed sh t)
    (hfuel : t.toList.length < fuel) (hline : Typed shellbuf text) (htext : text ≠ [])
    (hspace : 32 ∉ text) (hnul : 0 ∉ text)
    (hfound : found = t.toList.filter fun q => text <+: sh.name q) (hshort : found.length ≤ 10 →
      (completed (names sh found) text).length < commandlineMaxLen) :
    ((shellTab fuel shellInputSign sh shellbuf).Meets TabEvent.Inside ↔ found.length ≤ 10) ∧
      ∃ buf, (shellTab fuel shellInputSign sh shellbuf).answer = some buf ∧
        if found.length ≤ 10 then Typed buf (completed (names sh found) text)
        else buf = shellbuf := by
  obtain ⟨inputStr, hreads, htab⟩ :=
    shellTab_eq shellInputSign h hfuel hline htext hspace hnul
  have hfinds := tabLoop_spec h hfuel htext hnul hreads t.toList [] fuel [] rfl hfuel (Nat.zero_le _)
  rw [List.nil_append, ← hfound] at hfinds
  obtain ⟨hanswer, hmeets⟩ := hfinds
  rw [htab, meets_bind_of_answer hanswer, answer_bind_of_answer hanswer, hmeets, kept]
  by_cases hten : found.length ≤ 10
  · have hmem : ∀ q ∈ found, q ∈ t.toList ∧ text <+: sh.name q := by
      intro q hq
      obtain ⟨hq, hprefix⟩ := List.mem_filter.1 (hfound ▸ hq)
      exact ⟨hq, of_decide_eq_true hprefix⟩
    have hmatched : Matched sh found text :=
      ⟨hten, fun q hq => h.noNul q (hmem q hq).1, fun q hq => (hmem q hq).2⟩
    have hdone := tabComplete_spec shellInputSign hmatched
      (hfound ▸ h.ordered.nodup.filter _)
      (fun p hp q hq => h.name_injective (hmem p hp).1 (hmem q hq).1) hline (hshort hten)
    obtain ⟨buf, hbuf, htyped⟩ := hdone.2 trivial
    rw [if_pos hten]
    refine ⟨and_iff_left (hdone.1.2 trivial), buf, hbuf, ?_⟩
    rwa [if_pos hten]
  · rw [if_neg hten]
    refine ⟨and_iff_left (meets_pure _), shellbuf, rfl, ?_⟩
    rw [if_neg hten]

/-! ## Registered commands -/

/-- A command that has been put in: the first under its ID. The others
are refused. -/
def Kept (regs : List Registration) (r : Registration) : Prop :=
  firstWith regs (nameID r.cmdName) = some r

instance (r : Registration) : Decidable (Kept regs r) :=
  inferInstanceAs (Decidable (_ = some r))

/-- The registered names that begin with a text, of the commands that the
index keeps. -/
def matching (regs : List Registration) (text : List UInt8) : List (List UInt8) :=
  (regs.filter fun r => Kept regs r ∧ text <+: r.cmdName).map (·.cmdName)

/-- Where no two names have one ID, none is refused. -/
theorem matching_eq_filter (hIDs : (regs.map fun r => nameID r.cmdName).Nodup) (text : List UInt8) :
    matching regs text = (regs.map (·.cmdName)).filter (text <+: ·) := by
  have hkept : ∀ r ∈ regs, Kept regs r := by
    intro r hr
    obtain ⟨q, hq, hfirst, hID⟩ := exists_firstWith hr
    rw [Kept, hfirst, List.inj_on_of_nodup_map hIDs hq hr hID]
  rw [matching, List.filter_map]
  refine congrArg (List.map _) (List.filter_congr fun r hr => ?_)
  exact decide_eq_decide.2 (and_iff_right (hkept r hr))

/-- **The tree holds the registered commands**, each once. -/
theorem Registered.listed (h : Registered regs sh) (hnew : (regs.map (·.newcmd)).Nodup)
    (hnul : ∀ r ∈ regs, 0 ∉ r.cmdName) : ∃ t, Listed sh t ∧
      t.toList.Perm ((regs.filter (Kept regs ·)).map (·.newcmd)) := by
  obtain ⟨t, present, hindex, hpresent⟩ := h.indexed
  have hmem : ∀ q ∈ t.toList, ∃ r ∈ regs, Kept regs r ∧ r.newcmd = q := by
    intro q hq
    obtain ⟨r, hr, rfl⟩ := (hpresent q).1 ((hindex.mem_iff q).1 hq)
    exact ⟨r, (firstWith_mem hr).1, hr, rfl⟩
  refine ⟨t, ⟨hindex.holds, hindex.ordered, fun q hq => ?_, fun q hq => ?_⟩, ?_⟩
  · obtain ⟨r, hr, -, rfl⟩ := hmem q hq
    rw [h.ID_eq hr, Commands.name, h.stored r hr]
  · obtain ⟨r, hr, -, rfl⟩ := hmem q hq
    rw [Commands.name, h.stored r hr]
    exact hnul r hr
  · refine (List.perm_ext_iff_of_nodup hindex.ordered.nodup
      (hnew.sublist (List.filter_sublist.map _))).2 fun q => ?_
    rw [hindex.mem_iff, hpresent, List.mem_map]
    refine exists_congr fun r => and_congr_left fun _ => ?_
    rw [List.mem_filter, decide_eq_true_eq]
    exact ⟨fun hr => ⟨(firstWith_mem hr).1, hr⟩, fun hr => hr.2⟩

/-- The names the loop finds are the registered ones. -/
theorem Registered.names_perm (h : Registered regs sh)
    (hperm : t.toList.Perm ((regs.filter (Kept regs ·)).map (·.newcmd))) (text : List UInt8) :
    (names sh (t.toList.filter fun q => text <+: sh.name q)).Perm (matching regs text) := by
  have hstored : ∀ r ∈ regs, sh.name r.newcmd = r.cmdName := by
    intro r hr
    rw [Commands.name, h.stored r hr]
  refine ((hperm.filter _).map _).trans (List.Perm.of_eq ?_)
  rw [List.filter_map, List.map_map, List.filter_filter, matching]
  have hfilter : (regs.filter fun r => decide (text <+: sh.name r.newcmd) && decide (Kept regs r)) =
      regs.filter fun r => Kept regs r ∧ text <+: r.cmdName := by
    refine List.filter_congr fun r hr => ?_
    rw [hstored r hr, ← Bool.decide_and]
    exact decide_eq_decide.2 and_comm
  refine (congrArg (List.map _) hfilter).trans (List.map_congr_left fun r hr => ?_)
  exact hstored r (List.mem_of_mem_filter hr)

theorem completed_perm {vs ws : List (List UInt8)} (h : vs.Perm ws) (text : List UInt8) :
    completed vs text = completed ws text := by
  unfold completed
  rw [sharedPrefix_congr fun _ => h.mem_iff]
  refine if_congr ?_ rfl rfl
  exact ⟨fun hv => List.nil_perm.1 (hv ▸ h), fun hw => List.perm_nil.1 (hw ▸ h)⟩

/-- **TAB after registrations**: what it does, and when it stays inside
`match`. -/
theorem Registered.tab (shellInputSign : List UInt8) (h : Registered regs sh)
    (hnew : (regs.map (·.newcmd)).Nodup) (hnames : ∀ r ∈ regs, 0 ∉ r.cmdName)
    (hfuel : regs.length < fuel) (hline : Typed shellbuf text) (htext : text ≠ [])
    (hspace : 32 ∉ text) (hnul : 0 ∉ text) (hshort : (matching regs text).length ≤ 10 →
      (completed (matching regs text) text).length < commandlineMaxLen) :
    ((shellTab fuel shellInputSign sh shellbuf).Meets TabEvent.Inside ↔
        (matching regs text).length ≤ 10) ∧
      ∃ buf, (shellTab fuel shellInputSign sh shellbuf).answer = some buf ∧
        if (matching regs text).length ≤ 10 then Typed buf (completed (matching regs text) text)
        else buf = shellbuf := by
  obtain ⟨t, hlisted, hperm⟩ := h.listed hnew hnames
  have hnames' := h.names_perm hperm text
  have hroom : t.toList.length < fuel := by
    have hle := List.length_filter_le (Kept regs ·) regs
    rw [hperm.length_eq, List.length_map]
    omega
  rw [← hnames'.length_eq, ← completed_perm hnames', List.length_map] at hshort ⊢
  exact shellTab_spec shellInputSign hlisted hroom hline htext hspace hnul rfl hshort

/-- **TAB is safe and exact** exactly where ten of the registered names at
most begin with what has been typed. The array of matches has ten places,
and a match is stored before their number is looked at, so the eleventh is
stored behind them. -/
theorem shellTab_completes_iff (shellInputSign : List UInt8) (hnew : (regs.map (·.newcmd)).Nodup)
    (hnames : ∀ r ∈ regs, 0 ∉ r.cmdName) (hfuel : regs.length < fuel)
    (hroot : sh.root.root = none) (hline : Typed shellbuf text) (htext : text ≠ [])
    (hspace : 32 ∉ text) (hnul : 0 ∉ text) (hshort : (matching regs text).length ≤ 10 →
      (completed (matching regs text) text).length < commandlineMaxLen) :
    ∃ sh₁, run (shellRegister fuel) sh regs = some sh₁ ∧
      (TabCompletes fuel shellInputSign sh₁ shellbuf text (matching regs text) ↔
        (matching regs text).length ≤ 10) := by
  obtain ⟨sh₁, hrun, h₁⟩ := exists_registered hnew hfuel hroot
  obtain ⟨hmeets, hanswer⟩ :=
    h₁.tab shellInputSign hnew hnames hfuel hline htext hspace hnul hshort
  exact ⟨sh₁, hrun, (and_iff_left hanswer).trans hmeets⟩

/-- Of the commands of `shell_init`, two begin with `c`. -/
theorem shellTab_completes_iff_init : ∃ sh₁, run (shellRegister 4) .start initCommands = some sh₁ ∧
    (TabCompletes 4 [] sh₁ (.of (ascii "c")) (ascii "c") (matching initCommands (ascii "c")) ↔
      (matching initCommands (ascii "c")).length ≤ 10) :=
  shellTab_completes_iff [] (by decide) (by decide) (by decide) rfl (typed_of _ (by decide))
    (by decide) (by decide) (by decide) fun _ => by decide +kernel

/-- Eleven commands, `led-a` to `led-k`, which all begin alike. -/
def ledCommands : List Registration :=
  (List.range 11).map fun i => ⟨ascii "led-" ++ [UInt8.ofNat (97 + i)], i, 20 + i⟩

/-- **An eleventh match** is stored behind the array, and only then is the
number of matches looked at. -/
theorem tab_overruns : ∃ sh₁, run (shellRegister 12) .start ledCommands = some sh₁ ∧
    (matching ledCommands (ascii "led")).length = 11 ∧
    (∃ e ∈ (shellTab 12 [] sh₁ (.of (ascii "led"))).log, ¬e.Inside) ∧
    ¬TabCompletes 12 [] sh₁ (.of (ascii "led")) (ascii "led")
      (matching ledCommands (ascii "led")) := by
  have hnew : (ledCommands.map (·.newcmd)).Nodup := by decide
  have hfuel : ledCommands.length < 12 := by decide
  have hcount : (matching ledCommands (ascii "led")).length = 11 := by decide +kernel
  obtain ⟨sh₁, hrun, h₁⟩ :=
    exists_registered hnew hfuel (show Commands.start.root.root = none from rfl)
  obtain ⟨hmeets, -⟩ := h₁.tab [] hnew (by decide) hfuel (typed_of (ascii "led") (by decide))
    (by decide) (by decide) (by decide) fun hten => by omega
  rw [hcount] at hmeets
  have hout : ¬(shellTab 12 [] sh₁ (.of (ascii "led"))).Meets TabEvent.Inside :=
    fun hinside => absurd (hmeets.1 hinside) (by decide)
  refine ⟨sh₁, hrun, hcount, ?_, fun h => hout h.1⟩
  unfold Meets at hout
  push Not at hout
  exact hout

end Shell

end SlipBoard
