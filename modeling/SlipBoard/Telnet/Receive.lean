import SlipBoard.Telnet.Model.Console
/-!
# Telnet input — what a cut into netbufs does to the keys

The receive loop reads the length of a netbuf as its meaning: one byte
is a key, three an arrow, more than three the client's negotiation. In
an open session every netbuf therefore hands on at most one byte
(`netbufKeys`), and the bytes handed on are the bytes sent exactly when
the cut is the finest one (`receive_handed`).
-/

namespace SlipBoard

namespace Telnet

variable {build : Build} {o : OptionsUser} {bufs : List (List UInt8)} {buf : List UInt8}

/-- A byte that is no IAC, no ESC and no NUL. -/
def Ordinary (b : UInt8) : Prop := b ≠ 255 ∧ b ≠ keyEsc ∧ b ≠ 0

instance (b : UInt8) : Decidable (Ordinary b) := inferInstanceAs (Decidable (_ ∧ _))

namespace Build

/-- The session passes its bytes to the line editor: from the start in a
build without a dialogue, else once a login has been accepted. -/
def Open : Build → OptionsUser → Prop
  | .accest _, o => o.state = .input
  | .plain, _ => True

/-- What the call `telNetConsole(NULL, …)` of the negotiation branch
hands on. -/
def filler : Build → UInt8
  | .accest _ => 0
  | .plain => 13

/-- **What a netbuf of ordinary bytes hands on**: its first byte, unless
the loop takes it for an escape sequence or for a negotiation. -/
def netbufKeys (build : Build) (buf : List UInt8) : List UInt8 :=
  if buf.length > 3 then [build.filler]
  else if buf.length = 3 then []
  else buf.take 1

/-- In an open session a byte is handed on, and nothing else happens. -/
theorem console_of_open (hopen : build.Open o) (data : UInt8) :
    build.console data o = (o, [.recymeMas [if data = 0 then build.filler else data]]) := by
  cases build with
  | accest users =>
    have hst : o.state = .input := hopen
    by_cases hdata : data = 0
    · simp [console, telNetConsole, hst, hdata, filler]
    · simp [console, telNetConsole, hst, hdata]
  | plain => rfl

/-- At most one byte of a netbuf is handed on. -/
theorem length_netbufKeys_le (buf : List UInt8) : (build.netbufKeys buf).length ≤ 1 := by
  unfold netbufKeys
  split
  · simp
  · split
    · simp
    · rw [List.length_take]
      omega

/-- A netbuf of one byte is handed on as it is. -/
theorem netbufKeys_singleton (h : buf.length = 1) : build.netbufKeys buf = buf := by
  unfold netbufKeys
  rw [if_neg (by omega), if_neg (by omega), List.take_of_length_le (by omega)]

end Build

/-- A netbuf of ordinary bytes holds no escape sequence. -/
theorem handleNetbuf_of_open (hopen : build.Open o) (hne : buf ≠ [])
    (hord : ∀ b ∈ buf, Ordinary b) :
    (handleNetbuf build buf o).1 = o ∧
      handed (handleNetbuf build buf o).2 = build.netbufKeys buf := by
  obtain ⟨b, rest, rfl⟩ := List.exists_cons_of_ne_nil hne
  obtain ⟨-, hesc, hzero⟩ := hord b (by simp)
  unfold handleNetbuf Build.netbufKeys
  by_cases hlong : (b :: rest).length > 3
  · simp only [hlong, if_true, Build.console_of_open hopen]
    exact ⟨trivial, rfl⟩
  rw [if_neg hlong, if_neg hlong]
  by_cases hthree : (b :: rest).length = 3
  -- an arrow would begin with an ESC
  · have hnot : ¬ ((b :: rest).getD 0 0 = 27 ∧ (b :: rest).getD 1 0 = 91) := fun h => hesc h.1
    rw [if_pos hthree, if_pos hthree, if_neg hnot]
    exact ⟨rfl, rfl⟩
  · rw [if_neg hthree, if_neg hthree, Build.console_of_open hopen]
    simp [handed, hzero]

/-- The netbufs of a session, one after another: the session stays open, and
hands on what each netbuf is for. -/
theorem receive_of_open (hopen : build.Open o) (hne : ∀ buf ∈ bufs, buf ≠ [])
    (hord : ∀ b ∈ bufs.flatten, Ordinary b) :
    (receive build bufs o).1 = o ∧
      handed (receive build bufs o).2 = bufs.flatMap build.netbufKeys := by
  induction bufs with
  | nil => exact ⟨rfl, rfl⟩
  | cons buf bufs ih =>
    simp only [List.flatten_cons, List.mem_append] at hord
    obtain ⟨hst, hkeys⟩ := handleNetbuf_of_open hopen (hne buf (by simp))
      (fun b hb => hord b (Or.inl hb))
    obtain ⟨hst', hkeys'⟩ := ih (fun buf hb => hne buf (List.mem_cons_of_mem _ hb))
      (fun b hb => hord b (Or.inr hb))
    simp only [receive, hst, List.flatMap_cons]
    refine ⟨hst', ?_⟩
    rw [← hkeys, ← hkeys', handed, handed, handed, List.flatMap_append]

theorem length_flatMap_netbufKeys_le (build : Build) (hne : ∀ buf ∈ bufs, buf ≠ []) :
    (bufs.flatMap build.netbufKeys).length ≤ bufs.flatten.length := by
  induction bufs with
  | nil => exact Nat.le_refl 0
  | cons buf bufs ih =>
    have hpos : 0 < buf.length := List.length_pos_iff.2 (hne buf (by simp))
    have hle := build.length_netbufKeys_le buf
    have hrest := ih fun c hc => hne c (List.mem_cons_of_mem _ hc)
    simp only [List.flatMap_cons, List.flatten_cons, List.length_append]
    omega

/-- Handing on at most one byte a netbuf, only the finest cut hands on
everything. -/
theorem flatMap_netbufKeys_eq_flatten_iff (hne : ∀ buf ∈ bufs, buf ≠ []) :
    bufs.flatMap build.netbufKeys = bufs.flatten ↔ ∀ buf ∈ bufs, buf.length = 1 := by
  constructor
  · induction bufs with
    | nil => simp
    | cons buf bufs ih =>
      intro heq
      have hne' : ∀ c ∈ bufs, c ≠ [] := fun c hc => hne c (List.mem_cons_of_mem _ hc)
      have hpos : 0 < buf.length := List.length_pos_iff.2 (hne buf (by simp))
      have hle := build.length_netbufKeys_le buf
      have hrest := length_flatMap_netbufKeys_le build hne'
      rw [List.flatMap_cons, List.flatten_cons] at heq
      have hlen := congrArg List.length heq
      rw [List.length_append, List.length_append] at hlen
      -- what one netbuf holds back, the others cannot make up for
      have hone : buf.length = 1 := by omega
      rw [Build.netbufKeys_singleton hone] at heq
      intro c hc
      rcases List.mem_cons.1 hc with rfl | hc
      · exact hone
      · exact ih hne' (List.append_cancel_left heq) c hc
  · intro hone
    induction bufs with
    | nil => rfl
    | cons buf bufs ih =>
      rw [List.flatMap_cons, List.flatten_cons, Build.netbufKeys_singleton (hone buf (by simp)),
        ih (fun c hc => hne c (List.mem_cons_of_mem _ hc))
          (fun c hc => hone c (List.mem_cons_of_mem _ hc))]

/-- **The keys of an open session are handed on netbuf by netbuf**, and
they are the bytes the client sent if and only if every netbuf holds
one. -/
theorem receive_handed (hopen : build.Open o) (hne : ∀ buf ∈ bufs, buf ≠ [])
    (hord : ∀ b ∈ bufs.flatten, Ordinary b) :
    handed (receive build bufs o).2 = bufs.flatMap build.netbufKeys ∧
      (handed (receive build bufs o).2 = bufs.flatten ↔ ∀ buf ∈ bufs, buf.length = 1) := by
  have hkeys := (receive_of_open hopen hne hord).2
  refine ⟨hkeys, ?_⟩
  rw [hkeys]
  exact flatMap_netbufKeys_eq_flatten_iff hne

/-- A session in which every length class of netbuf occurs. -/
def mixedCut : List (List UInt8) :=
  [ascii "a", ascii "bc", ascii "def", ascii "ghij", ascii "k"]

/-- Options of an open session, behind a login that has cleared its buffer. -/
def openOptions : OptionsUser := ⟨.input, 0, ⟨fun _ => 0⟩, 0⟩

theorem receive_handed_mixed :
    handed (receive (.accest initUsers) mixedCut openOptions).2 = ascii "ab" ++ [0] ++ ascii "k" ∧
      handed (receive (.accest initUsers) mixedCut openOptions).2 ≠ mixedCut.flatten := by
  obtain ⟨hkeys, hiff⟩ := receive_handed
    (show Build.Open (.accest initUsers) openOptions from rfl)
    (show ∀ buf ∈ mixedCut, buf ≠ [] by decide) (by decide +kernel)
  refine ⟨hkeys.trans rfl, fun heq => ?_⟩
  exact absurd (hiff.1 heq) (by decide)

/-- **The keys depend on the cut**: of two bytes in one netbuf the
second is lost. -/
theorem segmentation_matters :
    ¬ ∀ (build : Build) (o : OptionsUser) (bufs bufs' : List (List UInt8)), build.Open o →
      (∀ buf ∈ bufs, buf ≠ []) → (∀ buf ∈ bufs', buf ≠ []) → (∀ b ∈ bufs.flatten, Ordinary b) →
      bufs.flatten = bufs'.flatten →
      handed (receive build bufs o).2 = handed (receive build bufs' o).2 ∧
        handed (receive build bufs o).2 = bufs.flatten := by
  intro h
  have hcut := h (.accest initUsers) openOptions [ascii "ls"] [ascii "l", ascii "s"] rfl
    (by decide) (by decide) (by decide +kernel) (by decide)
  exact absurd hcut.2 (by decide +kernel)

end Telnet

end SlipBoard
