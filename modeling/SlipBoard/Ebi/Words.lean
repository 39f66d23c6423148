import Mathlib.Data.List.Forall2
import SlipBoard.Common.Bytes
import SlipBoard.Ebi.Getopt
import SlipBoard.Ebi.Package
/-!
# Register access — words and bytes

The write loop lays the words of the arguments out as bytes, the highest
first, at the end of the package; `swap` turns the package round; and
the read loop, behind a second `swap`, puts the words together again.
What is read back is what was written (`readLoop_writeLoop`).
-/

namespace SlipBoard

namespace Ebi

open Bytes Numerals Traced

variable {cfg : Config} {argv tail : List (Option (List UInt8))} {o : Options}
  {args : List (List UInt8)} {arg : List UInt8} {ws : List ℕ} {n w size first offset : ℕ}

/-! ## Writing -/

/-- The words of arguments, one each: an argument is a number that fits `n`
bytes. -/
def Denote (n : ℕ) (args : List (List UInt8)) (ws : List ℕ) : Prop :=
  List.Forall₂ (fun arg w => Accepts arg w ∧ w < 256 ^ n) args ws

theorem parseData_of_accepts (hn : n ∈ [1, 2, 4]) (h : Accepts arg w) (hw : w < 256 ^ n) :
    parseData n arg = pure w := by
  rcases parseData_eq hn arg with ⟨v, heq, -, hiff⟩ | ⟨hno, -⟩
  · rw [heq, (hiff w).1 h]
  · exact absurd ⟨w, h, hw⟩ hno

theorem pos_of_mem (hn : n ∈ [1, 2, 4]) : 0 < n := by
  simp only [List.mem_cons, List.not_mem_nil, or_false] at hn
  omega

theorem le_of_mem (hn : n ∈ [1, 2, 4]) : n ≤ 4 := by
  simp only [List.mem_cons, List.not_mem_nil, or_false] at hn
  omega

theorem overwrite_take_set {m i : ℕ} {d : Block m} {bs : List UInt8} {v : UInt8}
    (hv : bs[i]? = some v) :
    (d.overwrite offset (bs.take i)).set (i + offset) v = d.overwrite offset (bs.take (i + 1)) := by
  have hlen := (List.getElem?_eq_some_iff.1 hv).1
  have hat : i + offset = offset + (bs.take i).length := by
    rw [List.length_take, min_eq_left hlen.le, Nat.add_comm]
  rw [Block.set_eq_overwrite, Block.overwrite_overwrite hat, List.take_add_one, hv]
  rfl

/-- **What the write loop leaves**: the words, the highest byte first, from
`offset` on. The loop goes byte by byte, and parses the word anew for each. -/
theorem writeLoop_answer (hn : n ∈ [1, 2, 4]) (hargv : argv.drop first = args.map some ++ tail)
    (hws : Denote n args ws) {m : ℕ} (offset : ℕ) (hfit : offset + n * ws.length ≤ m)
    (hm : m < 2 ^ 32) (d : Block m) {left i : ℕ} (hi : i + left = n * ws.length) :
    (writeLoop n offset first argv left i (d.overwrite offset ((concat n ws).take i))).answer =
      some (d.overwrite offset (concat n ws)) := by
  induction left generalizing i with
  | zero =>
    have hall : (concat n ws).take i = concat n ws := by
      rw [List.take_of_length_le]
      rw [length_concat]
      omega
    rw [hall]
    rfl
  | succ left ih =>
    have hpos := pos_of_mem hn
    have hword : i / n < ws.length := Nat.div_lt_of_lt_mul (by omega)
    have hlen : i / n < args.length := hws.length_eq ▸ hword
    obtain ⟨haccepts, hlt⟩ : Accepts args[i / n] ws[i / n] ∧ ws[i / n] < 256 ^ n :=
      hws.get hlen hword
    have harg : argv[first + i / n]? = some (some args[i / n]) := by
      rw [← List.getElem?_drop, hargv, List.getElem?_append_left (by rwa [List.length_map]),
        List.getElem?_map, List.getElem?_eq_getElem hlen]
      rfl
    have hbyte := getElem?_concat (i := i) hpos (List.getElem?_eq_getElem hword)
    have hcut : cut (i + offset) = i + offset := cut_of_lt (by omega)
    have hstore : storeData (d.overwrite offset ((concat n ws).take i)) (cut (i + offset))
        (UInt8.ofNat (ws[i / n] >>> (8 * (n - i % n - 1)))) =
        ⟨[.data (cut (i + offset))], some (d.overwrite offset ((concat n ws).take (i + 1)))⟩ := by
      rw [storeData, hcut, Block.store_of_lt (by omega), overwrite_take_set hbyte]
      rfl
    have hparse := parseData_of_accepts hn haccepts hlt
    have hstep : ∀ e : Block m, (writeLoop n offset first argv (left + 1) i e).answer =
        ((storeData e (cut (i + offset)) (UInt8.ofNat (ws[i / n] >>> (8 * (n - i % n - 1))))) >>=
          fun e => writeLoop n offset first argv left (i + 1) e).answer := by
      intro e
      rw [writeLoop, readArgv_of_some harg]
      simp only [answer_bind, answer_emit, answer_lift, hparse, answer_pure, Option.bind_some]
    rw [hstep, hstore, mk_some_bind]
    exact ih (by omega)

/-! ## Turning round -/

theorem swapLoop_eq {m : ℕ} {b d : Block m} (hm : size ≤ m) {left i : ℕ} (hi : i + left = size / 2)
    (hd : ∀ k, d.byte k =
      if k < i ∨ size - i ≤ k ∧ k < size then b.byte (size - 1 - k) else b.byte k) :
    ∃ e, swapLoop size left i d = some e ∧
      ∀ k, e.byte k = if k < size then b.byte (size - 1 - k) else b.byte k := by
  induction left generalizing i d with
  | zero =>
    refine ⟨d, rfl, fun k => ?_⟩
    rw [hd]
    by_cases hk : k < i ∨ size - i ≤ k ∧ k < size
    · rw [if_pos hk, if_pos (by omega)]
    · rw [if_neg hk]
      split
      · -- the byte in the middle
        have hmid : size - 1 - k = k := by omega
        rw [hmid]
      · rfl
  | succ left ih =>
    have hload : d.load i = some (b.byte i) := by
      rw [Block.load_of_lt (by omega), hd, if_neg (by omega)]
    have hload' : d.load (size - i - 1) = some (b.byte (size - i - 1)) := by
      rw [Block.load_of_lt (by omega), hd, if_neg (by omega)]
    have hlow : i < m := by omega
    have hhigh : size - i - 1 < m := by omega
    have hstep : swapLoop size (left + 1) i d =
        swapLoop size left (i + 1)
          ((d.set i (b.byte (size - i - 1))).set (size - i - 1) (b.byte i)) := by
      simp only [swapLoop, hload, hload', Option.bind_eq_bind, Option.bind_some,
        Block.store_of_lt hlow, Block.store_of_lt hhigh]
    rw [hstep]
    refine ih (by omega) fun k => ?_
    rw [Block.byte_set, Block.byte_set, hd]
    by_cases hlow : k = size - i - 1
    · have hback : size - 1 - k = i := by omega
      rw [if_pos hlow, if_pos (by omega), hback]
    · rw [if_neg hlow]
      by_cases hhigh : k = i
      · have hback : size - 1 - k = size - i - 1 := by omega
        rw [if_pos hhigh, if_pos (by omega), hback]
      · rw [if_neg hhigh]
        by_cases hk : k < i ∨ size - i ≤ k ∧ k < size
        · rw [if_pos hk, if_pos (by omega)]
        · rw [if_neg hk, if_neg (by omega)]

/-- **`swap` turns the first `size` bytes round**, and leaves the others
where they are. -/
theorem swap_eq {m : ℕ} (b : Block m) (hm : size ≤ m) :
    ∃ d, swap b size = some d ∧ d.slice 0 size = (b.slice 0 size).reverse ∧
      ∀ k, d.byte k = if k < size then b.byte (size - 1 - k) else b.byte k := by
  have hstart : ∀ k, b.byte k =
      if k < 0 ∨ size - 0 ≤ k ∧ k < size then b.byte (size - 1 - k) else b.byte k := by
    intro k
    rw [if_neg (by omega)]
  obtain ⟨d, hd, hbyte⟩ := swapLoop_eq hm (Nat.zero_add _) hstart
  refine ⟨d, hd, List.ext_getElem (by simp) fun k hk hk' => ?_, hbyte⟩
  rw [Block.length_slice] at hk
  rw [Block.getElem_slice, List.getElem_reverse, Block.getElem_slice, Block.length_slice,
    Nat.zero_add, Nat.zero_add, hbyte, if_pos hk]

/-- Turned round twice, the bytes are as they were before. -/
theorem swap_swap {m : ℕ} {b d : Block m} (hm : size ≤ m) (hd : swap b size = some d) :
    swap d size = some b := by
  obtain ⟨d', hd', -, hbyte⟩ := swap_eq b hm
  obtain rfl := Option.some.inj (hd.symm.trans hd')
  obtain ⟨e, he, -, hbyte'⟩ := swap_eq d hm
  have heq : e = b := by
    refine congrArg Block.mk (funext fun k => ?_)
    rw [hbyte', hbyte, hbyte]
    by_cases hk : k < size
    · have hback : size - 1 - (size - 1 - k) = k := by omega
      rw [if_pos hk, if_pos (by omega), hback]
    · rw [if_neg hk, if_neg hk]
  rw [he, heq]

/-! ## Reading -/

/-- What is printed. -/
def isPrint : Event → Bool
  | .print _ => true
  | _ => false

/-- What a run prints, in its order, without its other events. -/
def prints {α : Type} (x : Traced Event α) : List Event := x.log.filter isPrint

theorem prints_bind {α β : Type} {x : Traced Event α} {f : α → Traced Event β} {a : α}
    (hx : x.answer = some a) : prints (x >>= f) = prints x ++ prints (f a) := by
  rw [prints, log_bind_of_answer hx, List.filter_append]
  rfl

@[simp] theorem answer_xfprintf (format : String) (as : List Arg) :
    (xfprintf format as).answer = some () := rfl

@[simp] theorem printBits_answer (i : ℕ) : (printBits w i).answer = some () := by
  induction i with
  | zero => rfl
  | succ i ih =>
    rw [printBits, answer_bind, answer_xfprintf, Option.bind_some]
    exact ih

@[simp] theorem printWord_answer : (printWord o w).answer = some () := by
  unfold printWord
  simp only [apply_ite answer, answer_bind, answer_xfprintf, printBits_answer, Option.bind_some,
    ite_self]

theorem prints_printWord : prints (printWord o w) = (printWord o w).log := by
  have hall : Meets (fun e => isPrint e = true) (printWord o w) :=
    Prints.printWord ⟨fun _ => rfl⟩ w
  exact List.filter_eq_self.2 hall

/-- A word of the package: what is left of it is read, and it is
printed. -/
theorem readLoop_word {m : ℕ} (data : Block m) (left : ℕ) (hn : o.dataBytes ≤ 4)
    (pre bs : List UInt8) (i : ℕ) (hbs : bs ≠ []) (hlen : pre.length + bs.length = o.dataBytes)
    (hend : o.dataBytes ∣ i + bs.length) (hm : i + bs.length ≤ m)
    (hslice : data.slice i bs.length = bs) :
    (readLoop o data (bs.length + left) i (value pre)).answer =
        (readLoop o data left (i + bs.length) 0).answer ∧
      prints (readLoop o data (bs.length + left) i (value pre)) =
        (printWord o (value (pre ++ bs))).log ++
          prints (readLoop o data left (i + bs.length) 0) := by
  induction bs generalizing pre i with
  | nil => exact absurd rfl hbs
  | cons b bs ih =>
    rw [List.length_cons] at hlen hend hm hslice
    have hb : data.byte i = b ∧ data.slice (i + 1) bs.length = bs := by
      rw [Nat.add_comm bs.length 1, Block.slice_add] at hslice
      exact List.cons.inj hslice
    have hload : data.load i = some b := by
      rw [Block.load_of_lt (by omega), hb.1]
    have htmp : cut (value pre <<< 8) ||| b.toNat = value (pre ++ [b]) := by
      have hlt : value pre < 2 ^ 24 := by
        have hpre : pre.length ≤ 3 := by omega
        have hle : 256 ^ pre.length ≤ 256 ^ 3 := Nat.pow_le_pow_right (by omega) hpre
        exact value_lt.trans_le hle
      rw [value_append_singleton]
      exact shiftLeft_or hlt b
    have hstep : readLoop o data (bs.length + 1 + left) i (value pre) =
        emit (.divide o.dataBytes) >>= fun _ =>
          if (i + 1) % o.dataBytes = 0 then printWord o (value (pre ++ [b])) >>= fun _ =>
            readLoop o data (bs.length + left) (i + 1) 0
          else readLoop o data (bs.length + left) (i + 1) (value (pre ++ [b])) := by
      rw [Nat.add_right_comm, readLoop, hload, ← htmp]
      rfl
    have hprints : ∀ {β : Type} (f : Unit → Traced Event β),
        prints (emit (.divide o.dataBytes) >>= f) = prints (f ()) := fun f => rfl
    rw [List.length_cons, hstep, hprints, answer_bind, answer_emit, Option.bind_some]
    rcases eq_or_ne bs [] with rfl | hne
    · have hzero : (i + 1) % o.dataBytes = 0 := Nat.mod_eq_zero_of_dvd hend
      rw [if_pos hzero, answer_bind, printWord_answer, Option.bind_some,
        prints_bind printWord_answer, prints_printWord, List.length_nil, Nat.zero_add]
      exact ⟨rfl, rfl⟩
    · have hpos := List.length_pos_of_ne_nil hne
      have hnot : (i + 1) % o.dataBytes ≠ 0 := by
        intro hzero
        have hdvd := (Nat.dvd_add_right (Nat.dvd_of_mod_eq_zero hzero)).1
          (show o.dataBytes ∣ (i + 1) + bs.length by rwa [Nat.add_right_comm, Nat.add_assoc])
        have hle := Nat.le_of_dvd hpos hdvd
        omega
      have happend : pre ++ b :: bs = (pre ++ [b]) ++ bs := by simp
      have hmove : i + (bs.length + 1) = i + 1 + bs.length := by omega
      rw [if_neg hnot, happend, hmove]
      refine ih _ _ hne ?_ ?_ ?_ hb.2
      · rw [List.length_append, List.length_singleton]
        omega
      · rwa [← hmove]
      · omega

/-- **The words that are read** are those of the bytes, the highest byte
first, and each is printed once. -/
theorem readLoop_eq {m : ℕ} (data : Block m) (hn : o.dataBytes ∈ [1, 2, 4]) (ws : List ℕ)
    (hws : ∀ w ∈ ws, w < 256 ^ o.dataBytes) {i : ℕ} (hi : o.dataBytes ∣ i)
    (hm : i + o.dataBytes * ws.length ≤ m)
    (hslice : data.slice i (o.dataBytes * ws.length) = concat o.dataBytes ws) :
    (readLoop o data (o.dataBytes * ws.length) i 0).answer = some () ∧
      prints (readLoop o data (o.dataBytes * ws.length) i 0) =
        ws.flatMap fun w => (printWord o w).log := by
  induction ws generalizing i with
  | nil => exact ⟨rfl, rfl⟩
  | cons w ws ih =>
    have hcount : o.dataBytes * (w :: ws).length = o.dataBytes + o.dataBytes * ws.length := by
      rw [List.length_cons]
      ring
    have hpos := pos_of_mem hn
    rw [hcount] at hm hslice ⊢
    have hfirst : data.slice i o.dataBytes = bigEndian o.dataBytes w ∧
        data.slice (i + o.dataBytes) (o.dataBytes * ws.length) = concat o.dataBytes ws := by
      rw [Block.slice_add, concat_cons] at hslice
      exact List.append_inj hslice (by simp)
    have hword := readLoop_word data (o.dataBytes * ws.length) (le_of_mem hn) []
      (bigEndian o.dataBytes w) i ?_ (by simp) ?_ ?_ ?_
    · have hvalue : value ([] ++ bigEndian o.dataBytes w) = w :=
        value_bigEndian (hws w List.mem_cons_self)
      rw [length_bigEndian, hvalue] at hword
      obtain ⟨hanswer, hprints⟩ := ih (fun v hv => hws v (List.mem_cons_of_mem _ hv))
        ((Nat.dvd_add_right hi).2 (Nat.dvd_refl _)) (by omega) hfirst.2
      refine ⟨hword.1.trans hanswer, hword.2.trans ?_⟩
      rw [hprints]
      rfl
    · intro hnil
      have hlen := congrArg List.length hnil
      simp at hlen
      omega
    · rw [length_bigEndian]
      exact (Nat.dvd_add_right hi).2 (Nat.dvd_refl _)
    · rw [length_bigEndian]
      omega
    · rw [length_bigEndian]
      exact hfirst.1

/-! ## There and back -/

/-- **What the arguments leave in the package**: the words behind as many
zeros as it has room for, turned round. -/
theorem fillData_answer (hn : o.dataBytes ∈ [1, 2, 4])
    (hargv : argv.drop first = args.map some ++ tail)
    (hws : Denote o.dataBytes args ws) (p : Package cfg)
    (hsize : p.datasize ≤ cfg.maximumEspiDataSize)
    (hright : wrongSize cfg (o.dataBytes * ws.length) p.datasize = false) :
    (fillData o ws.length argv first p).answer = some (some { p with
      isWrite := decide (ws ≠ [])
      data := p.data.overwrite (p.datasize - o.dataBytes * ws.length)
        (concat o.dataBytes ws) }) := by
  have hle := le_of_wrongSize hright
  have hpos := pos_of_mem hn
  have hlen : ws.length ≤ o.dataBytes * ws.length := Nat.le_mul_of_pos_left _ hpos
  have hmax := maximumEspiDataSize_le cfg
  have hreal : ((o.dataBytes * (ws.length : ℤ)) % 2 ^ 32).toNat = o.dataBytes * ws.length :=
    realDatasize_eq cfg hn (by omega) (by omega)
  have hoffset : sub32 p.datasize (o.dataBytes * ws.length) =
      p.datasize - o.dataBytes * ws.length :=
    sub32_of_le (by omega) hle
  unfold fillData
  rcases eq_or_ne ws [] with rfl | hne
  · simp
  · have hcount : (ws.length : ℤ) ≠ 0 := by
      have := List.length_pos_of_ne_nil hne
      omega
    have hwrite := writeLoop_answer (i := 0) hn hargv hws (p.datasize - o.dataBytes * ws.length)
      (by omega) (by omega) p.data (Nat.zero_add _)
    rw [List.take_zero, Block.overwrite_nil] at hwrite
    rw [if_neg hcount, hreal]
    dsimp only
    rw [hright, hoffset, if_neg Bool.false_ne_true, answer_bind, hwrite, Option.bind_some,
      answer_pure]
    simp [hne]

theorem slice_overwrite_zeros {m : ℕ} (offset : ℕ) (bs : List UInt8) :
    ((⟨fun _ => 0⟩ : Block m).overwrite offset bs).slice 0 (offset + bs.length) =
      List.replicate offset 0 ++ bs := by
  rw [Block.slice_add, Nat.zero_add, Block.slice_overwrite, Block.slice_overwrite_of_le (by omega)]
  congr 1
  refine List.eq_replicate_iff.2 ⟨Block.length_slice, fun v hv => ?_⟩
  obtain ⟨k, -, rfl⟩ := Block.mem_slice.1 hv
  rfl

/-- Every list of words has arguments that denote it, decimal ones for
instance. -/
theorem exists_denote (hn : n ∈ [1, 2, 4]) (hws : ∀ w ∈ ws, w < 256 ^ n) :
    ∃ args, Denote n args ws := by
  induction ws with
  | nil => exact ⟨[], List.Forall₂.nil⟩
  | cons w ws ih =>
    obtain ⟨args, hargs⟩ := ih fun v hv => hws v (List.mem_cons_of_mem _ hv)
    obtain ⟨s, hs, rfl⟩ := exists_plain w
    have hw := hws _ List.mem_cons_self
    have hmax : magnitude 10 s ≤ ulongMax := by
      have hle : 256 ^ n ≤ 256 ^ 4 := Nat.pow_le_pow_right (by omega) (le_of_mem hn)
      have hulong : ulongMax + 1 = 256 ^ 4 := by norm_num
      omega
    exact ⟨s :: args, List.Forall₂.cons ⟨Or.inr ⟨unmarked_of_plain hs, hs.denotes hmax⟩, hw⟩ hargs⟩

/-- **What is read back is what was written.** Words of `n` bytes have
arguments, and whatever arguments they have: laid out and turned round,
the package is the little-endian image of the row of the words, with
zeros in front of it where there are fewer than the package is for; and
turned round again it is read as these words. -/
theorem readLoop_writeLoop (cfg : Config) (o : Options) (hn : o.dataBytes ∈ [1, 2, 4]) (ws : List ℕ)
    (hws : ∀ w ∈ ws, w < 256 ^ o.dataBytes) (p : Package cfg) (hzero : p.data = ⟨fun _ => 0⟩)
    (hsize : p.datasize ≤ cfg.maximumEspiDataSize) (hdvd : o.dataBytes ∣ p.datasize)
    (hright : wrongSize cfg (o.dataBytes * ws.length) p.datasize = false) :
    (∃ args, Denote o.dataBytes args ws) ∧
    ∀ args, Denote o.dataBytes args ws →
      ∀ argv first tail, argv.drop first = args.map some ++ tail →
      ∃ q d e, (fillData o ws.length argv first p).answer = some (some q) ∧
        swap q.data p.datasize = some d ∧
        d.slice 0 p.datasize =
          (List.replicate (p.datasize - o.dataBytes * ws.length) 0 ++
            concat o.dataBytes ws).reverse ∧
        swap d p.datasize = some e ∧ (readLoop o e p.datasize 0 0).answer = some () ∧
        prints (readLoop o e p.datasize 0 0) =
          (List.replicate (p.datasize / o.dataBytes - ws.length) 0 ++ ws).flatMap
            fun w => (printWord o w).log := by
  refine ⟨exists_denote hn hws, fun args hargs argv first tail hargv => ?_⟩
  have hle := le_of_wrongSize hright
  have hpos := pos_of_mem hn
  -- the row with its zeros is a row of words itself
  obtain ⟨c, hc⟩ := hdvd
  have hcle : ws.length ≤ c := by
    rw [hc] at hle
    exact Nat.le_of_mul_le_mul_left hle hpos
  have hdiv : p.datasize / o.dataBytes = c := by
    rw [hc, Nat.mul_div_cancel_left _ hpos]
  have hzeros : p.datasize - o.dataBytes * ws.length = o.dataBytes * (c - ws.length) := by
    rw [hc, Nat.mul_sub]
  have hrow : List.replicate (p.datasize - o.dataBytes * ws.length) 0 ++ concat o.dataBytes ws =
      concat o.dataBytes (List.replicate (c - ws.length) 0 ++ ws) := by
    rw [concat_append, concat_replicate_zero, hzeros]
  have hcount : o.dataBytes * (List.replicate (c - ws.length) 0 ++ ws).length = p.datasize := by
    rw [List.length_append, List.length_replicate, Nat.sub_add_cancel hcle, hc]
  have hwords : ∀ w ∈ List.replicate (c - ws.length) 0 ++ ws, w < 256 ^ o.dataBytes := by
    intro w hw
    rcases List.mem_append.1 hw with hw | hw
    · rw [List.eq_of_mem_replicate hw]
      exact Nat.pow_pos (by omega)
    · exact hws w hw
  have hfill := fillData_answer hn hargv hargs p hsize hright
  have hslice := slice_overwrite_zeros (m := cfg.maximumEspiDataSize)
    (p.datasize - o.dataBytes * ws.length) (concat o.dataBytes ws)
  rw [length_concat, Nat.sub_add_cancel hle] at hslice
  rw [hzero] at hfill
  generalize (⟨fun _ => 0⟩ : Block cfg.maximumEspiDataSize).overwrite
    (p.datasize - o.dataBytes * ws.length) (concat o.dataBytes ws) = laid at hfill hslice
  obtain ⟨d, hd, hturned, -⟩ := swap_eq laid hsize
  have hread := readLoop_eq laid hn _ hwords (Nat.dvd_zero _) (by rwa [hcount, Nat.zero_add])
    (by rw [hcount, hslice, hrow])
  rw [hcount] at hread
  rw [hdiv]
  exact ⟨_, d, laid, hfill, hd, by rw [hturned, hslice], swap_swap hsize hd, hread⟩

/-- One word of two bytes in a package of four. -/
theorem readLoop_writeLoop_bbcc : ∃ q d e,
    (fillData ⟨false, false, 0, 16, 2⟩ 1 [some (ascii "0xBBCC")] 0
      (⟨0, 0, false, 4, ⟨fun _ => 0⟩⟩ : Package .spi)).answer = some (some q) ∧
    swap q.data 4 = some d ∧ d.slice 0 4 = [0xCC, 0xBB, 0, 0] ∧ swap d 4 = some e ∧
    prints (readLoop ⟨false, false, 0, 16, 2⟩ e 4 0 0) =
      [.print (.text "0x" []), .print (.text "%04X" [.num 0]), .print (.text "\n" []),
        .print (.text "0x" []), .print (.text "%04X" [.num 0xBBCC]), .print (.text "\n" [])] := by
  have hargs : Denote 2 [ascii "0xBBCC"] [0xBBCC] :=
    List.Forall₂.cons ⟨parseNumber_answer_iff.1 (by decide +kernel), by decide⟩ List.Forall₂.nil
  obtain ⟨q, d, e, hq, hd, hslice, he, -, hprints⟩ :=
    (readLoop_writeLoop .spi ⟨false, false, 0, 16, 2⟩
    (by decide) [0xBBCC] (by decide) ⟨0, 0, false, 4, ⟨fun _ => 0⟩⟩ rfl (by decide)
    (by decide) (by decide)).2 [ascii "0xBBCC"] hargs [some (ascii "0xBBCC")] 0 [] rfl
  exact ⟨q, d, e, hq, hd, hslice, he, hprints⟩

end Ebi

end SlipBoard
