import SlipBoard.Common.Doubling
import SlipBoard.Shell.Model.Chunk
/-!
# Telnet server — receiving a file

The client sends a file with each `0xFF` twice. `telnet_recv_file` undoes
that by looking ahead, and keeps nothing of it between two chunks: what
it makes of a chunk is `lookAhead` (`copyFile_answer`). The file arrives
exactly where no chunk is a half (`received_iff`). A chunk that ends with
a byte copied, not with one dropped, is read behind
(`telnetRecvFile_inFile`). So no file is received as it should be but
one of `0xFF` alone, cut between the pairs (`recvFile_iff`).
-/

namespace SlipBoard

namespace Shell

open Traced Doubling

variable {c : Chunk} {file : TelnetFile}

/-- Where the event is a read of `telnet_recv_file`, it is in front of
`copyend`. Other events are not its own. -/
def Access.InFile : Access → Prop
  | .fileLoad i copyend => i < copyend
  | _ => True

/-- The bytes of the words stored, in the order of the stores. -/
def wordBytes (log : List Access) : List UInt8 :=
  log.flatMap fun
    | .word _ bytes => bytes
    | _ => []

/-- The bytes of a file on the wire, where the sender has doubled each 0xff. -/
def sent (F : List UInt8) : List UInt8 := double 0xff F

/-- `telnet_recv_file` for each chunk of a file, with the state of one call
handed to the next. -/
def recvFile : List Chunk → TelnetFile → Traced Access TelnetFile
  | [], file => return file
  | c :: cs, file => do
    let file ← c.telnetRecvFile 0 c.data.length file
    recvFile cs file

/-- The file has arrived: its bytes are the words stored and then the
bytes kept, and the address is behind the words. -/
def Received (F : List UInt8) (addr : UInt32) (x : Traced Access TelnetFile) : Prop :=
  ∃ file, x.answer = some file ∧ wordBytes x.log ++ file.kept = F ∧
    file.addr = addr + UInt32.ofNat (4 * (F.length / 4))

/-! ## One chunk -/

theorem Chunk.byte_of_lt {i : ℕ} (hi : i < c.data.length) : c.byte i = c.data[i] := by
  rw [Chunk.byte, List.getD_eq_getElem?_getD, List.getElem?_eq_getElem hi, Option.getD_some]

/-- The pointer in front of a byte of the chunk. -/
theorem Chunk.byte_of_drop {ptr : ℕ} {b : UInt8} {rest : List UInt8}
    (h : c.data.drop ptr = b :: rest) :
    ptr < c.data.length ∧ c.byte ptr = b ∧ c.data.drop (ptr + 1) = rest := by
  have hptr : ptr < c.data.length := by
    by_contra hle
    rw [List.drop_eq_nil_of_le (by omega)] at h
    cases h
  rw [List.drop_eq_getElem_cons hptr, List.cons.injEq] at h
  exact ⟨hptr, (c.byte_of_lt hptr).trans h.1, h.2⟩

theorem wordBytes_append (l l' : List Access) :
    wordBytes (l ++ l') = wordBytes l ++ wordBytes l' :=
  List.flatMap_append

/-- Where the pointer after a byte is: behind the next one too, where that
is 0xff. -/
def Chunk.nextFrom (c : Chunk) (copyfrom : ℕ) : ℕ :=
  if c.byte (copyfrom + 1) = 0xff then copyfrom + 2 else copyfrom + 1

/-- Behind a byte that `0xff` follows, -/
theorem Chunk.nextFrom_of_ff {b : UInt8} {l : List UInt8} {copyfrom : ℕ}
    (h : c.data.drop copyfrom = b :: 0xff :: l) :
    c.nextFrom copyfrom = copyfrom + 2 ∧ c.data.drop (copyfrom + 2) = l := by
  obtain ⟨-, -, htail⟩ := c.byte_of_drop h
  obtain ⟨-, hnext, hrest⟩ := c.byte_of_drop htail
  exact ⟨if_pos hnext, hrest⟩

/-- and behind one that another byte follows. -/
theorem Chunk.nextFrom_of_ne {b b' : UInt8} {l : List UInt8} {copyfrom : ℕ}
    (h : c.data.drop copyfrom = b :: b' :: l) (hb' : b' ≠ 0xff) :
    c.nextFrom copyfrom = copyfrom + 1 ∧ c.data.drop (copyfrom + 1) = b' :: l := by
  obtain ⟨-, -, htail⟩ := c.byte_of_drop h
  obtain ⟨-, hnext, -⟩ := c.byte_of_drop htail
  exact ⟨if_neg (by rwa [hnext]), htail⟩

theorem copyFile_end {copyend fuel copyfrom : ℕ} {buf : List UInt8} (hfuel : 0 < fuel)
    (h : copyend ≤ copyfrom) : c.copyFile copyend fuel copyfrom buf = pure buf := by
  obtain ⟨fuel, rfl⟩ : ∃ n, fuel = n + 1 := ⟨fuel - 1, by omega⟩
  rw [Chunk.copyFile, if_neg (by omega)]

/-- One round of the copy: two reads, the second of which may be behind the
chunk, and one byte kept. -/
theorem copyFile_round (fuel : ℕ) (buf : List UInt8) {copyend copyfrom : ℕ}
    (h : copyfrom < copyend) :
    (c.copyFile copyend (fuel + 1) copyfrom buf).answer =
        (c.copyFile copyend fuel (c.nextFrom copyfrom) (buf ++ [c.byte copyfrom])).answer ∧
      (c.copyFile copyend (fuel + 1) copyfrom buf).log =
        .fileLoad copyfrom copyend :: .fileLoad (copyfrom + 1) copyend ::
          (c.copyFile copyend fuel (c.nextFrom copyfrom) (buf ++ [c.byte copyfrom])).log := by
  rw [Chunk.copyFile, if_pos h]
  constructor
  · rw [answer_bind_of_answer rfl, answer_bind_of_answer rfl]
    rfl
  · rw [log_bind_of_answer rfl, log_bind_of_answer rfl]
    rfl

/-- **The loop over a chunk looks ahead**: of two bytes `0xFF` it keeps one.
It stores no word. -/
theorem copyFile_answer (rest : List UInt8) : ∀ (fuel copyfrom : ℕ) (buf : List UInt8),
    c.data.drop copyfrom = rest → rest.length < fuel →
    (c.copyFile c.data.length fuel copyfrom buf).answer = some (buf ++ lookAhead 0xff rest) ∧
      wordBytes (c.copyFile c.data.length fuel copyfrom buf).log = [] := by
  -- a round leaves the rest with a byte or two less
  have round : ∀ {b : UInt8} {l r : List UInt8} {fuel copyfrom : ℕ} {buf : List UInt8},
      c.data.drop copyfrom = b :: l → lookAhead 0xff (b :: l) = b :: lookAhead 0xff r →
      ((c.copyFile c.data.length fuel (c.nextFrom copyfrom) (buf ++ [b])).answer =
          some (buf ++ [b] ++ lookAhead 0xff r) ∧
        wordBytes (c.copyFile c.data.length fuel (c.nextFrom copyfrom) (buf ++ [b])).log = []) →
      (c.copyFile c.data.length (fuel + 1) copyfrom buf).answer =
          some (buf ++ lookAhead 0xff (b :: l)) ∧
        wordBytes (c.copyFile c.data.length (fuel + 1) copyfrom buf).log = [] := by
    intro b l r fuel copyfrom buf hdrop hlook hrest
    obtain ⟨hptr, hb, -⟩ := c.byte_of_drop hdrop
    obtain ⟨hanswer, hlog⟩ := copyFile_round (c := c) fuel buf hptr
    rw [hb] at hanswer hlog
    rw [hanswer, hlog, hlook, hrest.1]
    refine ⟨?_, hrest.2⟩
    rw [List.append_assoc, List.singleton_append]
  induction rest using lookAhead.induct (0xff : UInt8) with
  | case1 =>
    intro fuel copyfrom buf hdrop hfuel
    rw [copyFile_end (by omega) (List.drop_eq_nil_iff.1 hdrop)]
    exact ⟨by rw [lookAhead, List.append_nil, answer_pure], rfl⟩
  | case2 b =>
    intro fuel copyfrom buf hdrop hfuel
    obtain ⟨fuel, rfl⟩ : ∃ n, fuel = n + 1 := ⟨fuel - 1, by omega⟩
    obtain ⟨-, -, hend⟩ := c.byte_of_drop hdrop
    have hlen := List.drop_eq_nil_iff.1 hend
    have hnext : c.data.length ≤ c.nextFrom copyfrom := by
      unfold Chunk.nextFrom
      split <;> omega
    rw [List.length_singleton] at hfuel
    refine round (r := []) hdrop rfl ?_
    rw [copyFile_end (by omega) hnext]
    exact ⟨by rw [lookAhead, List.append_nil, answer_pure], rfl⟩
  | case3 b l ih =>
    intro fuel copyfrom buf hdrop hfuel
    obtain ⟨fuel, rfl⟩ : ∃ n, fuel = n + 1 := ⟨fuel - 1, by omega⟩
    obtain ⟨hnext, hrest⟩ := Chunk.nextFrom_of_ff hdrop
    refine round (r := l) hdrop (by rw [lookAhead, if_pos rfl]) ?_
    rw [hnext]
    simp only [List.length_cons] at hfuel
    exact ih _ _ _ hrest (by omega)
  | case4 b b' l hb' ih =>
    intro fuel copyfrom buf hdrop hfuel
    obtain ⟨fuel, rfl⟩ : ∃ n, fuel = n + 1 := ⟨fuel - 1, by omega⟩
    obtain ⟨hnext, hrest⟩ := Chunk.nextFrom_of_ne hdrop hb'
    refine round (r := b' :: l) hdrop (by rw [lookAhead, if_neg hb']) ?_
    rw [hnext]
    rw [List.length_cons] at hfuel
    exact ih _ _ _ hrest (by omega)

/-- The words are the whole fours of the buffer. -/
theorem storeWords_answer : ∀ (size : ℕ) (buf : List UInt8) (addr : UInt32),
    4 * size ≤ buf.length →
    (Chunk.storeWords size buf addr).answer = some (addr + UInt32.ofNat (4 * size)) ∧
      wordBytes (Chunk.storeWords size buf addr).log = buf.take (4 * size) := by
  intro size
  induction size with
  | zero =>
    intro buf addr _
    refine ⟨?_, rfl⟩
    show some addr = some (addr + 0)
    rw [UInt32.add_zero]
  | succ size ih =>
    intro buf addr hle
    obtain ⟨hanswer, hlog⟩ := ih (buf.drop 4) (addr + 4) (by rw [List.length_drop]; omega)
    rw [Chunk.storeWords, answer_bind_of_answer rfl, log_bind_of_answer rfl, hanswer,
      wordBytes_append, hlog]
    rw [show 4 * (size + 1) = 4 + 4 * size by omega]
    constructor
    · rw [UInt32.ofNat_add, UInt32.add_assoc]
      rfl
    · show (buf.take 4 ++ []) ++ _ = _
      rw [List.append_nil, List.take_add]

/-- **A chunk.** Its bytes, looked ahead, are put behind the bytes kept;
whole words of that are stored. -/
theorem telnetRecvFile_answer (file : TelnetFile) {ptr len : ℕ} (hlen : ptr + len = c.data.length) :
    ∃ file', (c.telnetRecvFile ptr len file).answer = some file' ∧
      wordBytes (c.telnetRecvFile ptr len file).log ++ file'.kept =
        file.kept ++ lookAhead 0xff (c.data.drop ptr) ∧
      4 ∣ (wordBytes (c.telnetRecvFile ptr len file).log).length ∧
      file'.addr = file.addr +
        UInt32.ofNat (wordBytes (c.telnetRecvFile ptr len file).log).length := by
  have hfuel : (c.data.drop ptr).length < len + 1 := by
    rw [List.length_drop]
    omega
  obtain ⟨hcopy, hlog⟩ := copyFile_answer _ (len + 1) ptr file.kept rfl hfuel
  set buf := file.kept ++ lookAhead 0xff (c.data.drop ptr)
  obtain ⟨haddr, hwords⟩ := storeWords_answer (buf.length / 4) buf file.addr (by omega)
  unfold Chunk.telnetRecvFile
  rw [hlen, answer_bind_of_answer hcopy, log_bind_of_answer hcopy, answer_bind_of_answer haddr,
    log_bind_of_answer haddr, wordBytes_append, hlog, wordBytes_append, hwords]
  have hnil : ∀ f : TelnetFile, wordBytes (pure f : Traced Access TelnetFile).log = [] :=
    fun _ => rfl
  refine ⟨_, rfl, ?_⟩
  rw [hnil, List.nil_append, List.append_nil, List.length_take, min_eq_left (by omega)]
  exact ⟨List.take_append_drop _ _, Nat.dvd_mul_right 4 _, rfl⟩

/-- The reads of the loop: all inside where the last byte is dropped. -/
theorem copyFile_inFile (rest : List UInt8) : ∀ (fuel copyfrom : ℕ) (buf : List UInt8),
    c.data.drop copyfrom = rest → rest.length < fuel →
    ((c.copyFile c.data.length fuel copyfrom buf).Meets Access.InFile ↔ EndsDropped 0xff rest) := by
  -- a round whose two reads are inside
  have round : ∀ {b b' : UInt8} {l : List UInt8} {fuel copyfrom : ℕ} {buf : List UInt8},
      c.data.drop copyfrom = b :: b' :: l →
      ((c.copyFile c.data.length (fuel + 1) copyfrom buf).Meets Access.InFile ↔
        (c.copyFile c.data.length fuel (c.nextFrom copyfrom)
          (buf ++ [c.byte copyfrom])).Meets Access.InFile) := by
    intro b b' l fuel copyfrom buf hdrop
    obtain ⟨hptr, -, htail⟩ := c.byte_of_drop hdrop
    obtain ⟨hptr', -, -⟩ := c.byte_of_drop htail
    unfold Meets
    rw [(copyFile_round (c := c) _ _ hptr).2]
    simp only [List.forall_mem_cons, Access.InFile, hptr, hptr', true_and]
  induction rest using lookAhead.induct (0xff : UInt8) with
  | case1 =>
    intro fuel copyfrom buf hdrop hfuel
    rw [copyFile_end (by omega) (List.drop_eq_nil_iff.1 hdrop)]
    exact iff_of_true (meets_pure buf) trivial
  | case2 b =>
    intro fuel copyfrom buf hdrop hfuel
    obtain ⟨fuel, rfl⟩ : ∃ n, fuel = n + 1 := ⟨fuel - 1, by omega⟩
    obtain ⟨hptr, -, hend⟩ := c.byte_of_drop hdrop
    have hlen := List.drop_eq_nil_iff.1 hend
    refine iff_of_false (fun hmeets => ?_) id
    -- the second read of the last byte's round
    have hread : Access.InFile (.fileLoad (copyfrom + 1) c.data.length) := by
      refine hmeets _ ?_
      rw [(copyFile_round (c := c) _ _ hptr).2]
      exact List.mem_cons_of_mem _ List.mem_cons_self
    unfold Access.InFile at hread
    omega
  | case3 b l ih =>
    intro fuel copyfrom buf hdrop hfuel
    obtain ⟨fuel, rfl⟩ : ∃ n, fuel = n + 1 := ⟨fuel - 1, by omega⟩
    obtain ⟨hnext, hrest⟩ := Chunk.nextFrom_of_ff hdrop
    rw [round hdrop, hnext, EndsDropped, if_pos rfl]
    simp only [List.length_cons] at hfuel
    exact ih _ _ _ hrest (by omega)
  | case4 b b' l hb' ih =>
    intro fuel copyfrom buf hdrop hfuel
    obtain ⟨fuel, rfl⟩ : ∃ n, fuel = n + 1 := ⟨fuel - 1, by omega⟩
    obtain ⟨hnext, hrest⟩ := Chunk.nextFrom_of_ne hdrop hb'
    rw [round hdrop, hnext, EndsDropped, if_neg hb']
    rw [List.length_cons] at hfuel
    exact ih _ _ _ hrest (by omega)

/-- The events of the loop over a chunk are reads of it. -/
theorem copyFile_meets {P : Access → Prop} (hP : ∀ i copyend, P (.fileLoad i copyend))
    (copyend : ℕ) : ∀ (fuel copyfrom : ℕ) (buf : List UInt8),
    (c.copyFile copyend fuel copyfrom buf).Meets P := by
  intro fuel
  induction fuel with
  | zero =>
    intro copyfrom buf
    exact meets_lift none
  | succ fuel ih =>
    intro copyfrom buf
    rw [Chunk.copyFile]
    split
    · refine (meets_bind_of_answer rfl).2 ⟨List.forall_mem_singleton.2 (hP _ _), ?_⟩
      exact (meets_bind_of_answer rfl).2 ⟨List.forall_mem_singleton.2 (hP _ _), ih _ _⟩
    · exact meets_pure buf

/-- The events of the loop over the words are the words. -/
theorem storeWords_meets {P : Access → Prop} (hP : ∀ addr bytes, P (.word addr bytes)) :
    ∀ (size : ℕ) (buf : List UInt8) (addr : UInt32),
    (Chunk.storeWords size buf addr).Meets P := by
  intro size
  induction size with
  | zero =>
    intro buf addr
    exact meets_pure addr
  | succ size ih =>
    intro buf addr
    exact (meets_bind_of_answer rfl).2 ⟨List.forall_mem_singleton.2 (hP _ _), ih _ _⟩

/-- **The reads of a chunk** are inside it exactly where its last byte is
dropped. -/
theorem telnetRecvFile_inFile :
    (c.telnetRecvFile 0 c.data.length file).Meets Access.InFile ↔ EndsDropped 0xff c.data := by
  have hfuel : c.data.length < c.data.length + 1 := by omega
  obtain ⟨hcopy, -⟩ := copyFile_answer c.data _ 0 file.kept rfl hfuel
  unfold Chunk.telnetRecvFile
  rw [Nat.zero_add, meets_bind_of_answer hcopy, copyFile_inFile c.data _ 0 file.kept rfl hfuel]
  refine and_iff_left (meets_bind.2 ⟨storeWords_meets (fun _ _ => trivial) _ _ _, fun addr _ => ?_⟩)
  exact meets_pure _

/-! ## A file -/

/-- The chunks of a file are looked ahead one by one, and their words are
stored one behind the other. -/
theorem recvFile_answer (cs : List Chunk) (file : TelnetFile) :
    ∃ file', (recvFile cs file).answer = some file' ∧
      wordBytes (recvFile cs file).log ++ file'.kept =
        file.kept ++ (cs.map Chunk.data).flatMap (lookAhead 0xff) ∧
      4 ∣ (wordBytes (recvFile cs file).log).length ∧
      file'.addr = file.addr + UInt32.ofNat (wordBytes (recvFile cs file).log).length := by
  induction cs generalizing file with
  | nil =>
    refine ⟨file, rfl, ?_, Nat.dvd_zero 4, (UInt32.add_zero _).symm⟩
    rw [List.map_nil, List.flatMap_nil, List.append_nil]
    rfl
  | cons c cs ih =>
    obtain ⟨file₁, hone, hbytes, hdvd, haddr⟩ :=
      telnetRecvFile_answer (c := c) file (Nat.zero_add c.data.length)
    obtain ⟨file₂, htwo, hbytes₂, hdvd₂, haddr₂⟩ := ih file₁
    rw [recvFile, answer_bind_of_answer hone, log_bind_of_answer hone, wordBytes_append]
    refine ⟨file₂, htwo, ?_, ?_, ?_⟩
    · rw [List.append_assoc, hbytes₂, ← List.append_assoc, hbytes, List.map_cons,
        List.flatMap_cons, List.drop_zero, List.append_assoc]
    · rw [List.length_append]
      exact Nat.dvd_add hdvd hdvd₂
    · rw [haddr₂, haddr, List.length_append, UInt32.ofNat_add, UInt32.add_assoc]

/-- **The file arrives** exactly where no chunk that begins outside a pair
is an odd number of `0xFF` and nothing else. -/
theorem received_iff {F : List UInt8} {cs : List Chunk} (hkept : file.kept = [])
    (hcut : (cs.map Chunk.data).flatten = sent F) :
    Received F file.addr (recvFile cs file) ↔
      ∀ before p after, cs.map Chunk.data = before ++ p :: after →
        Even (before.flatten.count 0xff) → (∀ b ∈ p, b = 0xff) → Even p.length := by
  have hpaired : Paired 0xff false (cs.map Chunk.data).flatten := hcut ▸ paired_double
  have hpairs : pairs 0xff false (cs.map Chunk.data).flatten = F := hcut ▸ pairs_double
  obtain ⟨file', hanswer, hbytes, hdvd, haddr⟩ := recvFile_answer cs file
  rw [← noHalf_iff hpaired, ← flatMap_lookAhead_eq_iff hpaired, hpairs]
  rw [hkept, List.nil_append] at hbytes
  constructor
  · rintro ⟨file'', hanswer', hF, -⟩
    rw [hanswer, Option.some_inj] at hanswer'
    rw [← hbytes, hanswer', hF]
  · intro hF
    have hlen := congrArg List.length (hbytes.trans hF)
    have hlt := file'.kept_lt
    rw [List.length_append] at hlen
    refine ⟨file', hanswer, hbytes.trans hF, ?_⟩
    rw [haddr, show 4 * (F.length / 4) = (wordBytes (recvFile cs file).log).length by omega]

theorem recvFile_inFile (cs : List Chunk) (file : TelnetFile) :
    (recvFile cs file).Meets Access.InFile ↔ ∀ c ∈ cs, EndsDropped 0xff c.data := by
  induction cs generalizing file with
  | nil => exact iff_of_true (meets_pure file) fun _ hc => by cases hc
  | cons c cs ih =>
    obtain ⟨file', hone, -⟩ :=
      telnetRecvFile_answer (c := c) file (Nat.zero_add c.data.length)
    rw [recvFile, meets_bind_of_answer hone, telnetRecvFile_inFile, ih, List.forall_mem_cons]

/-- Chunks of the size TCP sends leave room in `telnet_file.buf`. -/
theorem copyFile_fits {buf : List UInt8} (hsize : c.data.length ≤ tcpMss)
    (h : (c.copyFile c.data.length (c.data.length + 1) 0 file.kept).answer = some buf) :
    buf.length < tcpMss + 4 := by
  have hkept := file.kept_lt
  have hle := length_lookAhead_le (e := (0xff : UInt8)) (l := c.data)
  rw [(copyFile_answer c.data _ 0 file.kept rfl (by omega)).1, Option.some_inj] at h
  rw [← h, List.length_append]
  omega

/-- **A file is received, and each chunk read inside**, exactly where each
chunk is an even number of `0xFF` and nothing else. The bytes alone
arrive exactly where no chunk that begins outside a pair is an odd number
of `0xFF` and nothing else. -/
theorem recvFile_iff (F : List UInt8) (cs : List Chunk) (file : TelnetFile)
    (hremain : file.remain = 0) (hcut : (cs.map Chunk.data).flatten = sent F) :
    (Received F file.addr (recvFile cs file) ∧ (recvFile cs file).Meets Access.InFile ↔
      ∀ c ∈ cs, Even c.data.length ∧ ∀ b ∈ c.data, b = 0xff) ∧
    (Received F file.addr (recvFile cs file) ↔
      ∀ before p after, cs.map Chunk.data = before ++ p :: after →
        Even (before.flatten.count 0xff) → (∀ b ∈ p, b = 0xff) → Even p.length) := by
  have hiff := received_iff (List.eq_nil_of_length_eq_zero hremain) hcut
  have hend : inside 0xff false (cs.map Chunk.data).flatten = false := hcut ▸ inside_double
  have hdropped := endsDropped_pieces_iff hend
  simp only [List.forall_mem_map] at hdropped
  refine ⟨?_, hiff⟩
  rw [hiff, recvFile_inFile, hdropped]
  refine and_iff_right_of_imp fun hall before p after heq _ _ => ?_
  have hmem : p ∈ cs.map Chunk.data := by
    rw [heq]
    exact List.mem_append_right before List.mem_cons_self
  obtain ⟨c, hc, rfl⟩ := List.mem_map.1 hmem
  exact (hall c hc).1

/-- A file of two `0xFF`, in one chunk of four. -/
theorem recvFile_marks :
    Received [0xff, 0xff] telnetFileAddr
        (recvFile [⟨List.replicate 4 0xff, fun _ => 0⟩] ⟨telnetFileAddr, [], by decide⟩) ∧
      (recvFile [⟨List.replicate 4 0xff, fun _ => 0⟩]
        ⟨telnetFileAddr, [], by decide⟩).Meets Access.InFile := by
  refine (recvFile_iff [0xff, 0xff] _ ⟨telnetFileAddr, [], by decide⟩ rfl rfl).1.2 ?_
  intro c hc
  rw [List.mem_singleton.1 hc]
  exact ⟨by decide, fun b => List.eq_of_mem_replicate⟩

/-- **A pair cut in two** arrives as two bytes: the file is a single
`0xFF`. And of a file of one letter the byte behind its chunk is read. -/
theorem pair_cut :
    (∃ cs : List Chunk, (cs.map Chunk.data).flatten = sent [0xff] ∧
      (∀ c ∈ cs, 1 ≤ c.data.length ∧ c.data.length ≤ tcpMss) ∧
      ¬ Received [0xff] telnetFileAddr (recvFile cs ⟨telnetFileAddr, [], by decide⟩)) ∧
    ∃ cs : List Chunk, (cs.map Chunk.data).flatten = sent [65] ∧
      (∀ c ∈ cs, 1 ≤ c.data.length ∧ c.data.length ≤ tcpMss) ∧
      ¬ (recvFile cs ⟨telnetFileAddr, [], by decide⟩).Meets Access.InFile := by
  refine ⟨⟨[⟨[0xff], fun _ => 0⟩, ⟨[0xff], fun _ => 0⟩], rfl, by simp [tcpMss], fun h => ?_⟩,
    [⟨[65], fun _ => 0⟩], rfl, by simp [tcpMss], fun h => ?_⟩
  · have heven := (received_iff rfl rfl).1 h [] [0xff] [[0xff]] rfl (by decide) (by simp)
    exact absurd heven (by decide)
  · exact (recvFile_inFile _ _).1 h _ List.mem_cons_self

end Shell

end SlipBoard
