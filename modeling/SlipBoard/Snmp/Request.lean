import SlipBoard.Snmp.Model.Request
import SlipBoard.Snmp.Message
/-!
# SNMP — GETBULK is GETNEXT again and again

What a request is answered, name by name: a GET and a GETNEXT the answer
to each name (`askAll`, `requestLoop_eq`), a GETBULK the answers to the
names, and then, row by row, those to the names of the row before, until
the repetitions are used up, the message is full, or a row is the end of
the view (`bulk`). The code gets the names of a row from the octets it
has appended, and always understands them (`getbulk_eq`); but where the
request has fewer names than non-repeaters it looks for the row at the
beginning of the message, and answers with an error (`getbulk_short`).
-/

namespace SlipBoard

namespace Snmp

namespace Agent

open Bytes Code

variable {σ : Type} {find : Nodes σ} {getNext : Bool} {version : ℕ}
variable {vb : SnmpVarbind} {oid : List UInt32} {n n' : σ}

/-! ## Answers -/

/-- The answer to a name, or an error: what the tree finds, with the value
read from it, and where it finds nothing in version 2c an exception in its
place. -/
def ask (find : Nodes σ) (getNext : Bool) (version : ℕ) (oid : List UInt32) (n : σ) :
    Except UInt8 SnmpVarbind × σ :=
  match find getNext version oid n with
  | (.error status, n) =>
    (if status ≥ snmpVarbindExceptionOffset then
      if version = snmpVersion2c ∨ version = snmpVersion3 then
        .ok ⟨oid, exceptionType status, false, 0, []⟩
      else .error status
    else .error snmpErrGenError, n)
  | (.ok found, n) =>
    (match found.getValue with
    | some value => .ok ⟨if getNext then found.oid else oid, found.asn1Type, value.1,
        value.2.length, value.2⟩
    | none => .error snmpErrGenError, n)

/-- The octets of varbinds, one behind the other, as they stand in a
message. -/
abbrev octets (vbs : List SnmpVarbind) : List UInt8 := vbs.flatMap varbindOctets

/-- The varbinds that names are answered by, the `error_status` behind the
last of them, and the nodes as they are then. -/
structure Answers (σ : Type) where
  varbinds : List SnmpVarbind
  errorStatus : UInt8
  nodes : σ

/-- The answers to names, one after the other, where a message has `room`
left. They end with the first name that fails, or whose answer has no room;
the status tells which. -/
def askAll (find : Nodes σ) (getNext : Bool) (version : ℕ) :
    List (List UInt32) → ℕ → σ → Answers σ
  | [], _, n => ⟨[], snmpErrNoError, n⟩
  | oid :: oids, room, n =>
    match ask find getNext version oid n with
    | (.error status, n) => ⟨[], status, n⟩
    | (.ok vb, n) =>
      if (varbindOctets vb).length ≤ room then
        let answers := askAll find getNext version oids (room - (varbindOctets vb).length) n
        ⟨vb :: answers.varbinds, answers.errorStatus, answers.nodes⟩
      else ⟨[], snmpErrTooBig, n⟩

/-- How many names have been tried: the one that failed counts too. -/
def Answers.tried (answers : Answers σ) : ℕ :=
  if answers.errorStatus = snmpErrNoError then answers.varbinds.length
  else answers.varbinds.length + 1

/-- All of the answers are the end of the view. -/
def Answers.ends (answers : Answers σ) : Bool := answers.varbinds.all (·.type = endOfMibView)

/-- Answers, and then others, with the status and the nodes of the later
ones. -/
def Answers.append (answers answers' : Answers σ) : Answers σ :=
  ⟨answers.varbinds ++ answers'.varbinds, answers'.errorStatus, answers'.nodes⟩

/-- Row by row, the answers to the names of the row before, and where a
row has failed the number of the name in it. -/
def askRows (find : Nodes σ) (version : ℕ) : ℕ → List SnmpVarbind → ℕ → σ → Answers σ × ℕ
  | 0, _, _, n => (⟨[], snmpErrNoError, n⟩, 0)
  | repetitions + 1, row, room, n =>
    if row = [] then (⟨[], snmpErrNoError, n⟩, 0)
    else
      let answers := askAll find true version (row.map (·.oid)) room n
      if answers.errorStatus ≠ snmpErrNoError then (answers, answers.tried)
      else if answers.ends then (answers, 0)
      else
        let rows := askRows find version repetitions answers.varbinds
          (room - (octets answers.varbinds).length) answers.nodes
        (answers.append rows.1, rows.2)

/-- **What a GETBULK answers.** The names are answered in their order;
behind the non-repeaters, each row holds the answers to the names of the row
before. It ends with the repetitions, with an error, or with a row that is
the end of the view. -/
def bulk (find : Nodes σ) (version : ℕ) (names : List (List UInt32))
    (nonRepeaters maxRepetitions room : ℕ) (n : σ) : Answers σ × ℕ :=
  if maxRepetitions = 0 then (askAll find true version (names.take nonRepeaters) room n, 0)
  else
    let answers := askAll find true version names room n
    if answers.errorStatus ≠ snmpErrNoError then (answers, 0)
    else
      let rows := askRows find version (maxRepetitions - 1) (answers.varbinds.drop nonRepeaters)
        (room - (octets answers.varbinds).length) answers.nodes
      (answers.append rows.1, rows.2)

/-- A name that can be asked for: one that the agent can pack, and no longer
than it stores. -/
def Name (oid : List UInt32) : Prop := Packs oid ∧ oid.length ≤ snmpMaxObjIdLen

/-- **The nodes can be answered from**: what they answer to a name that can
be asked for has a value that can be appended, under a name that can be
asked for. So the agent understands what it has written itself. -/
def Sound (find : Nodes σ) : Prop :=
  ∀ getNext version oid n found n' value, Name oid →
    find getNext version oid n = (.ok found, n') → found.getValue = some value →
    Sent ⟨if getNext then found.oid else oid, found.asn1Type, value.1, value.2.length, value.2⟩

theorem name_of_sent (h : Sent vb) : Name vb.oid := ⟨h.packs, h.oidLen⟩

theorem exceptionType_ge (status : UInt8) : 0x80 ≤ (exceptionType status).toNat := by
  rw [exceptionType, UInt8.toNat_or]
  exact Nat.left_le_or

/-- An exception stands without a value, and so without octets for one. -/
theorem valueOctets_exception (status : UInt8) : valueOctets (exceptionType status) [] = [] := by
  have hge := exceptionType_ge status
  have hne : ∀ type : UInt8, type.toNat < 0x80 → exceptionType status ≠ type := by
    rintro type hlt rfl
    omega
  rw [valueOctets, if_neg (hne _ (by decide)), isU32, if_neg ?_, if_neg (hne _ (by decide)),
    if_neg (hne _ (by decide))]
  rw [decide_eq_true_eq]
  rintro (h | h | h)
  · exact hne _ (by decide) h
  · exact hne _ (by decide) h
  · exact hne _ (by decide) h

theorem extended_exception (status : UInt8) : extended (exceptionType status) = false := by
  rw [extended, decide_eq_false_iff_not]
  intro h
  have hbit := congrArg (fun type : UInt8 => type.toNat.testBit 4) h
  rw [exceptionType] at hbit
  simp only [UInt8.toNat_and, UInt8.toNat_or, Nat.testBit_and, Nat.testBit_or] at hbit
  have hmask : snmpVarbindExceptionMask.toNat.testBit 4 = false := by decide
  rw [hmask, Bool.and_false, Bool.or_false] at hbit
  exact absurd hbit (by decide)

theorem sent_exception (hoid : Name oid) (status : UInt8) :
    Sent ⟨oid, exceptionType status, false, 0, []⟩ := by
  have hempty := valueOctets_exception status
  refine ⟨hoid.1, hoid.2, extended_exception status, ?_, fun hne => absurd hempty hne, ?_⟩
  · rw [hempty]
    exact if_pos (Or.inl rfl)
  · rw [hempty]
    exact Nat.zero_le _

/-- What a sound tree answers can be appended, whether it is a value or an
exception. -/
theorem sent_of_ask (hfind : Sound find) (hoid : Name oid)
    (hask : ask find getNext version oid n = (.ok vb, n')) : Sent vb := by
  rw [ask] at hask
  rcases hfound : find getNext version oid n with ⟨status | ⟨found, type, value⟩, n₁⟩
  · rw [hfound] at hask
    dsimp only at hask
    split_ifs at hask with hexception hversion
    · obtain rfl := Except.ok.inj (congrArg Prod.fst hask)
      exact sent_exception hoid status
    · cases hask
    · cases hask
  · rw [hfound] at hask
    rcases value with _ | value
    · cases hask
    · obtain rfl := Except.ok.inj (congrArg Prod.fst hask)
      exact hfind getNext version oid n _ n₁ value hoid hfound rfl

/-- Where a name is answered with an error, the status says so. -/
theorem ask_error {status : UInt8} (hask : ask find getNext version oid n = (.error status, n')) :
    status ≠ snmpErrNoError := by
  rw [ask] at hask
  rcases hfound : find getNext version oid n with ⟨status' | ⟨found, type, value⟩, n₁⟩
  · rw [hfound] at hask
    dsimp only at hask
    split_ifs at hask with hexception hversion
    · cases hask
    · obtain rfl := Except.error.inj (congrArg Prod.fst hask)
      rintro rfl
      exact absurd hexception (by decide)
    · obtain rfl := Except.error.inj (congrArg Prod.fst hask)
      decide
  · rw [hfound] at hask
    rcases value with _ | value
    · obtain rfl := Except.error.inj (congrArg Prod.fst hask)
      decide
    · cases hask

/-! ## Names -/

theorem octets_append (xs ys : List SnmpVarbind) : octets (xs ++ ys) = octets xs ++ octets ys :=
  List.flatMap_append

section

variable {answers : Answers σ}

theorem tried_ok (hok : answers.errorStatus = snmpErrNoError) :
    answers.tried = answers.varbinds.length := if_pos hok

theorem tried_fail (hfail : answers.errorStatus ≠ snmpErrNoError) :
    answers.tried = answers.varbinds.length + 1 := if_neg hfail

theorem ends_append (answers answers' : Answers σ) :
    (answers.append answers').ends = (answers.ends && answers'.ends) := List.all_append

theorem tried_append (hok : answers.errorStatus = snmpErrNoError) (answers' : Answers σ) :
    (answers.append answers').tried = answers.tried + answers'.tried := by
  have hlen : (answers.append answers').varbinds.length =
      answers.varbinds.length + answers'.varbinds.length := List.length_append
  have hstatus : (answers.append answers').errorStatus = answers'.errorStatus := rfl
  rw [tried_ok hok, Answers.tried, Answers.tried, hstatus, hlen]
  split_ifs
  · rfl
  · rfl

end

/-- The answers fit the room that there was: one that does not ends them. -/
theorem askAll_fits (oids : List (List UInt32)) (room : ℕ) (n : σ) :
    (octets (askAll find getNext version oids room n).varbinds).length ≤ room := by
  induction oids generalizing room n with
  | nil => exact Nat.zero_le _
  | cons oid oids ih =>
    rw [askAll]
    rcases ask find getNext version oid n with ⟨status | vb, n'⟩
    · exact Nat.zero_le _
    · dsimp only
      split_ifs with hroom
      · have hrest := ih (room - (varbindOctets vb).length) n'
        rw [octets] at hrest ⊢
        rw [List.flatMap_cons, List.length_append]
        omega
      · exact Nat.zero_le _

theorem askRows_fits (find : Nodes σ) (version repetitions : ℕ) (row : List SnmpVarbind) (room : ℕ)
    (n : σ) :
    (octets (askRows find version repetitions row room n).1.varbinds).length ≤ room := by
  induction repetitions generalizing row room n with
  | zero => exact Nat.zero_le _
  | succ repetitions ih =>
    have hrow : (octets (askAll find true version (row.map (·.oid)) room n).varbinds).length ≤ room :=
      askAll_fits _ _ _
    rw [askRows]
    dsimp only
    split_ifs with hnone hfail hends
    · exact Nat.zero_le _
    · exact hrow
    · exact hrow
    · have hrest := ih (askAll find true version (row.map (·.oid)) room n).varbinds
        (room - (octets (askAll find true version (row.map (·.oid)) room n).varbinds).length)
        (askAll find true version (row.map (·.oid)) room n).nodes
      rw [Answers.append, octets_append, List.length_append]
      omega

theorem bulk_fits (names : List (List UInt32)) (nonRepeaters maxRepetitions room : ℕ) (n : σ) :
    (octets (bulk find version names nonRepeaters maxRepetitions room n).1.varbinds).length ≤ room := by
  have hnames : (octets (askAll find true version names room n).varbinds).length ≤ room :=
    askAll_fits _ _ _
  have hrows := askRows_fits find version (maxRepetitions - 1)
    ((askAll find true version names room n).varbinds.drop nonRepeaters)
    (room - (octets (askAll find true version names room n).varbinds).length)
    (askAll find true version names room n).nodes
  rw [bulk]
  dsimp only
  split_ifs with hnone hfail
  · exact askAll_fits _ _ _
  · exact hnames
  · rw [Answers.append, octets_append, List.length_append]
    omega

theorem sent_of_askAll (hfind : Sound find) {oids : List (List UInt32)} {room : ℕ}
    (hoids : ∀ oid ∈ oids, Name oid) :
    ∀ vb ∈ (askAll find getNext version oids room n).varbinds, Sent vb := by
  induction oids generalizing room n with
  | nil => exact fun _ h => absurd h List.not_mem_nil
  | cons oid oids ih =>
    intro vb hvb
    rw [askAll] at hvb
    rcases hask : ask find getNext version oid n with ⟨status | vb', n'⟩
    · rw [hask] at hvb
      exact absurd hvb List.not_mem_nil
    · rw [hask] at hvb
      dsimp only at hvb
      split_ifs at hvb with hroom
      · rcases List.mem_cons.1 hvb with rfl | hvb
        · exact sent_of_ask hfind (hoids oid List.mem_cons_self) hask
        · exact ih (fun oid h => hoids oid (List.mem_cons_of_mem _ h)) vb hvb
      · exact absurd hvb List.not_mem_nil

theorem askAll_append (find : Nodes σ) (getNext : Bool) (version : ℕ) (xs ys : List (List UInt32))
    (room : ℕ) (n : σ) : askAll find getNext version (xs ++ ys) room n =
      if (askAll find getNext version xs room n).errorStatus ≠ snmpErrNoError then
        askAll find getNext version xs room n
      else (askAll find getNext version xs room n).append
        (askAll find getNext version ys
          (room - (octets (askAll find getNext version xs room n).varbinds).length)
          (askAll find getNext version xs room n).nodes) := by
  induction xs generalizing room n with
  | nil => rfl
  | cons oid xs ih =>
    rw [List.cons_append, askAll, askAll]
    rcases hask : ask find getNext version oid n with ⟨status | vb, n'⟩
    · exact (if_pos (ask_error hask)).symm
    · by_cases hroom : (varbindOctets vb).length ≤ room
      · simp only [if_pos hroom, ih]
        split_ifs with hfail
        · rfl
        · rw [octets, octets, List.flatMap_cons, List.length_append, Nat.sub_sub]
          rfl
      · simp only [if_neg hroom]
        rfl

/-- A name alone: either it is answered, or nothing is and there is an
error. -/
theorem askAll_one (find : Nodes σ) (getNext : Bool) (version : ℕ) (oid : List UInt32) (room : ℕ)
    (n : σ) : (∃ vb, askAll find getNext version [oid] room n =
        ⟨[vb], snmpErrNoError, (ask find getNext version oid n).2⟩) ∨
    (askAll find getNext version [oid] room n).varbinds = [] ∧
      (askAll find getNext version [oid] room n).errorStatus ≠ snmpErrNoError := by
  rw [askAll]
  rcases hask : ask find getNext version oid n with ⟨status | vb, n'⟩
  · exact .inr ⟨rfl, ask_error hask⟩
  · dsimp only
    by_cases hroom : (varbindOctets vb).length ≤ room
    · rw [if_pos hroom]
      exact .inl ⟨vb, rfl⟩
    · rw [if_neg hroom]
      exact .inr ⟨rfl, show snmpErrTooBig ≠ snmpErrNoError by decide⟩

theorem tried_one (oid : List UInt32) (room : ℕ) (n : σ) :
    (askAll find getNext version [oid] room n).tried = 1 := by
  rcases askAll_one find getNext version oid room n with ⟨vb, hone⟩ | ⟨hnone, hfail⟩
  · rw [hone]
    rfl
  · rw [tried_fail hfail, hnone]
    rfl

theorem length_askAll {oids : List (List UInt32)} {room : ℕ}
    (hok : (askAll find getNext version oids room n).errorStatus = snmpErrNoError) :
    (askAll find getNext version oids room n).varbinds.length = oids.length := by
  induction oids generalizing room n with
  | nil => rfl
  | cons oid oids ih =>
    have hcons := askAll_append find getNext version [oid] oids room n
    rw [List.singleton_append] at hcons
    rw [hcons] at hok ⊢
    rcases askAll_one find getNext version oid room n with ⟨vb, hone⟩ | ⟨-, hfail⟩
    · rw [hone] at hok ⊢
      rw [if_neg (not_not_intro rfl)] at hok ⊢
      exact congrArg (· + 1) (ih hok)
    · rw [if_pos hfail] at hok
      exact absurd hok hfail

/-! ## A varbind -/

variable {r : SnmpRequest σ}

/-- The request behind answers: their varbinds are in its outbound stream,
and the status and the nodes are theirs. -/
def answered (r : SnmpRequest σ) (answers : Answers σ) : SnmpRequest σ :=
  { r with
    nodes := answers.nodes
    errorStatus := answers.errorStatus
    outbound := r.outbound.put (octets answers.varbinds) }

/-- The answers to names of a request, in the room that its outbound stream
has left. -/
def answers (find : Nodes σ) (getNext : Bool) (r : SnmpRequest σ) (oids : List (List UInt32)) :
    Answers σ := askAll find getNext r.version oids r.outbound.length r.nodes

/-- The request behind the answers to names, when all of them have been
tried up to the first error. -/
def asked (find : Nodes σ) (getNext : Bool) (r : SnmpRequest σ) (oids : List (List UInt32)) :
    SnmpRequest σ := answered r (answers find getNext r oids)

theorem answered_nil (hok : r.errorStatus = snmpErrNoError) :
    answered r ⟨[], snmpErrNoError, r.nodes⟩ = r := by
  rw [answered, octets, List.flatMap_nil, r.outbound.put_nil, ← hok]

theorem asked_nil (hok : r.errorStatus = snmpErrNoError) : asked find getNext r [] = r :=
  answered_nil hok

theorem answers_fit (r : SnmpRequest σ) (oids : List (List UInt32)) :
    (octets (answers find getNext r oids).varbinds).length ≤ r.outbound.length := askAll_fits _ _ _

theorem within_asked (hs : r.outbound.Within) (oids : List (List UInt32)) :
    (asked find getNext r oids).outbound.Within := hs.put (answers_fit r oids)

theorem answered_append (hs : r.outbound.Within) {answers : Answers σ}
    (hfits : (octets answers.varbinds).length ≤ r.outbound.length) (answers' : Answers σ) :
    answered r (answers.append answers') = answered (answered r answers) answers' := by
  simp only [answered, Answers.append]
  rw [Cursor.put_put hs hfits, octets_append]

/-- One name behind the other: the later ones are asked where the earlier
ones have all been answered, in the room these have left. -/
theorem answers_append (find : Nodes σ) (getNext : Bool) (r : SnmpRequest σ)
    (xs ys : List (List UInt32)) : answers find getNext r (xs ++ ys) =
      if (asked find getNext r xs).errorStatus ≠ snmpErrNoError then answers find getNext r xs
      else (answers find getNext r xs).append (answers find getNext (asked find getNext r xs) ys) :=
  askAll_append find getNext r.version xs ys r.outbound.length r.nodes

theorem answers_cons (oid : List UInt32) (oids : List (List UInt32)) :
    answers find getNext r (oid :: oids) =
      if (asked find getNext r [oid]).errorStatus ≠ snmpErrNoError then answers find getNext r [oid]
      else (answers find getNext r [oid]).append
        (answers find getNext (asked find getNext r [oid]) oids) :=
  answers_append find getNext r [oid] oids

theorem asked_append (find : Nodes σ) (getNext : Bool) (hs : r.outbound.Within)
    (xs ys : List (List UInt32)) : asked find getNext r (xs ++ ys) =
      if (asked find getNext r xs).errorStatus ≠ snmpErrNoError then asked find getNext r xs
      else asked find getNext (asked find getNext r xs) ys := by
  rw [asked, answers_append find getNext r]
  split_ifs with hfail
  · rfl
  · exact answered_append hs (answers_fit r xs) _

theorem asked_cons (oid : List UInt32) (oids : List (List UInt32)) (hs : r.outbound.Within) :
    asked find getNext r (oid :: oids) =
      if (asked find getNext r [oid]).errorStatus ≠ snmpErrNoError then asked find getNext r [oid]
      else asked find getNext (asked find getNext r [oid]) oids :=
  asked_append find getNext hs [oid] oids

theorem appendVarbind_eq (h : Sent vb) (r : SnmpRequest σ) (hs : r.outbound.Within) :
    appendVarbind r vb = if (varbindOctets vb).length ≤ r.outbound.length then
      { r with errorStatus := snmpErrNoError, outbound := r.outbound.put (varbindOctets vb) }
    else { r with errorStatus := snmpErrTooBig } := by
  by_cases hroom : (varbindOctets vb).length ≤ r.outbound.length
  · rw [if_pos hroom, appendVarbind, writes_append h r.outbound hs hroom]
  · rw [if_neg hroom, appendVarbind, append_full h (by omega)]

/-- A name has an answer, which is appended, or an error. -/
theorem processVarbind_cases (find : Nodes σ) (getNext : Bool) (r : SnmpRequest σ)
    (vb : SnmpVarbind) :
    (∃ answer n, ask find getNext r.version vb.oid r.nodes = (.ok answer, n) ∧
      snmpProcessVarbind find getNext r vb = (appendVarbind { r with nodes := n } answer, answer)) ∨
    ∃ status n, ask find getNext r.version vb.oid r.nodes = (.error status, n) ∧
      (snmpProcessVarbind find getNext r vb).1 = { r with nodes := n, errorStatus := status } := by
  rw [snmpProcessVarbind, ask]
  rcases find getNext r.version vb.oid r.nodes with ⟨status | ⟨oid, type, value⟩, n⟩
  · dsimp only
    split_ifs with hexception hversion
    · exact .inl ⟨_, n, rfl, rfl⟩
    · exact .inr ⟨status, n, rfl, rfl⟩
    · exact .inr ⟨_, n, rfl, rfl⟩
  · rcases value with _ | ⟨raw, bytes⟩
    · exact .inr ⟨_, n, rfl, rfl⟩
    · exact .inl ⟨_, n, rfl, rfl⟩

/-- **What a name is answered**: the answer is appended, or the error kept,
and the varbind behind it is the one that was answered. -/
theorem processVarbind_eq (hfind : Sound find) (getNext : Bool) (r : SnmpRequest σ)
    (vb : SnmpVarbind) (hs : r.outbound.Within) (hvb : Name vb.oid) :
    (snmpProcessVarbind find getNext r vb).1 = asked find getNext r [vb.oid] ∧
    ∀ answer, (answers find getNext r [vb.oid]).varbinds = [answer] →
      (snmpProcessVarbind find getNext r vb).2 = answer := by
  rcases processVarbind_cases find getNext r vb with ⟨answer, n, hask, heq⟩ | ⟨status, n, hask, heq⟩
  · have happend := appendVarbind_eq (sent_of_ask hfind hvb hask) { r with nodes := n } hs
    rw [heq]
    simp only [asked, answers, askAll, hask, happend]
    by_cases hroom : (varbindOctets answer).length ≤ r.outbound.length
    · simp only [if_pos hroom, answered]
      refine ⟨?_, fun _ h => (List.cons.inj h).1⟩
      rw [octets, List.flatMap_cons, List.flatMap_nil, List.append_nil]
    · simp only [if_neg hroom, answered]
      refine ⟨?_, fun _ h => absurd h.symm (List.cons_ne_nil _ _)⟩
      rw [octets, List.flatMap_nil, r.outbound.put_nil]
  · rw [heq]
    simp only [asked, answers, askAll, hask, answered]
    refine ⟨?_, fun _ h => absurd h.symm (List.cons_ne_nil _ _)⟩
    rw [octets, List.flatMap_nil, r.outbound.put_nil]

/-! ## The names of a request -/

/-- The varbind of a name that is asked for, with NULL in the place of the
value. -/
def nullVarbind (oid : List UInt32) : SnmpVarbind := ⟨oid, asn1Null, false, 0, []⟩

/-- An enumerator in front of varbinds, whoever has coded them. -/
structure Carries (e : Enumerator) (vbs : List SnmpVarbind) : Prop where
  within : e.pbufStream.Within
  holds : ∀ vb ∈ vbs, vb.Holds
  codes : Codes vbs e.pbufStream.window

/-- An enumerator in front of names that are asked for. -/
structure Asks (e : Enumerator) (names : List (List UInt32)) : Prop where
  within : e.pbufStream.Within
  valid : ∀ oid ∈ names, Name oid
  codes : Codes (names.map nullVarbind) e.pbufStream.window

theorem holds_null (h : Name oid) : (nullVarbind oid).Holds := ⟨h.1, h.2, rfl, rfl, rfl⟩

variable {e : Enumerator} {names : List (List UInt32)} {vbs : List SnmpVarbind}

theorem holds_names (hnames : ∀ oid ∈ names, Name oid) :
    ∀ vb ∈ names.map nullVarbind, vb.Holds := by
  intro vb hvb
  obtain ⟨oid, hoid, rfl⟩ := List.mem_map.1 hvb
  exact holds_null (hnames oid hoid)

theorem Carries.done (h : Carries e []) : snmpVbEnumeratorGetNext true e = (.error .eovb, e) :=
  getNext_done h.within h.codes

theorem Carries.head (h : Carries e (vb :: vbs)) : ∃ e',
    snmpVbEnumeratorGetNext true e = (.ok vb, e') ∧ Carries e' vbs ∧
      e'.varbindCount = e.varbindCount + 1 := by
  obtain ⟨e', hget, hwithin, hcodes, hcount⟩ :=
    getNext_codes (h.holds vb List.mem_cons_self) h.within h.codes
  exact ⟨e', hget, ⟨hwithin, fun vb' h' => h.holds vb' (List.mem_cons_of_mem _ h'), hcodes⟩, hcount⟩

/-- There is a round of the loop for each varbind, where the rounds are
counted by octets. -/
theorem Carries.length_le (h : Carries e vbs) : vbs.length ≤ e.pbufStream.length := by
  rw [← Cursor.length_window h.within]
  exact h.codes.length_le

theorem Asks.carries (h : Asks e names) : Carries e (names.map nullVarbind) :=
  ⟨h.within, holds_names h.valid, h.codes⟩

theorem Asks.done (h : Asks e []) : snmpVbEnumeratorGetNext true e = (.error .eovb, e) :=
  h.carries.done

theorem Asks.head (h : Asks e (oid :: names)) : ∃ e',
    snmpVbEnumeratorGetNext true e = (.ok (nullVarbind oid), e') ∧ Asks e' names ∧
      e'.varbindCount = e.varbindCount + 1 := by
  obtain ⟨e', hget, hrest, hcount⟩ := h.carries.head
  exact ⟨e', hget, ⟨hrest.within, fun oid' h' => h.valid oid' (List.mem_cons_of_mem _ h'),
    hrest.codes⟩, hcount⟩

theorem Asks.length_le (h : Asks e names) : names.length ≤ e.pbufStream.length :=
  (List.length_map nullVarbind).ge.trans h.carries.length_le

/-! ## GET and GETNEXT -/

theorem requestLoop_fail (r : SnmpRequest σ) (hfail : r.errorStatus ≠ snmpErrNoError) (rounds : ℕ) :
    requestLoop find getNext rounds r = .ok r := by
  cases rounds with
  | zero => rfl
  | succ rounds => exact if_pos hfail

theorem requestLoop_eq (hfind : Sound find) (getNext : Bool) (rounds : ℕ) (hs : r.outbound.Within)
    (hinbound : Asks r.inbound names) (hok : r.errorStatus = snmpErrNoError) : ∃ e,
    e.varbindCount = r.inbound.varbindCount + (answers find getNext r names).tried ∧
    requestLoop find getNext (names.length + (rounds + 1)) r =
      .ok { asked find getNext r names with inbound := e } := by
  induction names generalizing r with
  | nil =>
    refine ⟨r.inbound, rfl, ?_⟩
    rw [List.length_nil, Nat.zero_add, requestLoop, if_neg (not_not_intro hok), hinbound.done,
      asked_nil hok]
  | cons oid names ih =>
    obtain ⟨e, hget, hasks, hcount⟩ := hinbound.head
    have hprocess := (processVarbind_eq hfind getNext { r with inbound := e } (nullVarbind oid) hs
      (hinbound.valid oid List.mem_cons_self)).1
    have hround : requestLoop find getNext (names.length + (rounds + 1) + 1) r =
        requestLoop find getNext (names.length + (rounds + 1))
          { asked find getNext r [oid] with inbound := e } := by
      rw [requestLoop, if_neg (not_not_intro hok), hget]
      dsimp only
      rw [if_pos ⟨rfl, rfl⟩, hprocess]
      rfl
    have htried : (answers find getNext r [oid]).tried = 1 := tried_one _ _ _
    rw [List.length_cons, Nat.add_right_comm, hround, asked_cons oid names hs, answers_cons oid names]
    by_cases hone : (asked find getNext r [oid]).errorStatus = snmpErrNoError
    · rw [if_neg (not_not_intro hone), if_neg (not_not_intro hone), tried_append hone, htried]
      obtain ⟨e', hcount', hrest⟩ := ih (r := { asked find getNext r [oid] with inbound := e })
        (within_asked hs _) hasks hone
      refine ⟨e', ?_, hrest⟩
      rw [hcount', ← Nat.add_assoc, ← hcount]
      rfl
    · rw [if_pos hone, if_pos hone, htried,
        requestLoop_fail { asked find getNext r [oid] with inbound := e } hone]
      exact ⟨e, hcount, rfl⟩

/-! ## The first pass of a GETBULK -/

@[simp] theorem Bulk.repeats_request (b : Bulk σ) : b.repeats.request = b.request := by
  rw [Bulk.repeats]
  split_ifs <;> rfl

theorem bulkFirst_fail {b : Bulk σ} (hfail : b.request.errorStatus ≠ snmpErrNoError) (rounds : ℕ) :
    bulkFirst find rounds b = .ok b := by
  cases rounds with
  | zero => rfl
  | succ rounds => exact if_pos hfail

/-- A round of the first loop takes a name, asks it and appends the answer,
and counts the non-repeaters down. -/
theorem bulkFirst_cons (hfind : Sound find) (b : Bulk σ) (rounds : ℕ)
    (hs : b.request.outbound.Within) (hinbound : Asks b.request.inbound (oid :: names))
    (hok : b.request.errorStatus = snmpErrNoError)
    (hmore : ¬ (b.nonRepeaters = 0 ∧ b.repetitions = 0)) : ∃ e, Asks e names ∧
    e.varbindCount = b.request.inbound.varbindCount + 1 ∧
    bulkFirst find (rounds + 1) b = bulkFirst find rounds
      { b.repeats with
        request := { asked find true b.request [oid] with inbound := e }
        nonRepeaters := b.nonRepeaters - 1 } := by
  obtain ⟨e, hget, hasks, hcount⟩ := hinbound.head
  have hprocess := (processVarbind_eq hfind true { b.request with inbound := e } (nullVarbind oid) hs
    (hinbound.valid oid List.mem_cons_self)).1
  refine ⟨e, hasks, hcount, ?_⟩
  rw [bulkFirst, if_neg (not_not_intro hok), if_neg hmore, Bulk.repeats_request, hget]
  dsimp only
  rw [if_pos ⟨rfl, rfl⟩, hprocess]
  rfl

/-- No names are left, and the first loop ends with what it has. -/
theorem bulkFirst_nil {b : Bulk σ} (hinbound : Asks b.request.inbound [])
    (hok : b.request.errorStatus = snmpErrNoError) (rounds : ℕ) :
    bulkFirst find (rounds + 1) b = .ok b.repeats := by
  rw [bulkFirst, if_neg (not_not_intro hok)]
  split_ifs with hnone
  · rfl
  · rw [Bulk.repeats_request, hinbound.done, Bulk.repeats]
    split_ifs <;> rfl

/-- Names that are all before the first repeater, or all behind it, are
answered one by one. -/
theorem bulkFirst_append (hfind : Sound find) {b : Bulk σ} (rounds : ℕ) {xs ys : List (List UInt32)}
    (hs : b.request.outbound.Within) (hinbound : Asks b.request.inbound (xs ++ ys))
    (hok : b.request.errorStatus = snmpErrNoError)
    (hplain : b.nonRepeaters < 0 ∨ (xs.length : ℤ) ≤ b.nonRepeaters) : ∃ e, ∃ nonRepeaters : ℤ,
    ((asked find true b.request xs).errorStatus = snmpErrNoError →
      Asks e ys ∧ nonRepeaters = b.nonRepeaters - xs.length) ∧
    e.varbindCount = b.request.inbound.varbindCount + (answers find true b.request xs).tried ∧
    bulkFirst find (xs.length + rounds) b = bulkFirst find rounds
      { b with
        request := { asked find true b.request xs with inbound := e }
        nonRepeaters := nonRepeaters } := by
  induction xs generalizing b with
  | nil =>
    refine ⟨b.request.inbound, b.nonRepeaters, fun _ => ⟨hinbound, (sub_zero _).symm⟩, rfl, ?_⟩
    rw [asked_nil hok, List.length_nil, Nat.zero_add]
  | cons oid xs ih =>
    rw [List.length_cons] at hplain
    have hne : b.nonRepeaters ≠ 0 := by omega
    obtain ⟨e, hasks, hcount, hround⟩ := bulkFirst_cons hfind b (xs.length + rounds) hs hinbound hok
      fun h => hne h.1
    have htried : (answers find true b.request [oid]).tried = 1 := tried_one _ _ _
    rw [List.length_cons, Nat.add_right_comm, hround, Bulk.repeats, if_neg hne, asked_cons oid xs hs,
      answers_cons oid xs]
    by_cases hone : (asked find true b.request [oid]).errorStatus = snmpErrNoError
    · rw [if_neg (not_not_intro hone), if_neg (not_not_intro hone), tried_append hone, htried]
      obtain ⟨e', nonRepeaters, hend, hcount', hrest⟩ := ih (b := { b with
          request := { asked find true b.request [oid] with inbound := e }
          nonRepeaters := b.nonRepeaters - 1 })
        (within_asked hs _) hasks hone (by dsimp only; omega)
      refine ⟨e', nonRepeaters, fun h => ?_, ?_, hrest⟩
      · obtain ⟨hrests, heq⟩ := hend h
        refine ⟨hrests, ?_⟩
        rw [heq]
        push_cast
        ring
      · rw [hcount', ← Nat.add_assoc, ← hcount]
        rfl
    · rw [if_pos hone, if_pos hone, htried, bulkFirst_fail hone]
      refine ⟨e, b.nonRepeaters - 1, fun h => absurd h hone, hcount, ?_⟩
      rw [bulkFirst_fail hone]

/-- All of the names, where none of them is the first repeater. -/
theorem bulkFirst_plain (hfind : Sound find) {b : Bulk σ} (rounds : ℕ)
    (hs : b.request.outbound.Within) (hinbound : Asks b.request.inbound names)
    (hok : b.request.errorStatus = snmpErrNoError)
    (hplain : b.nonRepeaters < 0 ∨ (names.length : ℤ) < b.nonRepeaters) : ∃ e, ∃ nonRepeaters : ℤ,
    e.varbindCount = b.request.inbound.varbindCount + (answers find true b.request names).tried ∧
    bulkFirst find (names.length + (rounds + 1)) b = .ok
      { b with
        request := { asked find true b.request names with inbound := e }
        nonRepeaters := nonRepeaters } := by
  rw [← List.append_nil names] at hinbound
  obtain ⟨e, nonRepeaters, hend, hcount, hpass⟩ :=
    bulkFirst_append hfind (rounds + 1) hs hinbound hok (by omega)
  refine ⟨e, nonRepeaters, hcount, ?_⟩
  rw [hpass]
  by_cases hall : (asked find true b.request names).errorStatus = snmpErrNoError
  · obtain ⟨hasks, heq⟩ := hend hall
    have hne : nonRepeaters ≠ 0 := by omega
    rw [bulkFirst_nil hasks hall, Bulk.repeats, if_neg hne]
  · rw [bulkFirst_fail hall]

/-- From the first repeater on, the loop remembers where in the outgoing
message the first row begins. -/
theorem bulkFirst_repeaters (hfind : Sound find) {b : Bulk σ} (rounds : ℕ)
    (hs : b.request.outbound.Within) (hinbound : Asks b.request.inbound names)
    (hok : b.request.errorStatus = snmpErrNoError) (hzero : b.nonRepeaters = 0)
    (hrepetitions : 0 < b.repetitions) : ∃ e, ∃ nonRepeaters : ℤ,
    e.varbindCount = b.request.inbound.varbindCount + (answers find true b.request names).tried ∧
    bulkFirst find (names.length + (rounds + 1)) b = .ok
      ⟨{ asked find true b.request names with inbound := e }, nonRepeaters, b.repetitions - 1,
        b.request.outbound.offset⟩ := by
  cases names with
  | nil =>
    refine ⟨b.request.inbound, 0, rfl, ?_⟩
    rw [List.length_nil, Nat.zero_add, bulkFirst_nil hinbound hok, Bulk.repeats, if_pos hzero,
      asked_nil hok, hzero]
  | cons oid names =>
    obtain ⟨e, hasks, hcount, hround⟩ := bulkFirst_cons hfind b (names.length + (rounds + 1)) hs
      hinbound hok (by omega)
    have htried : (answers find true b.request [oid]).tried = 1 := tried_one _ _ _
    rw [List.length_cons, Nat.add_right_comm, hround, Bulk.repeats, if_pos hzero, hzero,
      asked_cons oid names hs, answers_cons oid names]
    by_cases hone : (asked find true b.request [oid]).errorStatus = snmpErrNoError
    · rw [if_neg (not_not_intro hone), if_neg (not_not_intro hone), tried_append hone, htried]
      obtain ⟨e', nonRepeaters, hcount', hrest⟩ := bulkFirst_plain hfind (b :=
        ⟨{ asked find true b.request [oid] with inbound := e }, 0 - 1, b.repetitions - 1,
          b.request.outbound.offset⟩)
        rounds (within_asked hs _) hasks hone (by dsimp only; omega)
      refine ⟨e', nonRepeaters, ?_, hrest⟩
      rw [hcount', ← Nat.add_assoc, ← hcount]
      rfl
    · rw [if_pos hone, if_pos hone, htried, bulkFirst_fail hone]
      exact ⟨e, 0 - 1, hcount, rfl⟩

/-! ## A repetition -/

/-- The enumerator reads the name, and passes the value. -/
theorem skims_varbind (h : Sent vb) : Reads (decVarbind false) (varbindOctets vb)
    ⟨vb.oid, vb.type, false, (valueOctets vb.type vb.value).length, []⟩ := by
  refine reads_head h (legal_own h) fun s rest hs hwindow => ?_
  have hfits : (valueOctets vb.type vb.value).length ≤ s.length := by
    rw [← Cursor.length_window hs, hwindow, List.length_append]
    omega
  have hseek : exec (snmpPbufStreamSeek (valueOctets vb.type vb.value).length) s =
      (.ok (), s.skip (valueOctets vb.type vb.value).length) := if_neg (not_lt.2 hfits)
  show (_, (exec (snmpPbufStreamSeek (valueOctets vb.type vb.value).length) s).2) = _
  rw [hseek]

/-- An enumerator in the middle of a stream, in front of varbinds that
were appended to it. -/
structure Appended (s : Stream) (e : Enumerator) (row : List SnmpVarbind) : Prop where
  within : s.Within
  sent : ∀ vb ∈ row, Sent vb
  behind : e.pbufStream.offset + e.pbufStream.length ≤ s.offset
  window : Cursor.window { e.pbufStream with cells := s.cells } = octets row

variable {s : Stream} {row : List SnmpVarbind}

theorem Appended.inside (h : Appended s e row) :
    Cursor.Within { e.pbufStream with cells := s.cells } := by
  have hin : s.offset + s.length ≤ s.cells.length := h.within
  have hbehind := h.behind
  show e.pbufStream.offset + e.pbufStream.length ≤ s.cells.length
  omega

theorem Appended.done (h : Appended s e []) : snmpVbEnumeratorGetNext false
    { e with pbufStream := { e.pbufStream with cells := s.cells } } =
      (.error .eovb, { e with pbufStream := { e.pbufStream with cells := s.cells } }) := by
  have hempty : e.pbufStream.length = 0 := by
    have hlen := Cursor.length_window h.inside
    rw [h.window] at hlen
    exact hlen.symm
  exact if_pos hempty

/-- The head of a row is read from the outgoing message, although more has
been appended behind the row meanwhile. -/
theorem Appended.head (h : Appended s e (vb :: row)) : ∃ e', snmpVbEnumeratorGetNext false
    { e with pbufStream := { e.pbufStream with cells := s.cells } } =
      (.ok ⟨vb.oid, vb.type, false, (valueOctets vb.type vb.value).length, []⟩, e') ∧
    e'.varbindCount = e.varbindCount + 1 ∧
    ∀ bytes : List UInt8, bytes.length ≤ s.length → Appended (s.put bytes) e' row := by
  have hwindow := h.window
  rw [octets, List.flatMap_cons] at hwindow
  have hlen : (varbindOctets vb).length ≤ e.pbufStream.length := by
    have hwhole := Cursor.length_window h.inside
    rw [hwindow, List.length_append] at hwhole
    dsimp only at hwhole
    omega
  have hbehind := h.behind
  have hread := skims_varbind (h.sent vb List.mem_cons_self)
  refine ⟨_, getNext_reads hread h.inside hwindow, rfl, fun bytes hfits => ⟨h.within.put hfits,
    fun vb' h' => h.sent vb' (List.mem_cons_of_mem _ h'), ?_, ?_⟩⟩
  · show e.pbufStream.offset + (varbindOctets vb).length +
      (e.pbufStream.length - (varbindOctets vb).length) ≤ s.offset + _
    omega
  · refine (Cursor.window_put_of_le h.within ?_).trans (Cursor.window_skip_append hwindow)
    show e.pbufStream.offset + (varbindOctets vb).length +
      (e.pbufStream.length - (varbindOctets vb).length) ≤ s.offset
    omega

theorem bulkRow_fail (r : SnmpRequest σ) (hfail : r.errorStatus ≠ snmpErrNoError) (rounds : ℕ)
    (e : Enumerator) (all : Bool) : bulkRow find rounds r e all = (r, all) := by
  cases rounds with
  | zero => rfl
  | succ rounds => exact if_pos hfail

/-- A round of a row reads a name from the row before, asks it and appends
the answer, and tells whether the view still goes on. -/
theorem bulkRow_cons (hfind : Sound find) (rounds : ℕ) (all : Bool)
    (h : Appended r.outbound e (vb :: row)) (hok : r.errorStatus = snmpErrNoError) :
    ∃ e', Appended (asked find true r [vb.oid]).outbound e' row ∧
    e'.varbindCount = e.varbindCount + 1 ∧
    ((asked find true r [vb.oid]).errorStatus ≠ snmpErrNoError ∧
      bulkRow find (rounds + 1) r e all =
        ({ asked find true r [vb.oid] with errorIndex := r.nonRepeaters + e'.varbindCount }, all) ∨
    ∃ answer, answers find true r [vb.oid] =
        ⟨[answer], snmpErrNoError, (asked find true r [vb.oid]).nodes⟩ ∧
      bulkRow find (rounds + 1) r e all =
        bulkRow find rounds (asked find true r [vb.oid]) e' (all && answer.type = endOfMibView)) := by
  obtain ⟨e', hget, hcount, hrest⟩ := h.head
  have hname := name_of_sent (h.sent vb List.mem_cons_self)
  obtain ⟨hrequest, hanswer⟩ := processVarbind_eq hfind true r
    ⟨vb.oid, vb.type, false, (valueOctets vb.type vb.value).length, []⟩ h.within hname
  refine ⟨e', hrest _ (answers_fit r _), hcount, ?_⟩
  rw [bulkRow, if_neg (not_not_intro hok), hget]
  dsimp only at hrequest hanswer ⊢
  rw [hrequest]
  rcases askAll_one find true r.version vb.oid r.outbound.length r.nodes with
    ⟨answer, hone⟩ | ⟨-, hfail⟩
  · have hanswers : answers find true r [vb.oid] =
        ⟨[answer], snmpErrNoError, (ask find true r.version vb.oid r.nodes).2⟩ := hone
    have hstatus : (asked find true r [vb.oid]).errorStatus = snmpErrNoError := by
      rw [asked, hanswers]
      rfl
    rw [if_neg (not_not_intro hstatus), hanswer answer (by rw [hanswers])]
    refine .inr ⟨answer, ?_, rfl⟩
    rw [asked, hanswers]
    rfl
  · have hstatus : (asked find true r [vb.oid]).errorStatus ≠ snmpErrNoError := hfail
    rw [if_pos hstatus]
    exact .inl ⟨hstatus, bulkRow_fail { asked find true r [vb.oid] with
      errorIndex := r.nonRepeaters + e'.varbindCount } hstatus rounds e' all⟩

/-- **A row is asked again**: the names are those of the octets that are
in front of what is appended. -/
theorem bulkRow_eq (hfind : Sound find) (rounds : ℕ) (all : Bool) (h : Appended r.outbound e row)
    (hok : r.errorStatus = snmpErrNoError) : ∃ all' : Bool,
    bulkRow find (row.length + (rounds + 1)) r e all =
      ({ asked find true r (row.map (·.oid)) with
        errorIndex :=
          if (asked find true r (row.map (·.oid))).errorStatus = snmpErrNoError then r.errorIndex
          else r.nonRepeaters + (e.varbindCount + (answers find true r (row.map (·.oid))).tried) },
        all') ∧
    ((asked find true r (row.map (·.oid))).errorStatus = snmpErrNoError →
      all' = (all && (answers find true r (row.map (·.oid))).ends)) := by
  induction row generalizing r e all with
  | nil =>
    refine ⟨all, ?_, fun _ => (Bool.and_true all).symm⟩
    rw [List.length_nil, Nat.zero_add, bulkRow, if_neg (not_not_intro hok), h.done, List.map_nil,
      asked_nil hok, if_pos hok]
  | cons vb row ih =>
    obtain ⟨e', hrest, hcount, hround⟩ := bulkRow_cons hfind (row.length + (rounds + 1)) all h hok
    have htried : (answers find true r [vb.oid]).tried = 1 := tried_one _ _ _
    rw [List.length_cons, Nat.add_right_comm, List.map_cons, asked_cons _ _ h.within, answers_cons]
    rcases hround with ⟨hfail, hround⟩ | ⟨answer, hone, hround⟩
    · rw [hround, if_pos hfail, if_pos hfail, if_neg hfail, htried, hcount]
      exact ⟨all, rfl, fun hok' => absurd hok' hfail⟩
    · have hstatus : (asked find true r [vb.oid]).errorStatus = snmpErrNoError := by
        rw [asked, hone]
        rfl
      obtain ⟨all', hrow, hend⟩ := ih (all && answer.type = endOfMibView) hrest hstatus
      rw [hround, hrow, if_neg (not_not_intro hstatus), if_neg (not_not_intro hstatus),
        tried_append hstatus, htried, hcount, Nat.add_assoc e.varbindCount]
      refine ⟨all', rfl, fun hok' => ?_⟩
      rw [hend hok', Bool.and_assoc, ends_append]
      have hends : (answers find true r [vb.oid]).ends = (answer.type = endOfMibView : Bool) := by
        rw [hone, Answers.ends, List.all_cons, List.all_nil, Bool.and_true]
      rw [hends]

/-! ## The repetitions -/

theorem bulkRepeat_fail (r : SnmpRequest σ) (hfail : r.errorStatus ≠ snmpErrNoError)
    (repetitions repetitionOffset : ℕ) : bulkRepeat find repetitions r repetitionOffset = r := by
  cases repetitions with
  | zero => rfl
  | succ repetitions => exact if_neg fun h => hfail h.1

/-- What was appended by a row is the row that the next one is read from. -/
theorem appended_asked (hfind : Sound find) (hs : r.outbound.Within) {oids : List (List UInt32)}
    (hoids : ∀ oid ∈ oids, Name oid) :
    Appended (asked find true r oids).outbound
      (snmpVbEnumeratorInit (asked find true r oids).outbound.cells r.outbound.offset
        ((asked find true r oids).outbound.offset - r.outbound.offset))
      (answers find true r oids).varbinds := by
  have hwritten : (asked find true r oids).outbound.offset - r.outbound.offset =
      (octets (answers find true r oids).varbinds).length := Nat.add_sub_cancel_left ..
  refine ⟨within_asked hs oids, sent_of_askAll hfind hoids, ?_, ?_⟩
  · rw [hwritten]
    exact le_refl _
  · rw [hwritten]
    exact Cursor.window_put hs (answers_fit r oids)

theorem tried_pos {answers : Answers σ} (hfail : answers.errorStatus ≠ snmpErrNoError) :
    answers.tried ≠ 0 := by
  rw [tried_fail hfail]
  exact Nat.succ_ne_zero _

/-- The number of the name in a request, where a row has failed. -/
def rowIndex (r : SnmpRequest σ) (index : ℕ) : ℕ :=
  if index = 0 then r.errorIndex else r.nonRepeaters + index

/-- **Row behind row**, as long as there are repetitions: each is read from
what the one before has appended. -/
theorem bulkRepeat_eq (hfind : Sound find) (repetitions : ℕ) {repetitionOffset : ℕ}
    (hle : repetitionOffset ≤ r.outbound.offset)
    (h : Appended r.outbound (snmpVbEnumeratorInit r.outbound.cells repetitionOffset
      (r.outbound.offset - repetitionOffset)) row)
    (hok : r.errorStatus = snmpErrNoError) : bulkRepeat find repetitions r repetitionOffset =
      { answered r (askRows find r.version repetitions row r.outbound.length r.nodes).1 with
        errorIndex :=
          rowIndex r (askRows find r.version repetitions row r.outbound.length r.nodes).2 } := by
  induction repetitions generalizing r row repetitionOffset with
  | zero => rw [bulkRepeat, askRows, answered_nil hok, rowIndex, if_pos rfl]
  | succ repetitions ih =>
    have hlen : r.outbound.offset - repetitionOffset = (octets row).length := by
      have hwhole := Cursor.length_window h.inside
      rw [h.window] at hwhole
      exact hwhole.symm
    by_cases hrow : row = []
    · have hsame : r.outbound.offset = repetitionOffset := by
        rw [hrow, octets, List.flatMap_nil, List.length_nil] at hlen
        omega
      rw [bulkRepeat, if_neg fun hmore => hmore.2 hsame, askRows, if_pos hrow, answered_nil hok,
        rowIndex, if_pos rfl]
    · have hpos := List.length_pos_iff.2 hrow
      have hrounds : row.length ≤ (octets row).length := (codes_own h.sent).length_le
      obtain ⟨all, hrun, hend⟩ := bulkRow_eq hfind
        (r.outbound.offset - repetitionOffset - row.length) true h hok
      have hfuel : r.outbound.offset - repetitionOffset + 1 =
          row.length + (r.outbound.offset - repetitionOffset - row.length + 1) := by omega
      have hmore : r.errorStatus = snmpErrNoError ∧ r.outbound.offset ≠ repetitionOffset :=
        ⟨hok, by omega⟩
      have hcount : (snmpVbEnumeratorInit r.outbound.cells repetitionOffset
        (r.outbound.offset - repetitionOffset)).varbindCount = 0 := rfl
      have hnames : ∀ oid ∈ row.map (·.oid), Name oid := by
        intro oid hoid
        obtain ⟨vb, hvb, rfl⟩ := List.mem_map.1 hoid
        exact name_of_sent (h.sent vb hvb)
      have hanswers : askAll find true r.version (row.map (·.oid)) r.outbound.length r.nodes =
        answers find true r (row.map (·.oid)) := rfl
      rw [bulkRepeat, if_pos hmore, askRows, if_neg hrow, hanswers]
      dsimp only
      rw [hfuel, hrun, hcount, Nat.zero_add]
      dsimp only
      by_cases hstatus : (asked find true r (row.map (·.oid))).errorStatus = snmpErrNoError
      · have hall : all = (answers find true r (row.map (·.oid))).ends := by
          rw [hend hstatus, Bool.true_and]
        have hfirst : (answers find true r (row.map (·.oid))).errorStatus = snmpErrNoError := hstatus
        rw [if_pos hstatus, if_neg (not_not_intro hfirst)]
        by_cases hends : (answers find true r (row.map (·.oid))).ends = true
        · rw [if_pos ⟨hstatus, hall.trans hends⟩, if_pos hends, rowIndex, if_pos rfl]
          rfl
        · rw [if_neg fun hdone => hends (hall.symm.trans hdone.2), if_neg hends]
          dsimp only
          rw [answered_append h.within (answers_fit r _)]
          exact ih (r := asked find true r (row.map (·.oid))) (Nat.le_add_right _ _)
            (appended_asked hfind h.within hnames) hstatus
      · have hfirst : (answers find true r (row.map (·.oid))).errorStatus ≠ snmpErrNoError := hstatus
        rw [if_neg hstatus, if_neg fun hdone => hstatus hdone.1, if_pos hfirst, rowIndex,
          if_neg (tried_pos hfirst)]
        exact bulkRepeat_fail { asked find true r (row.map (·.oid)) with
          errorIndex := r.nonRepeaters + (answers find true r (row.map (·.oid))).tried } hstatus _ _

/-! ## A GETBULK -/

/-- The names of the first pass of a GETBULK: only the non-repeaters, where
nothing is to be repeated. -/
def firstNames (r : SnmpRequest σ) (names : List (List UInt32)) : List (List UInt32) :=
  if r.maxRepetitions = 0 then names.take r.nonRepeaters else names

/-- The first pass: up to the first repeater, or all of the names. -/
theorem bulkFirst_eq (hfind : Sound find) (hs : r.outbound.Within) (hinbound : Asks r.inbound names)
    (hok : r.errorStatus = snmpErrNoError) (hfew : r.nonRepeaters ≤ names.length) : ∃ b, ∃ e,
    bulkFirst find (r.inbound.pbufStream.length + 1) ⟨r, r.nonRepeaters, r.maxRepetitions, 0⟩ =
      .ok b ∧
    e.varbindCount = r.inbound.varbindCount + (answers find true r (firstNames r names)).tried ∧
    b.request = { asked find true r (firstNames r names) with inbound := e } ∧
    (b.request.errorStatus = snmpErrNoError → b.repetitions = r.maxRepetitions - 1 ∧
      b.repetitionOffset = (asked find true r (names.take r.nonRepeaters)).outbound.offset) := by
  have hle := hinbound.length_le
  have htake : (names.take r.nonRepeaters).length = r.nonRepeaters := List.length_take_of_le hfew
  have hdrop : (names.drop r.nonRepeaters).length = names.length - r.nonRepeaters := List.length_drop
  have hfuel : r.inbound.pbufStream.length + 1 = (names.take r.nonRepeaters).length +
      ((names.drop r.nonRepeaters).length + (r.inbound.pbufStream.length - names.length + 1)) := by
    omega
  have hsplit := hinbound
  rw [← List.take_append_drop r.nonRepeaters names] at hsplit
  obtain ⟨e, nonRepeaters, hend, hcount, hpass⟩ := bulkFirst_append hfind
    (b := ⟨r, r.nonRepeaters, r.maxRepetitions, 0⟩)
    ((names.drop r.nonRepeaters).length + (r.inbound.pbufStream.length - names.length + 1)) hs hsplit
    hok (.inr (by rw [htake]))
  have hwhole := asked_append find true hs (names.take r.nonRepeaters) (names.drop r.nonRepeaters)
  have hanswers := answers_append find true r (names.take r.nonRepeaters)
    (names.drop r.nonRepeaters)
  rw [List.take_append_drop] at hwhole hanswers
  rw [hfuel, hpass, firstNames]
  dsimp only at hend hcount ⊢
  by_cases hfront : (asked find true r (names.take r.nonRepeaters)).errorStatus = snmpErrNoError
  · obtain ⟨hasks, hzero⟩ := hend hfront
    rw [htake, sub_self] at hzero
    rw [if_neg (not_not_intro hfront)] at hwhole hanswers
    by_cases hnone : r.maxRepetitions = 0
    · rw [if_pos hnone]
      refine ⟨(Bulk.mk { asked find true r (names.take r.nonRepeaters) with inbound := e } nonRepeaters
        r.maxRepetitions 0).repeats, e, ?_, hcount, ?_, fun _ => ⟨?_, ?_⟩⟩
      · rw [← Nat.add_assoc, bulkFirst, if_neg (not_not_intro hfront), if_pos ⟨hzero, hnone⟩]
      · rw [Bulk.repeats_request]
      · rw [Bulk.repeats, if_pos hzero]
      · rw [Bulk.repeats, if_pos hzero]
    · obtain ⟨e', nonRepeaters', hcount', hrest⟩ := bulkFirst_repeaters hfind
        (b := ⟨{ asked find true r (names.take r.nonRepeaters) with inbound := e }, nonRepeaters,
          r.maxRepetitions, 0⟩)
        (r.inbound.pbufStream.length - names.length) (within_asked hs _) hasks hfront hzero
        (Nat.pos_of_ne_zero hnone)
      rw [if_neg hnone, hwhole, hanswers, tried_append hfront,
        ← Nat.add_assoc r.inbound.varbindCount, ← hcount]
      exact ⟨_, e', hrest, hcount', rfl, fun _ => ⟨rfl, rfl⟩⟩
  · rw [if_pos hfront] at hwhole hanswers
    have hfirst : asked find true r
        (if r.maxRepetitions = 0 then names.take r.nonRepeaters else names) =
        asked find true r (names.take r.nonRepeaters) := by
      split_ifs
      · rfl
      · exact hwhole
    have hfirstAnswers : answers find true r
        (if r.maxRepetitions = 0 then names.take r.nonRepeaters else names) =
        answers find true r (names.take r.nonRepeaters) := by
      split_ifs
      · rfl
      · exact hanswers
    rw [bulkFirst_fail hfront, hfirst, hfirstAnswers]
    exact ⟨_, e, rfl, hcount, rfl, fun h => absurd h hfront⟩

/-- The answers to the repeaters of the first pass are the first row that is
read again. -/
theorem appended_repeaters (hfind : Sound find) (hs : r.outbound.Within)
    (hnames : ∀ oid ∈ names, Name oid) {nonRepeaters : ℕ} (hfew : nonRepeaters ≤ names.length)
    (hok : (asked find true r names).errorStatus = snmpErrNoError) :
    (asked find true r (names.take nonRepeaters)).outbound.offset ≤
      (asked find true r names).outbound.offset ∧
    Appended (asked find true r names).outbound
      (snmpVbEnumeratorInit (asked find true r names).outbound.cells
        (asked find true r (names.take nonRepeaters)).outbound.offset
        ((asked find true r names).outbound.offset -
          (asked find true r (names.take nonRepeaters)).outbound.offset))
      ((answers find true r names).varbinds.drop nonRepeaters) := by
  have hwhole := asked_append find true hs (names.take nonRepeaters) (names.drop nonRepeaters)
  have hanswers := answers_append find true r (names.take nonRepeaters) (names.drop nonRepeaters)
  rw [List.take_append_drop] at hwhole hanswers
  have hfront : (asked find true r (names.take nonRepeaters)).errorStatus = snmpErrNoError := by
    by_contra hfail
    rw [if_pos hfail] at hwhole
    exact hfail (hwhole ▸ hok)
  rw [if_neg (not_not_intro hfront)] at hwhole hanswers
  have hlen : (answers find true r (names.take nonRepeaters)).varbinds.length = nonRepeaters :=
    (length_askAll hfront).trans (List.length_take_of_le hfew)
  have hrows := appended_asked hfind (r := asked find true r (names.take nonRepeaters))
    (within_asked hs _) fun oid hoid => hnames oid (List.mem_of_mem_drop (i := nonRepeaters) hoid)
  rw [hwhole, hanswers, Answers.append, List.drop_left' hlen]
  exact ⟨Nat.le_add_right _ _, hrows⟩

/-- The status of an answer: where the message is full, the varbinds that
are in it are the answer. -/
def told (status : UInt8) : UInt8 := if status = snmpErrTooBig then snmpErrNoError else status

theorem snmpProcessGetbulkRequest_eq {b : Bulk σ}
    (h : bulkFirst find (r.inbound.pbufStream.length + 1) ⟨r, r.nonRepeaters, r.maxRepetitions, 0⟩ =
      .ok b) : snmpProcessGetbulkRequest find r = .ok
    { bulkRepeat find b.repetitions b.request b.repetitionOffset with
      errorStatus :=
        told (bulkRepeat find b.repetitions b.request b.repetitionOffset).errorStatus } := by
  rw [snmpProcessGetbulkRequest, h]
  show (if _ then _ else _) = _
  rw [told]
  split_ifs with htooBig
  · rfl
  · rfl

/-- **A GETBULK is answered as `bulk` says**, and the rows of its message
are never misread. -/
theorem getbulk_eq (hfind : Sound find) (hs : r.outbound.Within) (hinbound : Asks r.inbound names)
    (hok : r.errorStatus = snmpErrNoError) (hfew : r.nonRepeaters ≤ names.length) : ∃ e,
    e.varbindCount = r.inbound.varbindCount + (answers find true r (firstNames r names)).tried ∧
    let answers :=
      bulk find r.version names r.nonRepeaters r.maxRepetitions r.outbound.length r.nodes
    snmpProcessGetbulkRequest find r = .ok
      { answered r answers.1 with
        inbound := e
        errorStatus := told answers.1.errorStatus
        errorIndex := rowIndex r answers.2 } := by
  obtain ⟨b, e, hfirst, hcount, hrequest, hend⟩ := bulkFirst_eq hfind hs hinbound hok hfew
  refine ⟨e, hcount, ?_⟩
  dsimp only
  rw [snmpProcessGetbulkRequest_eq hfirst, bulk]
  rw [firstNames] at hrequest
  by_cases hnone : r.maxRepetitions = 0
  · -- the repeaters are not asked
    rw [if_pos hnone] at hrequest ⊢
    have hstop : bulkRepeat find b.repetitions b.request b.repetitionOffset = b.request := by
      by_cases hstatus : b.request.errorStatus = snmpErrNoError
      · rw [(hend hstatus).1, hnone]
        rfl
      · exact bulkRepeat_fail b.request hstatus _ _
    rw [hstop, hrequest, rowIndex, if_pos rfl]
    rfl
  · rw [if_neg hnone] at hrequest ⊢
    by_cases hstatus : (asked find true r names).errorStatus = snmpErrNoError
    · have hfirstOk : (askAll find true r.version names r.outbound.length r.nodes).errorStatus =
        snmpErrNoError := hstatus
      have hback : b.request.errorStatus = snmpErrNoError := by
        rw [hrequest]
        exact hstatus
      obtain ⟨hrepetitions, hoffset⟩ := hend hback
      obtain ⟨hle, hrows⟩ := appended_repeaters hfind hs hinbound.valid hfew hstatus
      have hrun := bulkRepeat_eq hfind (r.maxRepetitions - 1)
        (r := { asked find true r names with inbound := e }) hle hrows hstatus
      rw [if_neg (not_not_intro hfirstOk), hrepetitions, hoffset, hrequest, hrun]
      dsimp only
      rw [answered_append hs (askAll_fits _ _ _)]
      rfl
    · have hfirstFail : (askAll find true r.version names r.outbound.length r.nodes).errorStatus ≠
        snmpErrNoError := hstatus
      rw [if_pos hfirstFail, hrequest,
        bulkRepeat_fail { asked find true r names with inbound := e } hstatus, rowIndex, if_pos rfl]
      rfl

/-! ## More non-repeaters than names -/

/-- The beginning of a message, in front of its version: the length is
not there yet. -/
def frontOctets : List UInt8 := headOctets asn1Sequence 3 0 ++ headOctets asn1Integer 1 1

/-- The beginning of an outgoing message is no varbind: what is read of it
there is refused. -/
theorem misreads_front {rest : List UInt8} (hs : s.Within) (hwindow : s.window = frontOctets ++ rest) :
    ∃ t, exec (decVarbind false) s = (.error .asn1Error, t) := by
  rw [frontOctets, List.append_assoc] at hwindow
  have hfour : (headOctets asn1Sequence 3 0).length = 4 := rfl
  have hlen : 4 ≤ s.length := by
    rw [← Cursor.length_window hs, hwindow, List.length_append, hfour]
    omega
  have hsequence := (reads_decTlv asn1Sequence rfl (show snmpAsn1EncLengthCnt 0 ≤ 3 by decide)
    (show 3 ≤ 128 by decide) (show 0 < 0xFFFF by decide)).mapError vbParseExec s _ hs hwindow
  have hinteger := (reads_decTlv asn1Integer rfl (show snmpAsn1EncLengthCnt 1 ≤ 1 by decide)
    (show 1 ≤ 128 by decide) (show 1 < 0xFFFF by decide)).mapError vbParseExec _ _
    (hs.skip (by rwa [hfour])) (Cursor.window_skip_append hwindow)
  refine ⟨(s.skip (headOctets asn1Sequence 3 0).length).skip (headOctets asn1Integer 1 1).length, ?_⟩
  rw [decVarbind, decHead, bind_assoc, exec_bind_ok hsequence, bind_assoc, exec_bind_ok (exec_left _),
    if_neg (not_not_intro ⟨rfl, Nat.zero_le _⟩), decName, bind_assoc, bind_assoc, exec_bind_ok hinteger,
    bind_assoc, exec_bind_ok (exec_left _), if_pos fun h => absurd h.1 (by decide)]
  rfl

theorem genError_ne : snmpErrGenError ≠ snmpErrNoError := by decide

/-- A row that begins where the message does fails. -/
theorem bulkRow_front (find : Nodes σ) (hs : r.outbound.Within) (hok : r.errorStatus = snmpErrNoError)
    (hfront : frontOctets.length ≤ r.outbound.offset)
    (hcells : r.outbound.cells.take frontOctets.length = frontOctets) (rounds : ℕ) (all : Bool) :
    bulkRow find (rounds + 1) r ⟨⟨r.outbound.cells, 0, r.outbound.offset⟩, 0⟩ all =
      ({ r with errorStatus := snmpErrGenError, errorIndex := r.nonRepeaters + 1 }, all) := by
  have hin : r.outbound.offset + r.outbound.length ≤ r.outbound.cells.length := hs
  have hwithin : Cursor.Within ⟨r.outbound.cells, 0, r.outbound.offset⟩ := by
    show 0 + r.outbound.offset ≤ r.outbound.cells.length
    omega
  have hwindow : Cursor.window ⟨r.outbound.cells, 0, r.outbound.offset⟩ =
      frontOctets ++ (r.outbound.cells.take r.outbound.offset).drop frontOctets.length := by
    have hsplit := List.take_append_drop frontOctets.length (r.outbound.cells.take r.outbound.offset)
    rw [List.take_take, Nat.min_eq_left hfront, hcells] at hsplit
    exact hsplit.symm
  obtain ⟨t, hmisread⟩ := misreads_front hwithin hwindow
  have hne : r.outbound.offset ≠ 0 := by
    have hpos : 0 < frontOctets.length := by decide
    omega
  have hget : snmpVbEnumeratorGetNext false ⟨⟨r.outbound.cells, 0, r.outbound.offset⟩, 0⟩ =
      (.error .asn1Error, ⟨t, 1⟩) := by
    rw [snmpVbEnumeratorGetNext, if_neg hne, hmisread]
  rw [bulkRow, if_neg (not_not_intro hok), hget]
  exact bulkRow_fail { r with errorStatus := snmpErrGenError, errorIndex := r.nonRepeaters + 1 }
    genError_ne rounds _ all

/-- **Where a GETBULK has fewer names than non-repeaters, and
repetitions**, its row begins where its message does: it is answered with
an error in the place of its answers. -/
theorem getbulk_short (hfind : Sound find) (hs : r.outbound.Within) (hinbound : Asks r.inbound names)
    (hok : r.errorStatus = snmpErrNoError) (hmany : names.length < r.nonRepeaters)
    (hrepetitions : 0 < r.maxRepetitions) (hfront : frontOctets.length ≤ r.outbound.offset)
    (hcells : r.outbound.cells.take frontOctets.length = frontOctets)
    (hnames : (asked find true r names).errorStatus = snmpErrNoError) : ∃ e,
    e.varbindCount = r.inbound.varbindCount + names.length ∧
    snmpProcessGetbulkRequest find r = .ok
      { asked find true r names with
        inbound := e
        errorStatus := snmpErrGenError
        errorIndex := r.nonRepeaters + 1 } := by
  have hle := hinbound.length_le
  have hfuel : r.inbound.pbufStream.length + 1 =
      names.length + (r.inbound.pbufStream.length - names.length + 1) := by omega
  obtain ⟨e, nonRepeaters, hcount, hpass⟩ := bulkFirst_plain hfind
    (b := ⟨r, r.nonRepeaters, r.maxRepetitions, 0⟩) (r.inbound.pbufStream.length - names.length) hs
    hinbound hok (.inr (by dsimp only; omega))
  rw [← hfuel] at hpass
  refine ⟨e, hcount.trans ?_, ?_⟩
  · exact congrArg _ ((tried_ok hnames).trans (length_askAll hnames))
  · rw [snmpProcessGetbulkRequest_eq hpass]
    have hbehind : frontOctets.length ≤ (asked find true r names).outbound.offset :=
      hfront.trans (Nat.le_add_right _ _)
    have hsame : (asked find true r names).outbound.cells.take frontOctets.length = frontOctets := by
      have hkeep : (asked find true r names).outbound.cells.take r.outbound.offset =
        r.outbound.cells.take r.outbound.offset := Cursor.take_put hs
      have htake := congrArg (List.take frontOctets.length) hkeep
      rw [List.take_take, List.take_take, Nat.min_eq_left hfront] at htake
      exact htake.trans hcells
    have hne : (asked find true r names).outbound.offset ≠ 0 := by
      have hpos : 0 < frontOctets.length := by decide
      omega
    have hrow := bulkRow_front find (r := { asked find true r names with inbound := e })
      (within_asked hs names) hnames hbehind hsame (asked find true r names).outbound.offset true
    have hrun : bulkRepeat find r.maxRepetitions { asked find true r names with inbound := e } 0 =
        { asked find true r names with
          inbound := e
          errorStatus := snmpErrGenError
          errorIndex := r.nonRepeaters + 1 } := by
      obtain ⟨repetitions, hrep⟩ := Nat.exists_eq_add_of_lt hrepetitions
      rw [hrep, Nat.zero_add, bulkRepeat, if_pos ⟨hnames, hne⟩]
      dsimp only
      rw [Nat.sub_zero, snmpVbEnumeratorInit, hrow, if_neg fun h => genError_ne h.1]
      exact bulkRepeat_fail _ genError_ne _ _
    dsimp only
    rw [hrun]
    rfl

end Agent

end Snmp

end SlipBoard
