import DuoFirmware.Mdns.Label

/-!
# Answering mDNS queries

`MDNS::getResponses` reads the header of a packet and then one question after the other, and
collects in a mask which records are to be sent. `Label::Matcher::match` is a parameter here: only
what its calls return matters for the loop over the questions.

## The counter

The questions are counted in 8 bits, and the header's count has 16. The loop ends when the counter
has reached the header's count, and a name that runs past the end of the packet is to end it at
once by setting the counter to this count, of which it takes the low 8 bits.
-/

namespace DuoFirmware.Mdns

open Divergence Program

def hostName : ℤ := 0

def serviceName : ℤ := 1

def instanceName : ℤ := 2

def aType : ℕ := 0x01

def ptrType : ℕ := 0x0c

def txtType : ℕ := 0x10

def aaaaType : ℕ := 0x1c

def srvType : ℕ := 0x21

def nsecType : ℕ := 0x2f

def anyType : ℕ := 0xff

def aFlag : UInt16 := 0x01

def ptrFlag : UInt16 := 0x02

def srvFlag : UInt16 := 0x04

def txtFlag : UInt16 := 0x08

def nsecHostFlag : UInt16 := 0x10

def nsecInstanceFlag : UInt16 := 0x20

/-- `ADDITIONAL`. -/
def additional (flag : UInt16) : UInt16 := flag <<< 6

/-! ## The header -/

structure QuerySet where
  id : ℕ := 0
  flags : ℕ := 0
  qdcount : ℕ := 0
  ancount : ℕ := 0
  nscount : ℕ := 0
  arcount : ℕ := 0
  responses : UInt16 := 0
  status : String := "ok"
  deriving DecidableEq, Repr

namespace QuerySet

def isQuery (q : QuerySet) : Prop := q.flags < 0x8000

instance (q : QuerySet) : Decidable q.isQuery := inferInstanceAs (Decidable (_ < _))

/-- The six numbers of the header. -/
def readFields (q : QuerySet) : Program Buffer QuerySet := do
  let id ← readUInt16
  let flags ← readUInt16
  let qdcount ← readUInt16
  let ancount ← readUInt16
  let nscount ← readUInt16
  let arcount ← readUInt16
  pure { q with id, flags, qdcount, ancount, nscount, arcount }

/-- `QuerySet::readHeader`; `malloc` says whether there is memory for the questions. -/
def readHeader (malloc : Bool) (q : QuerySet) : Program Buffer (Bool × QuerySet) := do
  let more ← look fun b ↦ decide (12 ≤ b.available)
  if more then
    let q ← q.readFields
    pure (malloc, q)
  else pure (false, q)

end QuerySet

/-! ## The questions -/

/-- The records that answer a question for a registered name. -/
def responsesTo (matchedName : ℤ) (type : ℕ) : UInt16 :=
  if matchedName = hostName then
    if type = aType ∨ type = anyType then aFlag ||| additional nsecHostFlag
    else if type = aaaaType then nsecHostFlag
    else 0
  else if matchedName = serviceName then
    if type = ptrType ∨ type = anyType then
      ptrFlag ||| additional srvFlag ||| additional txtFlag ||| additional aFlag
    else 0
  else if matchedName = instanceName then
    if type = srvType then srvFlag ||| additional aFlag ||| additional nsecInstanceFlag
    else if type = txtType then txtFlag ||| additional nsecInstanceFlag
    else if type = anyType then srvFlag ||| txtFlag ||| additional aFlag ||| nsecInstanceFlag
    else 0
  else 0

/-- What the loop over the questions changes. -/
structure Answering where
  /-- The counter, of 8 bits. -/
  count : ℕ
  responses : UInt16
  status : String
  deriving DecidableEq, Repr

namespace Answering

/-- One question was read. -/
def respond (qdcount : ℕ) (s : Answering) (matchedName : ℤ) (type : ℕ) : Answering :=
  if 0 ≤ matchedName then { s with responses := s.responses ||| responsesTo matchedName type }
  else if matchedName = bufferUnderflow then
    { s with count := qdcount % 256,
             status := "query " ++ toString s.count ++ " buffer underflow" }
  else s

/-- `count++`. -/
def increment (s : Answering) : Answering := { s with count := (s.count + 1) % 256 }

end Answering

/-- A pass of the loop over the questions. -/
def question (answer : Program Buffer Match) (qdcount : ℕ) (s : Answering) :
    Program Buffer Answering := do
  let m ← answer
  let type ← readUInt16
  let _cls ← readUInt16
  pure (s.respond qdcount m.nameIndex type)

/-- The loop over the questions, of which it may answer `rounds`; `answers` are the calls of
`match`, one for each question. -/
def questionLoop (answers : ℕ → Program Buffer Match) (qdcount : ℕ) :
    ℕ → ℕ → Answering → Program Buffer Answering
  | 0, _, s => if s.count < qdcount then cut else pure s
  | rounds + 1, asked, s =>
    if s.count < qdcount then do
      let s ← question (answers asked) qdcount s.increment
      questionLoop answers qdcount rounds (asked + 1) s
    else pure s

/-- `MDNS::getResponses` behind the header. -/
def answerQuery (answers : ℕ → Program Buffer Match) (rounds : ℕ) (q : QuerySet) :
    Program Buffer QuerySet := do
  let s ← questionLoop answers q.qdcount rounds 0 ⟨0, 0, q.status⟩
  pure { q with responses := s.responses, status := s.status }

/-- `MDNS::getResponses`, which leaves its result in the query set. -/
def getResponses (malloc : Bool) (answers : ℕ → Program Buffer Match) (rounds : ℕ) :
    Program Buffer QuerySet := do
  let header ← QuerySet.readHeader malloc {}
  if header.1 then
    if header.2.isQuery then answerQuery answers rounds header.2 else pure header.2
  else pure { header.2 with status := "header buffer underflow" }

/-! ## Headers -/

namespace Packet

/-- A number of the header. -/
def word (p : Packet) (o : ℕ) : ℕ := (p.data o).toNat * 256 + (p.data (o + 1)).toNat

/-- The header's count of questions. -/
def questionCount (p : Packet) : ℕ := p.word 4

/-- The questions of the packet are read. -/
structure HasQuestions (p : Packet) (malloc : Bool) : Prop where
  complete : 12 ≤ p.limit
  allocated : malloc = true
  query : p.word 2 < 0x8000

/-- The header of a packet. -/
def header (p : Packet) : QuerySet where
  id := p.word 0
  flags := p.word 2
  qdcount := p.word 4
  ancount := p.word 6
  nscount := p.word 8
  arcount := p.word 10

/-- The buffer behind the header. -/
def behindHeader (p : Packet) : Buffer :=
  { p.received with offset := 12, reads := [11, 10, 9, 8, 7, 6, 5, 4, 3, 2, 1, 0] }

/-- The header lies inside of the packet. -/
theorem behindHeader_reads (p : Packet) (h : 12 ≤ p.limit) :
    ∀ x ∈ p.behindHeader.reads, x < p.limit := by
  intro x hx
  have hlt : ∀ y ∈ [11, 10, 9, 8, 7, 6, 5, 4, 3, 2, 1, 0], y < 12 := by decide
  exact (hlt x hx).trans_le h

end Packet

theorem readFields_received (p : Packet) :
    QuerySet.readFields {} p.received = (some p.header, p.behindHeader) := rfl

theorem available_received (p : Packet) : p.received.available = p.limit := by
  rw [Buffer.available]
  split
  · exact Nat.sub_zero _
  · rename_i h
    change ¬0 < p.limit at h
    change 0 - p.limit = p.limit
    omega

theorem readHeader_of_complete {p : Packet} (h : 12 ≤ p.limit) (malloc : Bool) :
    QuerySet.readHeader malloc {} p.received = (some (malloc, p.header), p.behindHeader) := by
  have hlook : look (fun b : Buffer ↦ decide (12 ≤ b.available)) p.received =
      (some true, p.received) := by
    rw [look, available_received, decide_eq_true h]
  rw [QuerySet.readHeader, run_bind hlook, if_pos rfl, run_bind (readFields_received p)]
  rfl

theorem readHeader_of_short {p : Packet} (h : p.limit < 12) (malloc : Bool) :
    QuerySet.readHeader malloc {} p.received = (some (false, {}), p.received) := by
  have hlook : look (fun b : Buffer ↦ decide (12 ≤ b.available)) p.received =
      (some false, p.received) := by
    rw [look, available_received, decide_eq_false (not_le.mpr h)]
  rw [QuerySet.readHeader, run_bind hlook]
  rfl

section GetResponses

variable {p : Packet} {malloc : Bool} {answers : ℕ → Program Buffer Match}

/-- The questions are answered from behind the header on. -/
theorem getResponses_of_hasQuestions (h : p.HasQuestions malloc) (rounds : ℕ) :
    getResponses malloc answers rounds p.received =
      answerQuery answers rounds p.header p.behindHeader := by
  have hquery : p.header.isQuery := h.query
  rw [getResponses, run_bind (readHeader_of_complete h.complete malloc)]
  dsimp only
  rw [if_pos h.allocated, if_pos hquery]

/-- Without questions `getResponses` returns, and has read no more than the header. -/
theorem getResponses_of_not_hasQuestions (answers : ℕ → Program Buffer Match)
    (h : ¬p.HasQuestions malloc) (rounds : ℕ) :
    ∃ q b', getResponses malloc answers rounds p.received = (some q, b') ∧
      ∀ x ∈ b'.reads, x < p.limit := by
  by_cases hlimit : 12 ≤ p.limit
  · have hreads := p.behindHeader_reads hlimit
    cases malloc with
    | false =>
      rw [getResponses, run_bind (readHeader_of_complete hlimit false)]
      exact ⟨_, _, rfl, hreads⟩
    | true =>
      have hquery : ¬p.header.isQuery := fun hq ↦ h ⟨hlimit, rfl, hq⟩
      rw [getResponses, run_bind (readHeader_of_complete hlimit true)]
      dsimp only
      rw [if_pos rfl, if_neg hquery]
      exact ⟨_, _, rfl, hreads⟩
  · rw [getResponses, run_bind (readHeader_of_short (not_le.mp hlimit) malloc)]
    exact ⟨_, _, rfl, fun x hx ↦ absurd hx List.not_mem_nil⟩

end GetResponses

/-! ## The end of the loop -/

section QuestionLoop

variable {answers : ℕ → Program Buffer Match} {qdcount : ℕ}

namespace Answering

variable {s : Answering}

theorem increment_count (s : Answering) : s.increment.count = (s.count + 1) % 256 := rfl

/-- A question leaves the counter as it is, or sets it to the header's count. -/
theorem respond_count (s : Answering) (qdcount : ℕ) (matchedName : ℤ) (type : ℕ) :
    (s.respond qdcount matchedName type).count = s.count ∨
      (s.respond qdcount matchedName type).count = qdcount % 256 := by
  rw [respond]
  split
  · exact .inl rfl
  · split
    · exact .inr rfl
    · exact .inl rfl

end Answering

/-- A question for which `match` returns. -/
theorem question_of_returns {answer : Program Buffer Match} {b b' : Buffer} {m : Match}
    (h : answer b = (some m, b')) (s : Answering) :
    question answer qdcount s b =
      (some (s.respond qdcount m.nameIndex ((b'.data b'.offset).toNat * 256 +
        (b'.data b'.advance.offset).toNat)), b'.advance.advance.advance.advance) := by
  rw [question, run_bind h]
  rfl

theorem exists_question {answer : Program Buffer Match} (h : ∀ b, ((answer b).1).isSome)
    (qdcount : ℕ) (s : Answering) (b : Buffer) : ∃ matchedName type b',
      question answer qdcount s b = (some (s.respond qdcount matchedName type), b') := by
  rcases hr : answer b with ⟨_ | m, b'⟩
  · have := h b
    rw [hr] at this
    cases this
  · exact ⟨_, _, _, question_of_returns hr s⟩

/-- With a count that fits the counter, one more question brings the end closer. -/
theorem questionLoop_returns (h : ∀ k b, ((answers k b).1).isSome) (hle : qdcount ≤ 255)
    {rounds asked : ℕ} {s : Answering} (hs : qdcount ≤ rounds + s.count) (b : Buffer) :
    ((questionLoop answers qdcount rounds asked s b).1).isSome := by
  induction rounds generalizing asked s b with
  | zero =>
    rw [questionLoop, if_neg (by omega)]
    rfl
  | succ rounds ih =>
    by_cases hlt : s.count < qdcount
    · obtain ⟨matchedName, type, b', hquestion⟩ :=
        exists_question (h asked) qdcount s.increment b
      rw [questionLoop, if_pos hlt, run_bind hquestion]
      apply ih
      rcases s.increment.respond_count qdcount matchedName type with hc | hc
      · rw [hc, Answering.increment_count, Nat.mod_eq_of_lt (by omega)]
        omega
      · rw [hc, Nat.mod_eq_of_lt (by omega)]
        omega
    · rw [questionLoop, if_neg hlt]
      rfl

/-- With a larger count the loop never ends. -/
theorem questionLoop_endless (h : ∀ k b, ((answers k b).1).isSome) (hlt : 255 < qdcount)
    (rounds : ℕ) {asked : ℕ} {s : Answering} (hs : s.count < 256) (b : Buffer) :
    (questionLoop answers qdcount rounds asked s b).1 = none := by
  induction rounds generalizing asked s b with
  | zero =>
    rw [questionLoop, if_pos (by omega)]
    rfl
  | succ rounds ih =>
    obtain ⟨matchedName, type, b', hquestion⟩ :=
      exists_question (h asked) qdcount s.increment b
    rw [questionLoop, if_pos (by omega), run_bind hquestion]
    apply ih
    rcases s.increment.respond_count qdcount matchedName type with hc | hc
    · rw [hc]
      exact Nat.mod_lt _ (by decide)
    · rw [hc]
      exact Nat.mod_lt _ (by decide)

end QuestionLoop

theorem answerQuery_isSome {answers : ℕ → Program Buffer Match} {rounds : ℕ} {q : QuerySet}
    {b : Buffer} : ((answerQuery answers rounds q b).1).isSome ↔
      ((questionLoop answers q.qdcount rounds 0 ⟨0, 0, q.status⟩ b).1).isSome := by
  rcases hr : questionLoop answers q.qdcount rounds 0 ⟨0, 0, q.status⟩ b with ⟨_ | s, b'⟩
  · rw [answerQuery, run_bind_none hr]
    rfl
  · rw [answerQuery, run_bind hr]
    rfl

/-- **When the loop over the questions ends.** It ends after at most as many questions as the header
counts if this count fits the counter, and never otherwise. -/
theorem getResponses_returns_iff (p : Packet) (malloc : Bool)
    (answers : ℕ → Program Buffer Match) (h : ∀ k b, ((answers k b).1).isSome) :
    ((getResponses malloc answers p.questionCount p.received).1).isSome ↔
      ¬p.HasQuestions malloc ∨ p.questionCount ≤ 255 := by
  by_cases hp : p.HasQuestions malloc
  · rw [getResponses_of_hasQuestions hp, or_iff_right (not_not.mpr hp)]
    constructor
    · intro hreturns
      by_contra hlt
      rw [answerQuery_isSome] at hreturns
      exact Option.isSome_iff_ne_none.mp hreturns
        (questionLoop_endless h (not_le.mp hlt) _ (Nat.zero_lt_succ _) p.behindHeader)
    · intro hle
      rw [answerQuery_isSome]
      exact questionLoop_returns h hle (Nat.le_add_right _ _) p.behindHeader
  · obtain ⟨q, b', hreturns, -⟩ := getResponses_of_not_hasQuestions answers hp p.questionCount
    rw [hreturns]
    exact ⟨fun _ ↦ .inl hp, fun _ ↦ rfl⟩

/-- A query whose header counts `n` questions. -/
def queryOf (high low : UInt8) : Packet :=
  .ofBytes [0, 0, 0, 0, high, low, 0, 0, 0, 0, 0, 0] (Nat.le_of_ble_eq_true rfl)

/-- `match` finds an unknown name. -/
def unknownAnswers (_ : ℕ) : Program Buffer Match := pure ⟨unknownName, []⟩

theorem queryOf_hasQuestions (high low : UInt8) : (queryOf high low).HasQuestions true :=
  ⟨Nat.le_refl 12, rfl, show (0 : UInt8).toNat * 256 + (0 : UInt8).toNat < 0x8000 by decide⟩

theorem getResponses_one_question :
    (∀ k b, ((unknownAnswers k b).1).isSome) ∧
      (((getResponses true unknownAnswers (queryOf 0 1).questionCount
          (queryOf 0 1).received).1).isSome ↔
        ¬(queryOf 0 1).HasQuestions true ∨ (queryOf 0 1).questionCount ≤ 255) :=
  ⟨fun _ _ ↦ rfl, getResponses_returns_iff (queryOf 0 1) true unknownAnswers fun _ _ ↦ rfl⟩

/-- 256 questions are asked without end. -/
theorem getResponses_endless : ¬∀ (p : Packet) (malloc : Bool) (answers : ℕ → Program Buffer Match),
    (∀ k b, ((answers k b).1).isSome) →
      ((getResponses malloc answers p.questionCount p.received).1).isSome := by
  intro h
  have hreturns := h (queryOf 1 0) true unknownAnswers fun _ _ ↦ rfl
  rw [getResponses_of_hasQuestions (queryOf_hasQuestions 1 0), answerQuery_isSome,
    Option.isSome_iff_ne_none] at hreturns
  exact hreturns (questionLoop_endless (fun _ _ ↦ rfl) (by decide) _ (Nat.zero_lt_succ _) _)

end DuoFirmware.Mdns
