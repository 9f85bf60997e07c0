import DuoFirmware.Mdns.Names
import DuoFirmware.Mdns.Queries

/-!
# What is read of a packet

Nothing but `available` keeps the reader inside of a packet, and it only notices the first byte
behind it: a pointer leads past it, and the type and the class of a question are read without
asking. The processing stays inside of a packet if every question that it comes to lies inside,
with all offsets on the way of its name and with the four bytes behind the name.

## Two bounds

The loops of `match` and the loop over the questions each have their fuel. What a run reads grows
with both, so that a byte is read if it is read with enough of both.
-/

namespace DuoFirmware.Mdns

open Divergence Program Relation

/-- The questions of a packet that are read, with their offsets. -/
inductive QuestionAt (p : Packet) : ℕ → ℕ → Prop
  | first (h : 0 < p.questionCount) : QuestionAt p 0 12
  | next {k o f r : ℕ} (hquestion : QuestionAt p k o) (hf : Final p f) (hr : Resumes p f o r)
      (hmore : 256 ≤ p.questionCount ∨ p.data f = 0 ∧ k + 1 < p.questionCount) :
      QuestionAt p (k + 1) ((r + 4) % 65536)

/-- A question lies inside of the packet. -/
structure Contained (p : Packet) (o : ℕ) : Prop where
  way : ∀ x, ReflTransGen (Leads p) o x → x < p.limit
  fields : ∀ f r, Final p f → Resumes p f o r → r + 4 ≤ p.limit

/-- `MDNS::getResponses` with its calls of `match`. -/
def respond (labels : List Chain) (malloc : Bool) (fuel : ℕ) : Program Buffer QuerySet :=
  getResponses malloc (fun _ ↦ matchName labels fuel) fuel

/-- All that was read lies inside of the packet. -/
def ReadsInside (p : Packet) (b : Buffer) : Prop := ∀ x ∈ b.reads, x < p.limit

/-! ## Reading inside -/

section Inside

variable {p : Packet} {b : Buffer}

theorem ReadsInside.advance (h : ReadsInside p b) (hlt : b.offset < p.limit) :
    ReadsInside p b.advance := by
  intro x hx
  rcases List.mem_cons.mp hx with rfl | hx
  · exact hlt
  · exact h x hx

@[simp] theorem Buffer.mark_reads (b : Buffer) : b.mark.reads = b.reads := by
  rw [mark]
  split <;> rfl

@[simp] theorem Buffer.reset_reads (b : Buffer) : b.reset.reads = b.reads := by
  rw [reset]
  split <;> rfl

theorem Buffer.hop_reads (b : Buffer) : b.hop.reads = b.advance.advance.reads :=
  mark_reads _

/-- Whatever the reader does next, it stays inside. -/
def StaysInside (p : Packet) (b : Buffer) : Prop :=
  ∀ x, ReflTransGen (Leads p) b.offset x → x < p.limit

theorem StaysInside.hop (hb : b.toPacket = p) (h : StaysInside p b)
    (hp : isPointer (b.data b.offset)) (hmore : (b.offset + 1) % 65536 ≠ b.limit) :
    StaysInside p b.hop := by
  subst hb
  exact fun x hx ↦ h x (hx.head (.pointer hp hmore))

theorem next_readsInside (hb : b.toPacket = p) (h : StaysInside p b) (hreads : ReadsInside p b)
    (hops : ℕ) : ReadsInside p (next hops b).2 := by
  have hlt : b.offset < p.limit := h _ .refl
  induction hops generalizing b with
  | zero => exact hreads.advance hlt
  | succ hops ih =>
    by_cases hp : isPointer (b.data b.offset)
    · by_cases hmore : (b.offset + 1) % 65536 = b.limit
      · rw [next_stuck hp hmore]
        exact hreads.advance hlt
      · have hbehind : b.advance.offset < p.limit := by
          rw [Buffer.advance_offset]
          rw [hb] at hmore
          omega
        have hhop := h.hop hb hp hmore
        rw [next_hop hp hmore]
        refine ih ((Buffer.hop_toPacket b).trans hb) hhop ?_ (hhop _ .refl)
        intro x hx
        rw [Buffer.hop_reads] at hx
        exact (hreads.advance hlt).advance hbehind x hx
    · rw [next_byte hp]
      exact hreads.advance hlt

/-- The reader has read nothing outside, and will not. -/
structure Ready (p : Packet) (c : UInt8) (b : Buffer) : Prop where
  packet : b.toPacket = p
  reads : ReadsInside p b
  stays : hasNext c b → StaysInside p b

/-- One byte is read, and the way goes on behind it. -/
theorem next_keeps {c : UInt8} (h : Ready p c b) (hmore : hasNext c b) (hops : ℕ) :
    Keeps (ReadsInside p) (next hops) b (Ready p) := by
  have hreads := next_readsInside h.packet (h.stays hmore) h.reads hops
  refine ⟨hreads, fun d hd ↦ ?_⟩
  have hnext : Next b d (next hops b).2 := .of_run (Prod.ext hd rfl)
  have hpacket := hnext.toPacket_eq.trans h.packet
  obtain ⟨f, hreach, hp, rfl, hoffset⟩ := hnext.reaches h.packet
  refine ⟨hpacket, hreads, fun hmore' x hx ↦ ?_⟩
  obtain ⟨hne, hlimit⟩ := hasNext_iff.mp hmore'
  rw [hoffset] at hx hlimit
  rw [hpacket] at hlimit
  exact h.stays hmore x (hreach.trans (hx.head (.byte hne hp hlimit)))

theorem labelLoop_keeps {m : Matching} (h : Ready p m.c b) (hops n : ℕ) :
    Keeps (ReadsInside p) (labelLoop hops n m) b fun m' b' ↦ Ready p m'.c b' := by
  induction n generalizing m b with
  | zero => exact .of_run rfl h.reads h
  | succ n ih =>
    by_cases hmore : hasNext m.c b
    · exact .of_eq (labelLoop_next hmore hops n)
        ((next_keeps h hmore hops).bind fun c b' hc ↦ ih (m := (m.feed c).append c) hc)
    · exact .of_run (labelLoop_stop hmore hops _) h.reads h

theorem nameLoop_keeps {m : Matching} (h : Ready p m.c b) (hops rounds : ℕ) :
    Keeps (ReadsInside p) (nameLoop hops rounds m) b fun m' b' ↦ Ready p m'.c b' := by
  induction rounds generalizing m b with
  | zero => exact keeps_cut h.reads
  | succ rounds ih =>
    by_cases hmore : hasNext m.c b
    · refine .of_eq (nameLoop_next hmore hops rounds) ((next_keeps h hmore hops).bind ?_)
      intro size b₁ hsize
      refine (labelLoop_keeps (m := m.feed size) hsize hops size.toNat).bind ?_
      intro m' b' hm'
      rw [← ite_append_c size] at hm'
      exact ih hm'
    · exact .of_run (nameLoop_stop hmore hops _) h.reads h

theorem matchName_keeps (labels : List Chain) (h : Ready p 1 b) (fuel : ℕ) :
    Keeps (ReadsInside p) (matchName labels fuel) b fun _ b' ↦ ReadsInside p b' := by
  refine (nameLoop_keeps (m := Matching.start labels) h fuel fuel).bind fun m b' hm ↦ ?_
  have hreads : ReadsInside p b'.reset := fun x hx ↦ hm.reads x (by rwa [Buffer.reset_reads] at hx)
  exact .of_run rfl hreads hreads

end Inside

/-! ## Questions inside -/

/-- The loop over the questions comes to the offset `o`. -/
structure AtQuestion (p : Packet) (o : ℕ) (b : Buffer) : Prop where
  packet : b.toPacket = p
  offset : b.offset = o
  mark : b.markOffset = invalidMarkOffset

section Questions

variable {p : Packet} {labels : List Chain} {b : Buffer} {o k : ℕ} {s : Answering}

/-- The buffer behind the type and the class of a question. -/
def behindFields (b : Buffer) : Buffer := b.advance.advance.advance.advance

theorem behindFields_offset (b : Buffer) : (behindFields b).offset = (b.offset + 4) % 65536 := by
  simp only [behindFields, Buffer.advance_offset]
  omega

theorem mem_behindFields_reads (b : Buffer) {x : ℕ} : x ∈ (behindFields b).reads ↔
    x = (b.offset + 3) % 65536 ∨ x = (b.offset + 2) % 65536 ∨ x = (b.offset + 1) % 65536 ∨
      x = b.offset ∨ x ∈ b.reads := by
  simp only [behindFields, Buffer.advance, List.mem_cons, Nat.mod_add_mod, Nat.add_assoc,
    Nat.reduceAdd]

theorem respond_count_of_resumes (s : Answering) {m : Match} {qdcount type : ℕ} {zero : Prop}
    [Decidable zero] (h : m.nameIndex =
      if zero then if labels = [] then unknownName else 1 else bufferUnderflow) :
    (s.respond qdcount m.nameIndex type).count = if zero then s.count else qdcount % 256 := by
  by_cases hzero : zero
  · rw [if_pos hzero] at h ⊢
    rw [h]
    split <;> rfl
  · rw [if_neg hzero] at h ⊢
    rw [h]
    rfl

/-- One question. -/
structure Asked (p : Packet) (o : ℕ) (s s' : Answering) (b' : Buffer) (f r : ℕ) : Prop where
  final : Final p f
  resumes : Resumes p f o r
  behind : AtQuestion p ((r + 4) % 65536) b'
  count : s'.count = if p.data f = 0 then s.count else p.questionCount % 256

theorem question_keeps (h : AtQuestion p o b) (hreads : ReadsInside p b) (hc : Contained p o)
    (s : Answering) (fuel : ℕ) :
    Keeps (ReadsInside p) (question (matchName labels fuel) p.questionCount s) b
      fun s' b' ↦ ReadsInside p b' ∧ ∃ f r, Asked p o s s' b' f r := by
  obtain ⟨hb, rfl, hmark⟩ := h
  have hready : Ready p 1 b := ⟨hb, hreads, fun _ ↦ hc.way⟩
  refine (matchName_keeps labels hready fuel).run.bind fun m b' ⟨hreads', hm⟩ ↦ ?_
  obtain ⟨f, hf, hresumes, hb', hindex⟩ := matchName_resumes hb hmark (hc.way _ .refl) hm
  have hfits := hc.fields f _ hf hresumes
  have hlimit := p.limit_lt
  rw [invalidMarkOffset] at hlimit
  have hinside : ReadsInside p (behindFields b') := by
    intro x hx
    rw [mem_behindFields_reads] at hx
    rcases hx with rfl | rfl | rfl | rfl | hx
    · omega
    · omega
    · omega
    · omega
    · exact hreads' x hx
  refine Keeps.of_run (show _ = (some _, behindFields b') from rfl) hinside
    ⟨hinside, f, b'.offset, hf, hresumes, ?_, ?_⟩
  · refine ⟨hb', behindFields_offset b', ?_⟩
    obtain ⟨cs, e, b₁, -, -, rfl⟩ := matchName_walk hm
    exact Buffer.reset_markOffset b₁
  · exact respond_count_of_resumes s hindex

/-- The next question is one of the packet's. -/
theorem Asked.next {s s' : Answering} {b' : Buffer} {f r : ℕ} (h : Asked p o s.increment s' b' f r)
    (hs : s.count < p.questionCount) (hquestion : QuestionAt p k o)
    (hcount : 256 ≤ p.questionCount ∨ s.count = k) (hs' : s'.count < p.questionCount) :
    QuestionAt p (k + 1) ((r + 4) % 65536) ∧ (256 ≤ p.questionCount ∨ s'.count = k + 1) := by
  rcases hcount with hlarge | rfl
  · exact ⟨.next hquestion h.final h.resumes (.inl hlarge), .inl hlarge⟩
  · by_cases hlarge : 256 ≤ p.questionCount
    · exact ⟨.next hquestion h.final h.resumes (.inl hlarge), .inl hlarge⟩
    · have hc := h.count
      rw [Answering.increment_count, Nat.mod_eq_of_lt (by omega)] at hc
      by_cases hzero : p.data f = 0
      · rw [if_pos hzero] at hc
        rw [hc] at hs' ⊢
        exact ⟨.next hquestion h.final h.resumes (.inr ⟨hzero, hs'⟩), .inr rfl⟩
      · rw [if_neg hzero, Nat.mod_eq_of_lt (by omega)] at hc
        omega

/-- Questions inside of the packet are read inside of it. -/
theorem questionLoop_keeps (hall : ∀ k o, QuestionAt p k o → Contained p o)
    (h : AtQuestion p o b) (hreads : ReadsInside p b)
    (hs : s.count < p.questionCount →
      QuestionAt p k o ∧ (256 ≤ p.questionCount ∨ s.count = k)) (fuel rounds : ℕ) :
    Keeps (ReadsInside p)
      (questionLoop (fun _ ↦ matchName labels fuel) p.questionCount rounds k s) b
      fun _ _ ↦ True := by
  induction rounds generalizing k o s b with
  | zero =>
    rw [questionLoop]
    split
    · exact keeps_cut hreads
    · exact .of_run rfl hreads trivial
  | succ rounds ih =>
    rw [questionLoop]
    by_cases hlt : s.count < p.questionCount
    · obtain ⟨hquestion, hcount⟩ := hs hlt
      rw [if_pos hlt]
      refine (question_keeps h hreads (hall k o hquestion) s.increment fuel).bind ?_
      rintro s' b' ⟨hreads', f, r, hasked⟩
      exact ih hasked.behind hreads' fun hlt' ↦ hasked.next hlt hquestion hcount hlt'
    · rw [if_neg hlt]
      exact .of_run rfl hreads trivial

end Questions

/-! ## What is read stays read -/

/-- All that was read before was read. -/
def ReadsMore (b b' : Buffer) : Prop := b.reads ⊆ b'.reads

instance : IsTrans Buffer ReadsMore := ⟨fun _ _ _ h h' ↦ List.Subset.trans h h'⟩

instance : Std.Refl ReadsMore := ⟨fun b ↦ List.Subset.refl b.reads⟩

theorem grows_look {α : Type} (f : Buffer → α) : Grows ReadsMore (look f) :=
  fun b ↦ List.Subset.refl b.reads

theorem grows_pure {α : Type} (a : α) : Grows ReadsMore (pure a : Program Buffer α) :=
  fun b ↦ List.Subset.refl b.reads

theorem grows_cut {α : Type} : Grows ReadsMore (cut : Program Buffer α) :=
  fun b ↦ List.Subset.refl b.reads

theorem grows_update {f : Buffer → Buffer} (h : ∀ b, (f b).reads = b.reads) :
    Grows ReadsMore (update f) := by
  intro b x hx
  change x ∈ (f b).reads
  rwa [h b]

theorem grows_readUInt8 : Grows ReadsMore readUInt8 :=
  fun b ↦ List.subset_cons_self b.offset b.reads

theorem grows_readUInt16 : Grows ReadsMore readUInt16 :=
  grows_readUInt8.bind fun _ ↦ grows_readUInt8.bind fun _ ↦ grows_pure _

theorem grows_followPointers (hops : ℕ) (c : UInt8) : Grows ReadsMore (followPointers hops c) := by
  induction hops generalizing c with
  | zero => exact grows_cut
  | succ hops ih =>
    rw [followPointers]
    refine .ite ((grows_look _).bind fun more ↦ .ite ?_ (ih c)) (grows_pure c)
    exact grows_readUInt8.bind fun c₂ ↦ (grows_update Buffer.mark_reads).bind fun _ ↦
      (grows_update (f := (Buffer.setOffset · (pointerOffset c c₂))) fun _ ↦ rfl).bind fun _ ↦
        grows_readUInt8.bind fun c ↦ ih c

theorem grows_next (hops : ℕ) : Grows ReadsMore (next hops) :=
  grows_readUInt8.bind fun c ↦ grows_followPointers hops c

theorem grows_labelLoop (hops n : ℕ) (m : Matching) : Grows ReadsMore (labelLoop hops n m) := by
  induction n generalizing m with
  | zero => exact grows_pure m
  | succ n ih =>
    rw [labelLoop]
    exact (grows_look _).bind fun more ↦
      .ite ((grows_next hops).bind fun c ↦ ih _) (grows_pure m)

theorem grows_nameLoop (hops rounds : ℕ) (m : Matching) :
    Grows ReadsMore (nameLoop hops rounds m) := by
  induction rounds generalizing m with
  | zero => exact grows_cut
  | succ rounds ih =>
    rw [nameLoop]
    exact (grows_look _).bind fun more ↦ .ite ((grows_next hops).bind fun size ↦
      (grows_labelLoop hops _ _).bind fun m ↦ ih _) (grows_pure m)

theorem grows_questionLoop {answers : ℕ → Program Buffer Match}
    (h : ∀ k, Grows ReadsMore (answers k)) (qdcount rounds asked : ℕ) (s : Answering) :
    Grows ReadsMore (questionLoop answers qdcount rounds asked s) := by
  induction rounds generalizing asked s with
  | zero =>
    rw [questionLoop]
    exact .ite grows_cut (grows_pure s)
  | succ rounds ih =>
    rw [questionLoop]
    refine .ite (.bind ?_ fun s ↦ ih _ s) (grows_pure s)
    exact (h asked).bind fun m ↦ grows_readUInt16.bind fun type ↦
      grows_readUInt16.bind fun cls ↦ grows_pure _

theorem grows_matchName (labels : List Chain) (fuel : ℕ) :
    Grows ReadsMore (matchName labels fuel) :=
  (grows_nameLoop fuel fuel _).bind fun m ↦ (grows_update Buffer.reset_reads).bind fun _ ↦
    grows_pure m.select

/-! ## Reading the whole way -/

/-- A label that is being read: how many of its bytes are missing, its size, and what was matched
before. -/
structure Pending where
  left : ℕ
  size : UInt8
  matching : Matching

namespace Pending

/-- The label is complete. -/
def complete (q : Pending) : Matching :=
  if 0 < q.size then q.matching.append dot else q.matching

/-- One more byte was read. -/
def after (q : Pending) (c : UInt8) : Pending :=
  match q.left with
  | 0 => ⟨c.toNat, c, q.complete.feed c⟩
  | left + 1 => ⟨left, q.size, (q.matching.feed c).append c⟩

/-- The rest of `match` from there on. -/
def resume (hops rounds : ℕ) (q : Pending) : Program Buffer Matching := do
  let m ← labelLoop hops q.left q.matching
  nameLoop hops rounds (Pending.complete ⟨0, q.size, m⟩)

theorem after_c (q : Pending) (c : UInt8) : (q.after c).matching.c = c := by
  rw [after]
  split <;> rfl

theorem complete_c (q : Pending) : q.complete.c = q.matching.c := ite_append_c q.size q.matching

/-- The reader reads on. -/
theorem resume_next {q : Pending} {b : Buffer} (h : hasNext q.matching.c b) (hops rounds : ℕ) :
    ∃ rounds' ≥ rounds, resume hops (rounds + 1) q b =
      (next hops >>= fun c ↦ resume hops rounds' (q.after c)) b := by
  obtain ⟨left, size, m⟩ := q
  cases left with
  | zero =>
    refine ⟨rounds, le_rfl, ?_⟩
    have hmore : hasNext (complete ⟨0, size, m⟩).c b := by rwa [complete_c]
    exact nameLoop_next hmore hops rounds
  | succ left =>
    refine ⟨rounds + 1, Nat.le_succ _, ?_⟩
    rw [resume, bind_congr _ (labelLoop_next h hops left), bind_assoc]
    rfl

theorem grows_resume (hops rounds : ℕ) (q : Pending) : Grows ReadsMore (q.resume hops rounds) :=
  (grows_labelLoop hops _ _).bind fun _ ↦ grows_nameLoop hops rounds _

end Pending

theorem mem_reads_next (hops : ℕ) (b : Buffer) : b.offset ∈ (next hops b).2.reads :=
  grows_followPointers hops _ b.advance List.mem_cons_self

/-- With enough fuel every offset on the way is read. -/
theorem exists_reads {p : Packet} {b : Buffer} {o x : ℕ} (h : ReflTransGen (Leads p) o x)
    (hb : b.toPacket = p) (ho : b.offset = o) (q : Pending) :
    ∃ n, ∀ hops₁ ≥ n, ∀ hops ≥ n, ∀ rounds ≥ n,
      x ∈ ((next hops₁ >>= fun c ↦ (q.after c).resume hops rounds) b).2.reads := by
  induction h using ReflTransGen.head_induction_on generalizing b q with
  | refl =>
    refine ⟨0, fun hops₁ _ hops _ rounds _ ↦ ?_⟩
    rw [← ho]
    exact grows_rest (fun c ↦ (q.after c).grows_resume hops rounds) b (mem_reads_next hops₁ b)
  | head hlead _ ih =>
    subst hb ho
    cases hlead with
    | byte hc hp hmore =>
      have hnext : hasNext (q.after (b.data b.offset)).matching.c b.advance := by
        rw [Pending.after_c]
        exact hasNext_iff.mpr ⟨hc, hmore⟩
      obtain ⟨n, hn⟩ := ih (b := b.advance) rfl rfl (q.after (b.data b.offset))
      refine ⟨n + 1, fun hops₁ hhops₁ hops hhops rounds hrounds ↦ ?_⟩
      obtain ⟨i, rfl⟩ := Nat.exists_eq_add_of_le' ((Nat.succ_pos n).trans_le hhops₁)
      obtain ⟨j, rfl⟩ := Nat.exists_eq_add_of_le' ((Nat.succ_pos n).trans_le hrounds)
      obtain ⟨rounds', hrounds', heq⟩ := Pending.resume_next hnext hops j
      rw [run_bind (next_byte hp i), heq]
      exact hn hops (Nat.le_of_succ_le hhops) hops (Nat.le_of_succ_le hhops) rounds'
        ((Nat.le_of_succ_le_succ hrounds).trans hrounds')
    | pointer hp hmore =>
      obtain ⟨n, hn⟩ := ih (b := b.hop) b.hop_toPacket rfl q
      refine ⟨n + 1, fun hops₁ hhops₁ hops hhops rounds hrounds ↦ ?_⟩
      obtain ⟨i, rfl⟩ := Nat.exists_eq_add_of_le' ((Nat.succ_pos n).trans_le hhops₁)
      rw [bind_congr _ (next_hop hp hmore i)]
      exact hn i (Nat.le_of_succ_le_succ hhops₁) hops (Nat.le_of_succ_le hhops) rounds
        (Nat.le_of_succ_le hrounds)

/-- `match` reads every offset on the way of the name. -/
theorem matchName_reads {p : Packet} {b : Buffer} {x : ℕ} (hb : b.toPacket = p)
    (hlt : b.offset ≠ p.limit) (h : ReflTransGen (Leads p) b.offset x) (labels : List Chain) :
    Passes (matchName labels) b fun b' ↦ x ∈ b'.reads := by
  obtain ⟨n, hn⟩ := exists_reads h hb rfl ⟨0, 0, .start labels⟩
  refine ⟨n + 1, fun fuel hfuel ↦ ?_⟩
  obtain ⟨j, rfl⟩ := Nat.exists_eq_add_of_le' ((Nat.succ_pos n).trans_le hfuel)
  have hmore : hasNext (Matching.start labels).c b := by
    rw [hasNext_iff, hb]
    exact ⟨show (1 : UInt8) ≠ 0 by decide, hlt⟩
  have hj : j ≥ n := Nat.le_of_succ_le_succ hfuel
  have hread := hn (j + 1) (Nat.le_of_succ_le hfuel) (j + 1) (Nat.le_of_succ_le hfuel) j hj
  have hname : x ∈ (nameLoop (j + 1) (j + 1) (.start labels) b).2.reads := by
    rw [nameLoop_next hmore]
    exact hread
  exact grows_rest (fun m ↦ (grows_update Buffer.reset_reads).bind fun _ ↦ grows_pure m.select)
    b hname

/-! ## Reading the questions -/

section Respond

variable {p : Packet} {labels : List Chain} {malloc : Bool}

/-- The processing comes to question `k` in the buffer `b`: from there on it reads what the rest of
the loop reads. -/
def Reached (p : Packet) (labels : List Chain) (malloc : Bool) (k : ℕ) (b : Buffer)
    (s : Answering) : Prop :=
  ∃ n, ∀ fuel ≥ n, ∃ rounds, fuel ≤ rounds + k ∧
    (questionLoop (fun _ ↦ matchName labels fuel) p.questionCount rounds k s b).2.reads ⊆
      (respond labels malloc fuel p.received).2.reads

/-- The processing reads nothing outside of the packet. -/
def StaysIn (p : Packet) (labels : List Chain) (malloc : Bool) : Prop :=
  ∀ fuel, ∀ x ∈ (respond labels malloc fuel p.received).2.reads, x < p.limit

theorem answerQuery_reads {answers : ℕ → Program Buffer Match} (rounds : ℕ) (q : QuerySet)
    (b : Buffer) : (answerQuery answers rounds q b).2.reads =
      (questionLoop answers q.qdcount rounds 0 ⟨0, 0, q.status⟩ b).2.reads := by
  rcases hr : questionLoop answers q.qdcount rounds 0 ⟨0, 0, q.status⟩ b with ⟨_ | s, b'⟩
  · rw [answerQuery, run_bind_none hr]
  · rw [answerQuery, run_bind hr]
    rfl

theorem reached_zero (h : p.HasQuestions malloc) :
    Reached p labels malloc 0 p.behindHeader ⟨0, 0, "ok"⟩ := by
  refine ⟨0, fun fuel _ ↦ ⟨fuel, Nat.le_refl fuel, ?_⟩⟩
  rw [respond, getResponses_of_hasQuestions h, answerQuery_reads]
  exact List.Subset.refl _

variable {k : ℕ} {b b' : Buffer} {s s' : Answering}

theorem Reached.step (h : Reached p labels malloc k b s) (hlt : s.count < p.questionCount)
    (hq : Returns (fun fuel ↦ question (matchName labels fuel) p.questionCount s.increment)
      b s' b') : Reached p labels malloc (k + 1) b' s' := by
  obtain ⟨n, hn⟩ := h
  obtain ⟨m, hm⟩ := hq
  refine ⟨max (max n m) (k + 1), fun fuel hfuel ↦ ?_⟩
  rw [ge_iff_le, max_le_iff, max_le_iff] at hfuel
  obtain ⟨rounds, hrounds, hsub⟩ := hn fuel hfuel.1.1
  obtain ⟨j, rfl⟩ := Nat.exists_eq_succ_of_ne_zero (show rounds ≠ 0 by omega)
  rw [questionLoop, if_pos hlt, run_bind (hm fuel hfuel.1.2)] at hsub
  exact ⟨j, by omega, hsub⟩

/-- What a question reads, the processing reads. -/
theorem Reached.reads_lt (h : Reached p labels malloc k b s) (hin : StaysIn p labels malloc)
    (hlt : s.count < p.questionCount) {x : ℕ}
    (hq : Passes (fun fuel ↦ question (matchName labels fuel) p.questionCount s.increment) b
      fun b' ↦ x ∈ b'.reads) : x < p.limit := by
  obtain ⟨n, hn⟩ := h
  obtain ⟨m, hm⟩ := hq
  obtain ⟨rounds, hrounds, hsub⟩ := hn (max (max n m) (k + 1)) (by omega)
  obtain ⟨j, rfl⟩ := Nat.exists_eq_succ_of_ne_zero (show rounds ≠ 0 by omega)
  rw [questionLoop, if_pos hlt] at hsub
  refine hin _ x (hsub ?_)
  exact grows_rest (fun s ↦ grows_questionLoop (fun _ ↦ grows_matchName labels _) _ _ _ s) b
    (hm _ (by omega))

theorem Resumes.le_limit {f o r : ℕ} (hway : ∀ x, ReflTransGen (Leads p) o x → x < p.limit)
    (h : Resumes p f o r) : r ≤ p.limit := by
  have hlimit := p.limit_lt
  rw [invalidMarkOffset] at hlimit
  induction h with
  | last =>
    have := hway _ .refl
    omega
  | byte hc hp hmore _ ih => exact ih fun x hx ↦ hway x (hx.head (.byte hc hp hmore))
  | pointer _ hmore _ =>
    have := hway _ .refl
    omega

/-- Whatever its name is, a question is read with its fields. -/
theorem question_returns {m : Match} (h : Returns (matchName labels) b m b') (s : Answering) :
    ∃ type, Returns (fun fuel ↦ question (matchName labels fuel) p.questionCount s) b
      (s.respond p.questionCount m.nameIndex type) (behindFields b') := by
  obtain ⟨n, hn⟩ := h
  exact ⟨_, n, fun fuel hfuel ↦ question_of_returns (hn fuel hfuel) s⟩

theorem question_reads {m : Match} (h : Returns (matchName labels) b m b') {i x : ℕ} (hi : i < 4)
    (hx : x = b'.offset + i) (hlt : x < 65536) :
    Passes (fun fuel ↦ question (matchName labels fuel) p.questionCount s) b
      fun b' ↦ x ∈ b'.reads := by
  obtain ⟨type, n, hn⟩ := question_returns (p := p) h s
  refine ⟨n, fun fuel hfuel ↦ ?_⟩
  have hrun := hn fuel hfuel
  beta_reduce at hrun ⊢
  rw [hrun]
  refine (mem_behindFields_reads b').mpr ?_
  omega

/-- A question that is read inside of the packet lies inside. -/
theorem Reached.contained {o : ℕ} (h : Reached p labels malloc k b s)
    (hin : StaysIn p labels malloc) (hlt : s.count < p.questionCount) (hat : AtQuestion p o b) :
    Contained p o := by
  obtain ⟨hb, rfl, hmark⟩ := hat
  have hlimit := p.limit_lt
  rw [invalidMarkOffset] at hlimit
  have hmore : b.offset ≠ p.limit := by
    intro heq
    have hwalk := walk_nil (b := b) (by rw [hb]; exact heq)
    have hreset : b.offset = b.reset.offset + 0 := (Buffer.reset_offset_of_invalid hmark).symm
    have := h.reads_lt hin hlt
      (question_reads (hwalk.matchName labels) (by decide) hreset (by omega))
    exact absurd heq this.ne
  have hway : ∀ x, ReflTransGen (Leads p) b.offset x → x < p.limit := by
    intro x hx
    refine h.reads_lt hin hlt ((matchName_reads hb hmore hx labels).bind_left
      (fun fuel m ↦ ?_) fun _ _ (hsub : ReadsMore _ _) hx ↦ hsub hx)
    exact grows_readUInt16.bind fun type ↦ grows_readUInt16.bind fun cls ↦ grows_pure _
  refine ⟨hway, fun f r hf hr ↦ ?_⟩
  obtain ⟨cs, b', hwalk, hresumes⟩ :=
    exists_walk_of_final hb hmark (hway _ .refl) hf hr.reaches
  obtain rfl := hr.unique hf hresumes
  have hle := hresumes.le_limit hway
  by_contra hover
  have := h.reads_lt hin hlt (x := p.limit) (question_reads (i := p.limit - b'.reset.offset)
    (hwalk.matchName labels) (by omega) (by omega) (by omega))
  exact lt_irrefl _ this

/-- The processing comes to every question, as long as it stays inside. -/
theorem QuestionAt.reached {o : ℕ} (h : QuestionAt p k o) (hp : p.HasQuestions malloc)
    (hin : StaysIn p labels malloc) : ∃ b s, Reached p labels malloc k b s ∧ AtQuestion p o b ∧
      s.count < p.questionCount ∧ (256 ≤ p.questionCount ∨ s.count = k) := by
  induction h with
  | first hpos =>
    exact ⟨_, _, reached_zero hp, ⟨rfl, rfl, rfl⟩, hpos, .inr rfl⟩
  | @next k o f r _ hf hr hmore ih =>
    obtain ⟨b, s, hreached, hat, hlt, hcount⟩ := ih
    have hcontained := hreached.contained hin hlt hat
    obtain ⟨hb, rfl, hmark⟩ := hat
    obtain ⟨cs, b', hwalk, hresumes⟩ :=
      exists_walk_of_final hb hmark (hcontained.way _ .refl) hf hr.reaches
    obtain rfl := hr.unique hf hresumes
    obtain ⟨type, hquestion⟩ :=
      question_returns (p := p) (hwalk.matchName labels) s.increment
    have hpacket : b'.reset.toPacket = p := by
      rw [Buffer.reset_toPacket, hwalk.steps.toPacket_eq, hb]
    refine ⟨_, _, hreached.step hlt hquestion,
      ⟨hpacket, behindFields_offset _, Buffer.reset_markOffset b'⟩, ?_⟩
    rw [respond_count_of_resumes s.increment hwalk.nameIndex_eq, Answering.increment_count]
    by_cases hlarge : 256 ≤ p.questionCount
    · refine ⟨?_, .inl hlarge⟩
      split <;> omega
    · obtain ⟨hzero, hlt'⟩ := hmore.resolve_left hlarge
      rw [if_pos hzero, hcount.resolve_left hlarge]
      omega

/-- **When the processing stays inside of the packet.** It does if the packet's questions are not
read, and otherwise if and only if each of them that it comes to lies inside. -/
theorem staysIn_iff (p : Packet) (labels : List Chain) (malloc : Bool) :
    StaysIn p labels malloc ↔
      (p.HasQuestions malloc → ∀ k o, QuestionAt p k o → Contained p o) := by
  constructor
  · intro hin hp k o hquestion
    obtain ⟨b, s, hreached, hat, hlt, -⟩ := hquestion.reached hp hin
    exact hreached.contained hin hlt hat
  · intro h fuel
    by_cases hp : p.HasQuestions malloc
    · have hreads : ReadsInside p p.behindHeader := p.behindHeader_reads hp.complete
      rw [respond, getResponses_of_hasQuestions hp, answerQuery_reads]
      exact (questionLoop_keeps (h hp) ⟨rfl, rfl, rfl⟩ hreads
        (fun hpos ↦ ⟨.first hpos, .inr rfl⟩) fuel fuel).always
    · obtain ⟨q, b', hrun, hreads⟩ := getResponses_of_not_hasQuestions
        (fun _ ↦ matchName labels fuel) hp fuel
      rw [respond, hrun]
      exact hreads

/-- In a packet that ends where its only question should be, the type of this question is read
behind the packet. -/
theorem queryOf_reads_outside :
    ¬∀ (p : Packet) (labels : List Chain) (malloc : Bool), StaysIn p labels malloc := by
  intro h
  have hpos : 0 < (queryOf 0 1).questionCount := by decide
  obtain ⟨b, s, hreached, hat, hlt, -⟩ :=
    (QuestionAt.first hpos).reached (queryOf_hasQuestions 0 1) (h _ [] true)
  exact lt_irrefl 12 ((hreached.contained (h _ [] true) hlt hat).way 12 .refl)

end Respond

end DuoFirmware.Mdns
