import DuoFirmware.Mdns.Label

/-!
# The way of the reader through a packet

What `Label::Reader` reads next depends on the packet alone, not on the labels it is compared with:
behind a byte the next one, and behind a pointer the byte it points to. The reader stops at a zero
byte and directly behind the packet. So whether `Label::Matcher::match` returns is a question about
this relation between offsets, which a pointer can lead in circles.

Inside of a pointer the reader waits for a byte that never comes if the packet ends there.
-/

namespace DuoFirmware.Mdns

open Divergence Program Relation

/-! ## The way -/

/-- Behind an offset the reader reads another one. -/
inductive Leads (p : Packet) : ℕ → ℕ → Prop
  | byte {o : ℕ} (hc : p.data o ≠ 0) (hp : ¬isPointer (p.data o))
      (hmore : (o + 1) % 65536 ≠ p.limit) : Leads p o ((o + 1) % 65536)
  | pointer {o : ℕ} (hp : isPointer (p.data o)) (hmore : (o + 1) % 65536 ≠ p.limit) :
      Leads p o (pointerOffset (p.data o) (p.data ((o + 1) % 65536)))

/-- The reader stops behind the byte at this offset. -/
def Final (p : Packet) (o : ℕ) : Prop :=
  ¬isPointer (p.data o) ∧ (p.data o = 0 ∨ (o + 1) % 65536 = p.limit)

theorem not_isPointer_zero : ¬isPointer 0 := by decide

theorem Leads.unique {p : Packet} : Relator.RightUnique (Leads p) := by
  intro o x y hx hy
  cases hx with
  | byte _ hp _ =>
    cases hy with
    | byte _ _ _ => rfl
    | pointer hp' _ => exact absurd hp' hp
  | pointer hp _ =>
    cases hy with
    | byte _ hp' _ => exact absurd hp hp'
    | pointer _ _ => rfl

theorem Final.not_leads {p : Packet} {f o : ℕ} (hf : Final p f) : ¬Leads p f o := by
  intro h
  cases h with
  | byte hc _ hmore => exact hf.2.elim hc hmore
  | pointer hp _ => exact hf.1 hp

/-- The reader stops at one place only. -/
theorem Final.unique {p : Packet} {o f g : ℕ} (hf : Final p f) (hg : Final p g)
    (hof : ReflTransGen (Leads p) o f) (hog : ReflTransGen (Leads p) o g) : f = g := by
  have hstop : ∀ {x y : ℕ}, Final p x → ReflTransGen (Leads p) x y → x = y := by
    intro x y hx hxy
    obtain rfl | ⟨z, hxz, -⟩ := hxy.cases_head
    · rfl
    · exact absurd hxz hx.not_leads
  obtain h | h := hof.total_of_right_unique Leads.unique hog
  · exact hstop hf h
  · exact (hstop hg h).symm

/-- On the way from `o` to `f`, the name at `o` itself ends before `r`: with its first pointer, or
with the last byte when there is none. -/
inductive Resumes (p : Packet) (f : ℕ) : ℕ → ℕ → Prop
  | last : Resumes p f f ((f + 1) % 65536)
  | byte {o r : ℕ} (hc : p.data o ≠ 0) (hp : ¬isPointer (p.data o))
      (hmore : (o + 1) % 65536 ≠ p.limit) (hrest : Resumes p f ((o + 1) % 65536) r) :
      Resumes p f o r
  | pointer {o : ℕ} (hp : isPointer (p.data o)) (hmore : (o + 1) % 65536 ≠ p.limit)
      (hrest : ReflTransGen (Leads p) (pointerOffset (p.data o) (p.data ((o + 1) % 65536))) f) :
      Resumes p f o ((o + 2) % 65536)

theorem Resumes.reaches {p : Packet} {f o r : ℕ} (h : Resumes p f o r) :
    ReflTransGen (Leads p) o f := by
  induction h with
  | last => exact .refl
  | byte hc hp hmore _ ih => exact ih.head (.byte hc hp hmore)
  | pointer hp hmore hrest => exact hrest.head (.pointer hp hmore)

theorem Resumes.unique {p : Packet} {f o r s : ℕ} (hf : Final p f) (hr : Resumes p f o r)
    (hs : Resumes p f o s) : r = s := by
  induction hr with
  | last =>
    cases hs with
    | last => rfl
    | byte hc hp hmore _ => exact absurd (.byte hc hp hmore) hf.not_leads
    | pointer hp hmore _ => exact absurd (.pointer hp hmore) hf.not_leads
  | byte hc hp hmore _ ih =>
    cases hs with
    | last => exact absurd (.byte hc hp hmore) hf.not_leads
    | byte _ _ _ hrest => exact ih hrest
    | pointer hp' _ _ => exact absurd hp' hp
  | pointer hp hmore _ =>
    cases hs with
    | last => exact absurd (.pointer hp hmore) hf.not_leads
    | byte _ hp' _ _ => exact absurd hp hp'
    | pointer _ _ _ => rfl

/-! ## One byte -/

namespace Buffer

/-- A pointer was read and followed. -/
def hop (b : Buffer) : Buffer :=
  b.advance.advance.mark.setOffset (pointerOffset (b.data b.offset) (b.data b.advance.offset))

variable (b : Buffer)

@[simp] theorem advance_toPacket : b.advance.toPacket = b.toPacket := rfl

@[simp] theorem advance_offset : b.advance.offset = (b.offset + 1) % 65536 := rfl

@[simp] theorem advance_markOffset : b.advance.markOffset = b.markOffset := rfl

@[simp] theorem mark_toPacket : b.mark.toPacket = b.toPacket := by
  rw [mark]
  split <;> rfl

@[simp] theorem reset_toPacket : b.reset.toPacket = b.toPacket := by
  rw [reset]
  split <;> rfl

@[simp] theorem hop_toPacket : b.hop.toPacket = b.toPacket := mark_toPacket _

@[simp] theorem hop_offset :
    b.hop.offset = pointerOffset (b.data b.offset) (b.data ((b.offset + 1) % 65536)) := rfl

end Buffer

/-- `Label::Reader::next` returns a byte. -/
inductive Next : Buffer → UInt8 → Buffer → Prop
  | byte {b : Buffer} (hp : ¬isPointer (b.data b.offset)) : Next b (b.data b.offset) b.advance
  | hop {b b' : Buffer} {c : UInt8} (hp : isPointer (b.data b.offset))
      (hmore : (b.offset + 1) % 65536 ≠ b.limit) (hrest : Next b.hop c b') : Next b c b'

theorem next_byte {b : Buffer} (hp : ¬isPointer (b.data b.offset)) (hops : ℕ) :
    next (hops + 1) b = (some (b.data b.offset), b.advance) := by
  rw [next, run_bind (show readUInt8 b = _ from rfl), followPointers, if_neg hp, run_pure]

theorem next_hop {b : Buffer} (hp : isPointer (b.data b.offset))
    (hmore : (b.offset + 1) % 65536 ≠ b.limit) (hops : ℕ) :
    next (hops + 1) b = next hops b.hop := by
  have hlook : look (fun b : Buffer ↦ decide (0 < b.available)) b.advance =
      (some true, b.advance) := by
    rw [look, decide_eq_true (Buffer.available_pos.mpr hmore)]
  rw [next, run_bind (show readUInt8 b = _ from rfl), followPointers, if_pos hp, run_bind hlook,
    if_pos rfl]
  rfl

/-- Where the packet ends inside of a pointer, `next` does not return. -/
theorem next_stuck {b : Buffer} (hp : isPointer (b.data b.offset))
    (hmore : (b.offset + 1) % 65536 = b.limit) (hops : ℕ) : next hops b = (none, b.advance) := by
  have hlook : look (fun b : Buffer ↦ decide (0 < b.available)) b.advance =
      (some false, b.advance) := by
    rw [look, decide_eq_false fun h ↦ Buffer.available_pos.mp h hmore]
  rw [next, run_bind (show readUInt8 b = _ from rfl)]
  induction hops with
  | zero => rfl
  | succ hops ih =>
    rw [followPointers, if_pos hp, run_bind hlook]
    exact ih

theorem Next.returns {b b' : Buffer} {c : UInt8} (h : Next b c b') : Returns next b c b' := by
  induction h with
  | byte hp => exact .step (Q := fun _ ↦ pure _) (next_byte hp) (.of_forall fun _ ↦ rfl)
  | hop hp hmore _ ih => exact .step (next_hop hp hmore) ih

theorem Next.of_run {hops : ℕ} {b b' : Buffer} {c : UInt8} (h : next hops b = (some c, b')) :
    Next b c b' := by
  induction hops generalizing b with
  | zero =>
    rw [next, run_bind (show readUInt8 b = _ from rfl)] at h
    cases h
  | succ hops ih =>
    by_cases hp : isPointer (b.data b.offset)
    · by_cases hmore : (b.offset + 1) % 65536 = b.limit
      · rw [next_stuck hp hmore] at h
        cases h
      · rw [next_hop hp hmore] at h
        exact .hop hp hmore (ih h)
    · rw [next_byte hp] at h
      cases h
      exact .byte hp

theorem Next.toPacket_eq {b b' : Buffer} {c : UInt8} (h : Next b c b') :
    b'.toPacket = b.toPacket := by
  induction h with
  | byte _ => rfl
  | hop _ _ _ ih => rw [ih, Buffer.hop_toPacket]

/-! ## All bytes of a name -/

/-- The reader reads some bytes one after the other, from its last byte `c` and the buffer `b`
on. -/
inductive Steps : UInt8 → Buffer → List UInt8 → UInt8 → Buffer → Prop
  | nil {c : UInt8} {b : Buffer} : Steps c b [] c b
  | cons {c d e : UInt8} {b b₁ b' : Buffer} {cs : List UInt8} (hmore : hasNext c b)
      (hnext : Next b d b₁) (hrest : Steps d b₁ cs e b') : Steps c b (d :: cs) e b'

/-- The reader reads as far as it comes. -/
structure Walk (c : UInt8) (b : Buffer) (cs : List UInt8) (e : UInt8) (b' : Buffer) : Prop where
  steps : Steps c b cs e b'
  stops : ¬hasNext e b'

theorem Steps.append {c d e : UInt8} {b b₁ b' : Buffer} {cs ds : List UInt8}
    (h : Steps c b cs d b₁) (h' : Steps d b₁ ds e b') : Steps c b (cs ++ ds) e b' := by
  induction h with
  | nil => exact h'
  | cons hmore hnext _ ih => exact .cons hmore hnext (ih h')

theorem Steps.toPacket_eq {c e : UInt8} {b b' : Buffer} {cs : List UInt8}
    (h : Steps c b cs e b') : b'.toPacket = b.toPacket := by
  induction h with
  | nil => rfl
  | cons _ hnext _ ih => rw [ih, hnext.toPacket_eq]

namespace Matching

/-- The bytes of a label. -/
def feedLabel (cs : List UInt8) (m : Matching) : Matching :=
  cs.foldl (fun m c ↦ (m.feed c).append c) m

@[simp] theorem feedLabel_nil (m : Matching) : feedLabel [] m = m := rfl

theorem feedLabel_cons (c : UInt8) (cs : List UInt8) (m : Matching) :
    feedLabel (c :: cs) m = feedLabel cs ((m.feed c).append c) := rfl

/-- The size of a label was read, and its bytes are among those that follow. -/
def feedName : List UInt8 → Matching → Matching
  | [], m => m
  | size :: cs, m =>
    let m := feedLabel (cs.take size.toNat) (m.feed size)
    feedName (cs.drop size.toNat) (if 0 < size then m.append dot else m)
termination_by cs => cs.length
decreasing_by
  rw [List.length_drop, List.length_cons]
  omega

end Matching

theorem look_hasNext {c : UInt8} {b : Buffer} (h : hasNext c b) :
    look (fun b ↦ decide (hasNext c b)) b = (some true, b) := by
  rw [look, decide_eq_true h]

theorem look_not_hasNext {c : UInt8} {b : Buffer} (h : ¬hasNext c b) :
    look (fun b ↦ decide (hasNext c b)) b = (some false, b) := by
  rw [look, decide_eq_false h]

theorem labelLoop_stop {m : Matching} {b : Buffer} (h : ¬hasNext m.c b) (hops n : ℕ) :
    labelLoop hops n m b = (some m, b) := by
  cases n with
  | zero => rfl
  | succ n => rw [labelLoop, run_bind (look_not_hasNext h), if_neg Bool.false_ne_true, run_pure]

theorem labelLoop_next {m : Matching} {b : Buffer} (h : hasNext m.c b) (hops n : ℕ) :
    labelLoop hops (n + 1) m b =
      (next hops >>= fun c ↦ labelLoop hops n ((m.feed c).append c)) b := by
  rw [labelLoop, run_bind (look_hasNext h), if_pos rfl]

theorem nameLoop_stop {m : Matching} {b : Buffer} (h : ¬hasNext m.c b) (hops rounds : ℕ) :
    nameLoop hops (rounds + 1) m b = (some m, b) := by
  rw [nameLoop, run_bind (look_not_hasNext h), if_neg Bool.false_ne_true, run_pure]

theorem nameLoop_next {m : Matching} {b : Buffer} (h : hasNext m.c b) (hops rounds : ℕ) :
    nameLoop hops (rounds + 1) m b = (next hops >>= fun size ↦ labelLoop hops size.toNat
      (m.feed size) >>= fun m ↦ nameLoop hops rounds (if 0 < size then m.append dot else m)) b := by
  rw [nameLoop, run_bind (look_hasNext h), if_pos rfl]

@[simp] theorem append_c (m : Matching) (d : UInt8) : (m.append d).c = m.c := rfl

@[simp] theorem feed_c (m : Matching) (d : UInt8) : (m.feed d).c = d := rfl

theorem ite_append_c (size : UInt8) (m : Matching) :
    (if 0 < size then m.append dot else m).c = m.c := by
  split <;> rfl

/-- One label of a walk. -/
theorem Walk.labelLoop {n : ℕ} {m : Matching} {b b' : Buffer} {cs : List UInt8} {e : UInt8}
    (h : Walk m.c b cs e b') : ∃ b₁, Walk (m.feedLabel (cs.take n)).c b₁ (cs.drop n) e b' ∧
      Returns (fun k ↦ labelLoop k n m) b (m.feedLabel (cs.take n)) b₁ := by
  induction n generalizing m b cs with
  | zero => exact ⟨b, h, .of_forall fun _ ↦ rfl⟩
  | succ n ih =>
    obtain ⟨hsteps, hstops⟩ := h
    cases hsteps with
    | nil => exact ⟨_, ⟨.nil, hstops⟩, .of_forall fun k ↦ labelLoop_stop hstops k _⟩
    | cons hmore hnext hrest =>
      obtain ⟨b₁, hwalk, hreturns⟩ := ih (m := (m.feed _).append _) ⟨hrest, hstops⟩
      exact ⟨b₁, hwalk, .of_eq (fun k ↦ labelLoop_next hmore k n) (hnext.returns.bind hreturns)⟩

/-- The name loop over a walk. -/
theorem Walk.nameLoop {m : Matching} {b b' : Buffer} {cs : List UInt8} {e : UInt8}
    (h : Walk m.c b cs e b') : ∃ n, ∀ hops ≥ n, ∀ rounds ≥ n,
      nameLoop hops rounds m b = (some (m.feedName cs), b') := by
  induction hl : cs.length using Nat.strongRecOn generalizing m b cs with
  | ind l ih =>
    obtain ⟨hsteps, hstops⟩ := h
    cases hsteps with
    | nil =>
      refine ⟨1, fun hops _ rounds hrounds ↦ ?_⟩
      obtain ⟨j, rfl⟩ := Nat.exists_eq_add_of_le' hrounds
      rw [Matching.feedName, nameLoop_stop hstops]
    | @cons _ size _ _ _ _ cs hmore hnext hrest =>
      obtain ⟨b₂, hwalk, hlabel⟩ :=
        Walk.labelLoop (n := size.toNat) (m := m.feed size) ⟨hrest, hstops⟩
      rw [← ite_append_c size] at hwalk
      have hlt : (cs.drop size.toNat).length < l := by
        rw [← hl, List.length_drop, List.length_cons]
        omega
      obtain ⟨n, hn⟩ := ih _ hlt hwalk rfl
      obtain ⟨p, hp⟩ := hnext.returns
      obtain ⟨q, hq⟩ := hlabel
      refine ⟨max (n + 1) (max p q), fun hops hhops rounds hrounds ↦ ?_⟩
      rw [ge_iff_le, max_le_iff, max_le_iff] at hhops hrounds
      obtain ⟨j, rfl⟩ := Nat.exists_eq_add_of_le' ((Nat.succ_pos n).trans_le hrounds.1)
      rw [Matching.feedName, nameLoop_next hmore, run_bind (hp hops hhops.2.1),
        run_bind (hq hops hhops.2.2)]
      exact hn hops (Nat.le_of_succ_le hhops.1) j (Nat.le_of_succ_le_succ hrounds.1)

theorem labelLoop_steps {hops n : ℕ} {m m' : Matching} {b b' : Buffer}
    (h : labelLoop hops n m b = (some m', b')) : ∃ cs, Steps m.c b cs m'.c b' ∧
      m' = m.feedLabel cs ∧ cs.length ≤ n ∧ (cs.length < n → ¬hasNext m'.c b') := by
  induction n generalizing m b with
  | zero =>
    cases h
    exact ⟨[], .nil, rfl, le_rfl, fun h ↦ absurd h (Nat.not_lt_zero _)⟩
  | succ n ih =>
    by_cases hmore : hasNext m.c b
    · rw [labelLoop_next hmore] at h
      obtain ⟨c, b₁, hnext, hrest⟩ := bind_eq_some h
      obtain ⟨cs, hsteps, heq, hle, hstop⟩ := ih hrest
      exact ⟨c :: cs, .cons hmore (.of_run hnext) hsteps, heq, Nat.succ_le_succ hle,
        fun hlt ↦ hstop (Nat.lt_of_succ_lt_succ hlt)⟩
    · rw [labelLoop_stop hmore] at h
      cases h
      exact ⟨[], .nil, rfl, Nat.zero_le _, fun _ ↦ hmore⟩

theorem Walk.eq_nil {c e : UInt8} {b b' : Buffer} {cs : List UInt8} (h : Walk c b cs e b')
    (hstop : ¬hasNext c b) : cs = [] := by
  obtain ⟨hsteps, -⟩ := h
  cases hsteps with
  | nil => rfl
  | cons hmore _ _ => exact absurd hmore hstop

/-- When the name loop returns, it has walked. -/
theorem nameLoop_walk {hops rounds : ℕ} {m m' : Matching} {b b' : Buffer}
    (h : nameLoop hops rounds m b = (some m', b')) :
    ∃ cs, Walk m.c b cs m'.c b' ∧ m' = m.feedName cs := by
  induction rounds generalizing m b with
  | zero => cases h
  | succ rounds ih =>
    by_cases hmore : hasNext m.c b
    · rw [nameLoop_next hmore] at h
      obtain ⟨size, b₁, hnext, hrest⟩ := bind_eq_some h
      obtain ⟨m₁, b₂, hlabel, hname⟩ := bind_eq_some hrest
      obtain ⟨cs, hsteps, heq, hle, hstop⟩ := labelLoop_steps hlabel
      obtain ⟨ds, hwalk, heq'⟩ := ih hname
      rw [ite_append_c] at hwalk
      refine ⟨size :: (cs ++ ds), ⟨.cons hmore (.of_run hnext) (hsteps.append hwalk.steps),
        hwalk.stops⟩, ?_⟩
      -- a label that is not complete is the last one
      have hsplit : (cs ++ ds).take size.toNat = cs ∧ (cs ++ ds).drop size.toNat = ds := by
        rcases hle.lt_or_eq with hlt | hlength
        · rw [hwalk.eq_nil (hstop hlt), List.append_nil]
          exact ⟨List.take_of_length_le hle, List.drop_eq_nil_of_le hle⟩
        · rw [← hlength]
          exact ⟨List.take_left, List.drop_left⟩
      rw [Matching.feedName, hsplit.1, hsplit.2, ← heq]
      exact heq'
    · rw [nameLoop_stop hmore] at h
      cases h
      refine ⟨[], ⟨.nil, hmore⟩, ?_⟩
      rw [Matching.feedName]

theorem Next.unique {b b₁ b₂ : Buffer} {c d : UInt8} (h : Next b c b₁) (h' : Next b d b₂) :
    c = d ∧ b₁ = b₂ := h.returns.unique h'.returns

theorem Walk.unique {c d e : UInt8} {b b₁ b₂ : Buffer} {cs ds : List UInt8}
    (h : Walk c b cs d b₁) (h' : Walk c b ds e b₂) : cs = ds ∧ d = e ∧ b₁ = b₂ := by
  obtain ⟨hsteps, hstops⟩ := h
  induction hsteps generalizing ds with
  | nil =>
    obtain ⟨hsteps', -⟩ := h'
    cases hsteps' with
    | nil => exact ⟨rfl, rfl, rfl⟩
    | cons hmore _ _ => exact absurd hmore hstops
  | cons hmore hnext _ ih =>
    obtain ⟨hsteps', hstops'⟩ := h'
    cases hsteps' with
    | nil => exact absurd hmore hstops'
    | cons _ hnext' hrest' =>
      obtain ⟨rfl, rfl⟩ := hnext.unique hnext'
      obtain ⟨rfl, hrest⟩ := ih ⟨hrest', hstops'⟩ hstops
      exact ⟨rfl, hrest⟩

/-- The reader's last byte after a walk. -/
theorem Walk.feedName_c {m : Matching} {b b' : Buffer} {cs : List UInt8} {e : UInt8}
    (h : Walk m.c b cs e b') : (m.feedName cs).c = e := by
  obtain ⟨n, hn⟩ := h.nameLoop
  obtain ⟨ds, hwalk, -⟩ := nameLoop_walk (hn n le_rfl n le_rfl)
  exact (hwalk.unique h).2.1

/-- What `match` returns after a walk. -/
theorem Walk.matchName {b b' : Buffer} {cs : List UInt8} {e : UInt8} (h : Walk 1 b cs e b')
    (labels : List Chain) :
    Returns (matchName labels) b ((Matching.start labels).feedName cs).select b'.reset := by
  obtain ⟨n, hn⟩ := Walk.nameLoop (m := Matching.start labels) h
  refine ⟨n, fun k hk ↦ ?_⟩
  rw [Mdns.matchName, run_bind (hn k hk k hk)]
  rfl

theorem matchName_walk {labels : List Chain} {fuel : ℕ} {b b' : Buffer} {r : Match}
    (h : matchName labels fuel b = (some r, b')) : ∃ cs e b₁, Walk 1 b cs e b₁ ∧
      r = ((Matching.start labels).feedName cs).select ∧ b' = b₁.reset := by
  obtain ⟨m, b₁, hname, hrest⟩ := bind_eq_some h
  obtain ⟨cs, hwalk, rfl⟩ := nameLoop_walk hname
  cases hrest
  exact ⟨cs, _, b₁, hwalk, rfl, rfl⟩

/-! ## The walk and the way -/

/-- The byte that is returned lies on the way. -/
theorem Next.reaches {p : Packet} {b b' : Buffer} {c : UInt8} (hb : b.toPacket = p)
    (h : Next b c b') : ∃ f, ReflTransGen (Leads p) b.offset f ∧ ¬isPointer (p.data f) ∧
      c = p.data f ∧ b'.offset = (f + 1) % 65536 := by
  induction h with
  | byte hp =>
    subst hb
    exact ⟨_, .refl, hp, rfl, rfl⟩
  | hop hp hmore _ ih =>
    obtain ⟨f, hreach, hrest⟩ := ih ((Buffer.hop_toPacket _).trans hb)
    subst hb
    exact ⟨f, hreach.head (.pointer hp hmore), hrest⟩

theorem hasNext_iff {c : UInt8} {b : Buffer} : hasNext c b ↔ c ≠ 0 ∧ b.offset ≠ b.limit :=
  and_congr_right fun _ ↦ Buffer.available_pos

/-- A walk ends where the reader stops. -/
theorem Walk.reaches {p : Packet} {c e : UInt8} {b b₁ b' : Buffer} {cs : List UInt8}
    (hb : b.toPacket = p) (hnext : Next b c b₁) (h : Walk c b₁ cs e b') :
    ∃ f, ReflTransGen (Leads p) b.offset f ∧ Final p f ∧ e = p.data f ∧
      b'.offset = (f + 1) % 65536 := by
  obtain ⟨hsteps, hstops⟩ := h
  induction hsteps generalizing b with
  | @nil c b₁ =>
    obtain ⟨f, hreach, hp, rfl, hoffset⟩ := hnext.reaches hb
    have hpacket : b₁.toPacket = p := hnext.toPacket_eq.trans hb
    refine ⟨f, hreach, ⟨hp, ?_⟩, rfl, hoffset⟩
    by_contra hgoes
    rw [not_or] at hgoes
    exact hstops (hasNext_iff.mpr ⟨hgoes.1, by rw [hoffset, hpacket]; exact hgoes.2⟩)
  | @cons c d _ b₁ _ _ _ hmore hnext' _ ih =>
    obtain ⟨f, hreach, hp, rfl, hoffset⟩ := hnext.reaches hb
    have hpacket : b₁.toPacket = p := hnext.toPacket_eq.trans hb
    obtain ⟨hc, hlimit⟩ := hasNext_iff.mp hmore
    rw [hoffset, hpacket] at hlimit
    obtain ⟨g, hreach', hrest⟩ := ih hpacket hnext' hstops
    rw [hoffset] at hreach'
    exact ⟨g, hreach.trans (hreach'.head (.byte hc hp hlimit)), hrest⟩

/-- Where the way stops, there is a walk. -/
theorem exists_walk {p : Packet} {b : Buffer} {f : ℕ} (hb : b.toPacket = p) (hf : Final p f)
    (h : ReflTransGen (Leads p) b.offset f) :
    ∃ c b₁ cs b', Next b c b₁ ∧ Walk c b₁ cs (p.data f) b' := by
  generalize ho : b.offset = o at h
  induction h using ReflTransGen.head_induction_on generalizing b with
  | refl =>
    subst hb ho
    refine ⟨_, _, [], _, .byte hf.1, .nil, ?_⟩
    rw [hasNext_iff]
    rintro ⟨hc, hmore⟩
    exact hf.2.elim hc hmore
  | head hlead _ ih =>
    subst hb ho
    cases hlead with
    | byte hc hp hmore =>
      obtain ⟨c, b₁, cs, b', hnext, hsteps, hstops⟩ := ih (b := b.advance) rfl rfl
      exact ⟨_, _, _, b', .byte hp,
        .cons (hasNext_iff.mpr ⟨hc, hmore⟩) hnext hsteps, hstops⟩
    | pointer hp hmore =>
      obtain ⟨c, b₁, cs, b', hnext, hwalk⟩ := ih (b := b.hop) b.hop_toPacket rfl
      exact ⟨c, b₁, cs, b', .hop hp hmore hnext, hwalk⟩

/-! ## Termination -/

/-- An empty rest of the packet is a walk. -/
theorem walk_nil {b : Buffer} (h : b.offset = b.limit) : Walk 1 b [] 1 b :=
  ⟨.nil, fun hmore ↦ (hasNext_iff.mp hmore).2 h⟩

theorem walk_cons {b b₁ b' : Buffer} {c e : UInt8} {cs : List UInt8} (h : b.offset ≠ b.limit)
    (hnext : Next b c b₁) (hwalk : Walk c b₁ cs e b') : Walk 1 b (c :: cs) e b' :=
  ⟨.cons (hasNext_iff.mpr ⟨by decide, h⟩) hnext hwalk.steps, hwalk.stops⟩

/-- A walk over a packet that goes on has a first byte. -/
theorem Walk.exists_next {b b' : Buffer} {e : UInt8} {cs : List UInt8} (h : Walk 1 b cs e b')
    (hmore : b.offset ≠ b.limit) :
    ∃ c b₁ ds, Next b c b₁ ∧ Walk c b₁ ds e b' ∧ cs = c :: ds := by
  obtain ⟨hsteps, hstops⟩ := h
  cases hsteps with
  | nil => exact absurd (hasNext_iff.mpr ⟨by decide, hmore⟩) hstops
  | cons _ hnext hrest => exact ⟨_, _, _, hnext, ⟨hrest, hstops⟩, rfl⟩

theorem exists_final_of_terminates {labels : List Chain} {b : Buffer}
    (h : Terminates (matchName labels) b) (hmore : b.offset ≠ b.limit) :
    ∃ f, ReflTransGen (Leads b.toPacket) b.offset f ∧ Final b.toPacket f := by
  obtain ⟨r, b', n, hn⟩ := h
  obtain ⟨cs, e, b₁, hwalk, -, -⟩ := matchName_walk (hn n le_rfl)
  obtain ⟨c, b₂, ds, hnext, hrest, -⟩ := hwalk.exists_next hmore
  obtain ⟨f, hreach, hf, -, -⟩ := Walk.reaches rfl hnext hrest
  exact ⟨f, hreach, hf⟩

/-- **When `match` returns.** The packet has ended, or the way from the name comes to an end. -/
theorem matchName_terminates_iff (labels : List Chain) (b : Buffer) :
    Terminates (matchName labels) b ↔ b.offset = b.limit ∨
      ∃ f, ReflTransGen (Leads b.toPacket) b.offset f ∧ Final b.toPacket f := by
  constructor
  · intro h
    by_cases hmore : b.offset = b.limit
    · exact .inl hmore
    · exact .inr (exists_final_of_terminates h hmore)
  · intro h
    by_cases hmore : b.offset = b.limit
    · exact ⟨_, _, (walk_nil hmore).matchName labels⟩
    · obtain ⟨f, hreach, hf⟩ := h.resolve_left hmore
      obtain ⟨c, b₁, cs, b', hnext, hwalk⟩ := exists_walk rfl hf hreach
      exact ⟨_, _, (walk_cons hmore hnext hwalk).matchName labels⟩

/-- A packet that consists of a pointer to itself. -/
def selfPointer : Packet := .ofBytes [labelPointer, 0] (by decide)

theorem selfPointer_stays {f : ℕ} (h : ReflTransGen (Leads selfPointer) 0 f) : f = 0 := by
  induction h with
  | refl => rfl
  | tail _ hlead ih =>
    subst ih
    cases hlead with
    | byte _ hp _ => exact absurd (by decide) hp
    | pointer _ _ => rfl

/-- On a pointer to itself the reader never comes to an end. -/
theorem selfPointer_hangs :
    ¬∀ (p : Packet) (labels : List Chain) (o : ℕ), o < p.limit →
      Terminates (matchName labels) (p.received.setOffset o) := by
  intro h
  obtain ⟨f, hreach, hf⟩ :=
    exists_final_of_terminates (h selfPointer [] 0 (by decide)) (by decide)
  obtain rfl := selfPointer_stays hreach
  exact hf.1 (by decide)

/-! ## Where the buffer goes on -/

section Mark

variable {b b' : Buffer} {c e : UInt8} {cs : List UInt8}

theorem Buffer.mark_of_valid (h : b.markOffset ≠ invalidMarkOffset) : b.mark = b := if_neg h

theorem Next.markOffset_eq (h : Next b c b') (hmark : b.markOffset ≠ invalidMarkOffset) :
    b'.markOffset = b.markOffset := by
  induction h with
  | byte _ => rfl
  | @hop b _ _ _ _ _ ih =>
    have hhop : b.hop.markOffset = b.markOffset := by
      rw [Buffer.hop, Buffer.mark_of_valid (b := b.advance.advance) hmark]
      rfl
    rw [← hhop] at hmark ⊢
    exact ih hmark

theorem Steps.markOffset_eq (h : Steps c b cs e b') (hmark : b.markOffset ≠ invalidMarkOffset) :
    b'.markOffset = b.markOffset := by
  induction h with
  | nil => rfl
  | cons _ hnext _ ih =>
    have heq := hnext.markOffset_eq hmark
    rw [← heq] at hmark ⊢
    exact ih hmark

/-- The first pointer of a name marks where the name ends. -/
theorem Buffer.hop_markOffset (hmark : b.markOffset = invalidMarkOffset) :
    b.hop.markOffset = (b.offset + 2) % 65536 := by
  have h : b.advance.advance.mark.markOffset = b.advance.advance.offset := by
    rw [Buffer.mark, if_pos (show b.advance.advance.markOffset = _ from hmark)]
  rw [Buffer.hop, Buffer.setOffset, h, advance_offset, advance_offset, Nat.mod_add_mod]

theorem Buffer.reset_offset_of_valid (h : b.markOffset ≠ invalidMarkOffset) :
    b.reset.offset = b.markOffset := by rw [reset, if_pos h]

theorem Buffer.reset_offset_of_invalid (h : b.markOffset = invalidMarkOffset) :
    b.reset.offset = b.offset := by rw [reset, if_neg (not_not.mpr h)]

@[simp] theorem Buffer.reset_markOffset (b : Buffer) :
    b.reset.markOffset = invalidMarkOffset := by
  rw [reset]
  split
  · rfl
  · exact not_not.mp ‹_›

/-- The first byte of a name is a pointer. -/
theorem Walk.resumes_of_hop {p : Packet} {b₁ : Buffer} (hb : b.toPacket = p)
    (hmark : b.markOffset = invalidMarkOffset) (hlt : b.offset < p.limit)
    (hp : isPointer (b.data b.offset)) (hmore : (b.offset + 1) % 65536 ≠ b.limit)
    (hnext : Next b.hop c b₁) (h : Walk c b₁ cs e b') :
    ∃ f, Final p f ∧ e = p.data f ∧ Resumes p f b.offset b'.reset.offset := by
  have hlimit := p.limit_lt
  have hhop := Buffer.hop_markOffset hmark
  have hvalid : b.hop.markOffset ≠ invalidMarkOffset := by
    rw [hb] at hmore
    rw [hhop, invalidMarkOffset]
    rw [invalidMarkOffset] at hlimit
    omega
  have hnextmark := hnext.markOffset_eq hvalid
  have hend := h.steps.markOffset_eq (by rwa [hnextmark])
  obtain ⟨f, hreach, hf, he, -⟩ := Walk.reaches ((Buffer.hop_toPacket b).trans hb) hnext h
  refine ⟨f, hf, he, ?_⟩
  rw [Buffer.reset_offset_of_valid (by rwa [hend, hnextmark]), hend, hnextmark, hhop]
  subst hb
  exact .pointer hp hmore hreach

/-- After a walk the buffer goes on behind the name. -/
theorem Walk.resumes {p : Packet} {b₁ : Buffer} (hb : b.toPacket = p)
    (hmark : b.markOffset = invalidMarkOffset) (hlt : b.offset < p.limit) (hnext : Next b c b₁)
    (h : Walk c b₁ cs e b') :
    ∃ f, Final p f ∧ e = p.data f ∧ Resumes p f b.offset b'.reset.offset := by
  obtain ⟨hsteps, hstops⟩ := h
  induction hsteps generalizing b with
  | nil =>
    cases hnext with
    | byte hp =>
      subst hb
      refine ⟨b.offset, ⟨hp, ?_⟩, rfl, ?_⟩
      · rw [hasNext_iff, not_and_or, not_not, not_not] at hstops
        exact hstops
      · rw [Buffer.reset_offset_of_invalid (b := b.advance) hmark]
        exact .last
    | hop hp hmore hrest => exact Walk.resumes_of_hop hb hmark hlt hp hmore hrest ⟨.nil, hstops⟩
  | cons hmore hnext' hrest ih =>
    cases hnext with
    | byte hp =>
      obtain ⟨hc, hlimit⟩ := hasNext_iff.mp hmore
      have hbehind : b.advance.offset < p.limit := by
        rw [Buffer.advance_toPacket, hb, Buffer.advance_offset] at hlimit
        rw [Buffer.advance_offset]
        omega
      obtain ⟨f, hf, he, hresumes⟩ := ih (b := b.advance) hb hmark hbehind hnext' hstops
      subst hb
      exact ⟨f, hf, he, .byte hc hp hlimit hresumes⟩
    | hop hp hmore' hrest' =>
      exact Walk.resumes_of_hop hb hmark hlt hp hmore' hrest'
        ⟨.cons hmore hnext' hrest, hstops⟩

end Mark

end DuoFirmware.Mdns
