import Mathlib.Control.Monad.Basic
import Mathlib.Data.List.Basic
import Mathlib.Data.Nat.Notation

/-!
# DNS messages

The wire format of a response: a header that counts the records, and the records, each with a name,
a type, a class, a time to live and its data behind the length of the data. Names are passed over
but not resolved. What is accepted is a message with complete records whose data is what their type
says.

Parsers take bytes from the front and decide by these bytes alone, so that a message that was cut
off is never taken for a complete one.
-/

namespace DnsMessage

/-! ## Parsers -/

abbrev Parser := StateT (List UInt8) Option

section Parser

variable {α β : Type} {p : Parser α} {s t : List UInt8}

theorem bind_eq (p : Parser α) (f : α → Parser β) (s : List UInt8) :
    (p >>= f) s = (p s).bind fun x ↦ f x.1 x.2 := rfl

theorem bind_of_some {f : α → Parser β} {a : α} (h : p s = some (a, t)) : (p >>= f) s = f a t := by
  rw [bind_eq, h]
  rfl

theorem bind_of_none {f : α → Parser β} (h : p s = none) : (p >>= f) s = none := by
  rw [bind_eq, h]
  rfl

/-- What a parser accepts it also accepts before other bytes, and it leaves these. -/
def Local (p : Parser α) : Prop :=
  ∀ s a r t, p s = some (a, r) → p (s ++ t) = some (a, r ++ t)

theorem Local.pure (a : α) : Local (Pure.pure a : Parser α) := by
  intro s b r t h
  obtain ⟨rfl, rfl⟩ := Prod.mk.inj (Option.some.inj h)
  rfl

theorem Local.bind (hp : Local p) {f : α → Parser β} (hf : ∀ a, Local (f a)) :
    Local (p >>= f) := by
  intro s b r t h
  rw [bind_eq, Option.bind_eq_some_iff] at h
  obtain ⟨⟨a, r'⟩, ha, hb⟩ := h
  rw [bind_of_some (hp s a r' t ha)]
  exact hf a r' b r t hb

theorem Local.failure : Local (failure : Parser α) := by
  intro s a r t h
  cases h

theorem Local.ite {c : Prop} [Decidable c] {q : Parser α} (hp : Local p) (hq : Local q) :
    Local (if c then p else q) := by
  split
  · exact hp
  · exact hq

/-- A parser accepts bytes, before whatever follows, if a condition holds, and refuses them
otherwise. -/
structure Decides (p : Parser α) (bs : List UInt8) (c : Prop) : Prop where
  accepts : c → ∃ a, ∀ r, p (bs ++ r) = some (a, r)
  refuses : ¬c → ∀ r, p (bs ++ r) = none

theorem Decides.pure (a : α) : Decides (Pure.pure a : Parser α) [] True :=
  ⟨fun _ ↦ ⟨a, fun _ ↦ rfl⟩, fun h ↦ absurd trivial h⟩

theorem Decides.map {bs : List UInt8} {c : Prop} (hp : Decides p bs c) (g : α → β) :
    Decides (p >>= fun a ↦ Pure.pure (g a)) bs c := by
  constructor
  · intro hc
    obtain ⟨a, ha⟩ := hp.accepts hc
    exact ⟨g a, fun r ↦ bind_of_some (ha r)⟩
  · exact fun hc r ↦ bind_of_none (hp.refuses hc r)

theorem Decides.bind {f : α → Parser β} {bs cs : List UInt8} {c d : Prop} (hp : Decides p bs c)
    (hf : c → ∀ a, Decides (f a) cs d) : Decides (p >>= f) (bs ++ cs) (c ∧ d) := by
  constructor
  · rintro ⟨hc, hd⟩
    obtain ⟨a, ha⟩ := hp.accepts hc
    obtain ⟨b, hb⟩ := (hf hc a).accepts hd
    refine ⟨b, fun r ↦ ?_⟩
    rw [List.append_assoc, bind_of_some (ha _), hb]
  · intro h r
    rw [List.append_assoc]
    by_cases hc : c
    · obtain ⟨a, ha⟩ := hp.accepts hc
      rw [bind_of_some (ha _)]
      exact (hf hc a).refuses (fun hd ↦ h ⟨hc, hd⟩) r
    · exact bind_of_none (hp.refuses hc _)

theorem Decides.iff {bs : List UInt8} {c d : Prop} (h : Decides p bs c) (hcd : c ↔ d) :
    Decides p bs d := ⟨fun hd ↦ h.accepts (hcd.mpr hd), fun hd ↦ h.refuses (mt hcd.mp hd)⟩

/-- Bytes that were cut off are accepted if nothing was missing and they had been accepted. -/
theorem Decides.take_iff {bs : List UInt8} {c : Prop} (h : Decides p bs c) (hp : Local p) (n : ℕ) :
    (∃ a, p (bs.take n) = some (a, [])) ↔ c ∧ bs.length ≤ n := by
  constructor
  · rintro ⟨a, ha⟩
    have hbs := hp _ _ _ (bs.drop n) ha
    rw [List.take_append_drop, List.nil_append, ← List.append_nil bs] at hbs
    by_cases hc : c
    · obtain ⟨b, hb⟩ := h.accepts hc
      rw [hb, List.append_nil, Option.some.injEq, Prod.mk.injEq] at hbs
      exact ⟨hc, List.drop_eq_nil_iff.mp hbs.2.symm⟩
    · rw [h.refuses hc] at hbs
      cases hbs
  · rintro ⟨hc, hle⟩
    obtain ⟨a, ha⟩ := h.accepts hc
    rw [List.take_of_length_le hle]
    exact ⟨a, List.append_nil bs ▸ ha []⟩

end Parser

/-! ## Fields -/

def take (n : ℕ) : Parser (List UInt8) := fun s ↦
  if n ≤ s.length then some (s.take n, s.drop n) else none

def number16 : Parser ℕ
  | a :: b :: s => some (a.toNat * 256 + b.toNat, s)
  | _ => none

/-- The bytes behind a name: a name ends with an empty label or with a pointer. -/
def behindName : List UInt8 → Option (List UInt8)
  | [] => none
  | c :: s =>
    if c = 0 then some s
    else if c.toNat ≤ 63 then
      if c.toNat ≤ s.length then behindName (s.drop c.toNat) else none
    else if 192 ≤ c.toNat ∧ s ≠ [] then some s.tail
    else none
termination_by s => s.length
decreasing_by
  rw [List.length_drop, List.length_cons]
  omega

def name : Parser Unit := fun s ↦ (behindName s).map ((), ·)

theorem local_take (n : ℕ) : Local (take n) := by
  intro s a r t h
  rw [take] at h ⊢
  split at h
  · rename_i hle
    obtain ⟨rfl, rfl⟩ := Prod.mk.inj (Option.some.inj h)
    rw [if_pos (by rw [List.length_append]; omega), List.take_append_of_le_length hle,
      List.drop_append_of_le_length hle]
  · cases h

theorem take_append (bs s : List UInt8) : take bs.length (bs ++ s) = some (bs, s) := by
  rw [take, if_pos (by rw [List.length_append]; omega), List.take_left, List.drop_left]

theorem local_number16 : Local number16 := by
  intro s a r t h
  match s, h with
  | x :: y :: s, h =>
    obtain ⟨rfl, rfl⟩ := Prod.mk.inj (Option.some.inj h)
    rfl

theorem behindName_append {s r : List UInt8} (t : List UInt8) (h : behindName s = some r) :
    behindName (s ++ t) = some (r ++ t) := by
  induction s using behindName.induct with
  | case1 =>
    rw [behindName] at h
    cases h
  | case2 s =>
    rw [behindName, if_pos rfl, Option.some.injEq] at h
    rw [List.cons_append, behindName, if_pos rfl, h]
  | case3 c s hzero hle hlength ih =>
    rw [behindName, if_neg hzero, if_pos hle, if_pos hlength] at h
    rw [List.cons_append, behindName, if_neg hzero, if_pos hle,
      if_pos (by rw [List.length_append]; omega), List.drop_append_of_le_length hlength]
    exact ih h
  | case4 c s hzero hle hlength =>
    rw [behindName, if_neg hzero, if_pos hle, if_neg hlength] at h
    cases h
  | case5 c s hzero hle hpointer =>
    rw [behindName, if_neg hzero, if_neg hle, if_pos hpointer, Option.some.injEq] at h
    rw [List.cons_append, behindName, if_neg hzero, if_neg hle,
      if_pos ⟨hpointer.1, List.append_ne_nil_of_left_ne_nil hpointer.2 t⟩,
      List.tail_append_of_ne_nil hpointer.2, h]
  | case6 c s hzero hle hpointer =>
    rw [behindName, if_neg hzero, if_neg hle, if_neg hpointer] at h
    cases h

theorem local_name : Local name := by
  intro s a r t h
  rw [name, Option.map_eq_some_iff] at h
  obtain ⟨r', hr', hpair⟩ := h
  obtain ⟨-, rfl⟩ := Prod.mk.inj hpair
  rw [name, behindName_append t hr']
  rfl

/-! ## Records -/

structure Record where
  type : ℕ
  cls : ℕ
  data : List UInt8

/-- Whether the data is what the type says: an address (A), a name (PTR), texts (TXT), a name behind
six bytes (SRV), or a name and a block of a bitmap (NSEC). -/
def Record.fits (r : Record) : Bool :=
  r.cls == 1 &&
    match r.type with
    | 1 => r.data.length == 4
    | 12 => behindName r.data == some []
    | 16 => true
    | 33 => 6 ≤ r.data.length && behindName (r.data.drop 6) == some []
    | 47 =>
      match behindName r.data with
      | some (0 :: n :: bits) => 1 ≤ n && n ≤ 32 && bits.length == n.toNat
      | _ => false
    | _ => false

def types : List ℕ := [1, 12, 16, 33, 47]

theorem fits_of_type {r : Record} (h : r.type ∉ types) : r.fits = false := by
  rw [Record.fits, Bool.and_eq_false_iff]
  right
  split <;> simp_all [types]

theorem fits_nsec {data bits : List UInt8} {n : UInt8}
    (h : behindName data = some (0 :: n :: bits)) (hn : 1 ≤ n ∧ n ≤ 32)
    (hbits : bits.length = n.toNat) : (Record.mk 47 1 data).fits = true := by
  have hblock : (decide (1 ≤ n) && decide (n ≤ 32) && bits.length == n.toNat) = true := by
    simp only [hn, hbits, BEq.rfl, decide_true, Bool.and_self]
  rw [Record.fits]
  dsimp only
  rw [h]
  exact hblock

def fields : Parser Record := do
  let type ← number16
  let cls ← number16
  let _ttl ← take 4
  let length ← number16
  let data ← take length
  pure ⟨type, cls, data⟩

def checked (r : Record) : Parser Record := if r.fits then pure r else failure

def record : Parser Record := do
  name
  let r ← fields
  checked r

theorem local_fields : Local fields :=
  local_number16.bind fun _ ↦ local_number16.bind fun _ ↦ (local_take 4).bind fun _ ↦
    local_number16.bind fun length ↦ (local_take length).bind fun _ ↦ .pure _

theorem local_record : Local record :=
  local_name.bind fun _ ↦ local_fields.bind fun _ ↦ .ite (.pure _) .failure

/-- The fields of a record begin with its type. -/
theorem fields_type {s t : List UInt8} {n : ℕ} (h : number16 s = some (n, t)) {r : Record}
    {rest : List UInt8} (hr : fields s = some (r, rest)) : r.type = n := by
  rw [fields, bind_of_some h] at hr
  simp only [bind_eq, Option.bind_eq_some_iff] at hr
  obtain ⟨_, -, _, -, _, -, _, -, hr⟩ := hr
  obtain ⟨rfl, -⟩ := Prod.mk.inj (Option.some.inj hr)
  rfl

/-- A record of an unknown type is not accepted. -/
theorem record_of_type {s s' t : List UInt8} (hname : behindName s = some s') {n : ℕ}
    (hn : number16 s' = some (n, t)) (h : n ∉ types) : record s = none := by
  rw [record, bind_of_some (show name s = some ((), s') by rw [name, hname]; rfl)]
  rcases hr : fields s' with _ | ⟨r, rest⟩
  · exact bind_of_none hr
  · rw [bind_of_some hr, checked, fits_of_type (by rwa [fields_type hn hr])]
    rfl

/-- A record with its data behind its name is accepted if the data is what the type says. -/
theorem record_eq {s s' rest ttl data : List UInt8} {type cls length : List UInt8} {t c n : ℕ}
    (hname : behindName s = some s')
    (hs' : s' = type ++ (cls ++ (ttl ++ (length ++ (data ++ rest)))))
    (htype : ∀ r, number16 (type ++ r) = some (t, r))
    (hcls : ∀ r, number16 (cls ++ r) = some (c, r)) (httl : ttl.length = 4)
    (hlength : ∀ r, number16 (length ++ r) = some (n, r)) (hdata : data.length = n) :
    record s = if (Record.mk t c data).fits then some (⟨t, c, data⟩, rest) else none := by
  have htake : take 4 (ttl ++ (length ++ (data ++ rest))) =
      some (ttl, length ++ (data ++ rest)) := by
    rw [← httl, take_append]
  have htake' : take n (data ++ rest) = some (data, rest) := by
    rw [← hdata, take_append]
  have hfields : fields s' = some (⟨t, c, data⟩, rest) := by
    rw [hs', fields, bind_of_some (htype _), bind_of_some (hcls _), bind_of_some htake,
      bind_of_some (hlength _), bind_of_some htake']
    rfl
  rw [record, bind_of_some (show name s = some ((), s') by rw [name, hname]; rfl),
    bind_of_some hfields, checked]
  split
  · rfl
  · rfl

/-! ## Messages -/

def records : ℕ → Parser (List Record)
  | 0 => pure []
  | n + 1 => do
    let r ← record
    let rs ← records n
    pure (r :: rs)

structure Message where
  answers : List Record
  authorities : List Record
  additionals : List Record

/-- The records behind a header that counts them. -/
def sections (answers authorities additionals : ℕ) : Parser Message := do
  let answers ← records answers
  let authorities ← records authorities
  let additionals ← records additionals
  pure ⟨answers, authorities, additionals⟩

/-- A response without questions. -/
def message : Parser Message := do
  let _id ← number16
  let _flags ← number16
  let questions ← number16
  let answers ← number16
  let authorities ← number16
  let additionals ← number16
  if questions = 0 then sections answers authorities additionals else failure

/-- The bytes are a message, with nothing behind it. -/
def WellFormed (bytes : List UInt8) : Prop := ∃ m, message bytes = some (m, [])

theorem local_records (n : ℕ) : Local (records n) := by
  induction n with
  | zero => exact .pure []
  | succ n ih => exact local_record.bind fun _ ↦ ih.bind fun _ ↦ .pure _

theorem local_message : Local message :=
  local_number16.bind fun _ ↦ local_number16.bind fun _ ↦ local_number16.bind fun _ ↦
    local_number16.bind fun _ ↦ local_number16.bind fun _ ↦ local_number16.bind fun _ ↦
      .ite ((local_records _).bind fun _ ↦ (local_records _).bind fun _ ↦
        (local_records _).bind fun _ ↦ .pure _) .failure

/-- A header. -/
theorem message_eq {s s₁ s₂ s₃ s₄ s₅ s₆ : List UInt8} {id flags a n r : ℕ}
    (h₁ : number16 s = some (id, s₁)) (h₂ : number16 s₁ = some (flags, s₂))
    (h₃ : number16 s₂ = some (0, s₃)) (h₄ : number16 s₃ = some (a, s₄))
    (h₅ : number16 s₄ = some (n, s₅)) (h₆ : number16 s₅ = some (r, s₆)) :
    message s = sections a n r s₆ := by
  rw [message, bind_of_some h₁, bind_of_some h₂, bind_of_some h₃, bind_of_some h₄,
    bind_of_some h₅, bind_of_some h₆, if_pos rfl]

/-- One more record. -/
theorem decides_records_succ {bs cs : List UInt8} {c d : Prop} {n : ℕ} (h : Decides record bs c)
    (hrest : c → Decides (records n) cs d) : Decides (records (n + 1)) (bs ++ cs) (c ∧ d) :=
  h.bind fun hc r ↦ (hrest hc).map fun rs ↦ r :: rs

/-- Answers and additional records. -/
theorem decides_sections {bs cs : List UInt8} {c d : Prop} {a r : ℕ}
    (h : Decides (records a) bs c) (hrest : c → Decides (records r) cs d) :
    Decides (sections a 0 r) (bs ++ cs) (c ∧ d) := by
  have hbind := h.bind fun hc answers ↦ (Decides.pure []).bind fun _ authorities ↦
    (hrest hc).map fun additionals ↦ Message.mk answers authorities additionals
  exact hbind.iff (and_congr_right' (and_iff_right trivial))

end DnsMessage
