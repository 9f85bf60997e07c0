import Mathlib.Algebra.BigOperators.Group.Finset.Basic
import DuoFirmware.Comm.CoapMessageStore
import DuoFirmware.Comm.CoapOption

/-!
# The retransmission schedule

When a message is sent again, and when it has expired. The deadline of a message is on a clock of 32
bits that wraps around, and so is the comparison with it.

A function returns `none` where the behaviour is not defined: a message without data has no type,
and a shift of a signed number has to stay in its range.
-/

namespace DuoFirmware.Comm

namespace CoAPMessage

def ackTimeout : ℕ := 4000

def maxRetransmit : ℕ := 3

def maxTransmitSpan : ℕ := 45 * 1000

/-- `CoAP::type(get_data())` -/
def type (coap : CoAP) (m : CoAPMessage) : Option CoAPType := m.data.head?.map coap.type

/-- The transmit timeout for the given transmission count, and what `rand` returns. -/
def transmitTimeout (transmitCount : UInt8) (rand : ℕ) : Option UInt32 :=
  if ackTimeout <<< transmitCount.toNat < 2147483648 then
    let timeout : UInt32 := .ofNat (ackTimeout <<< transmitCount.toNat)
    some (timeout + ((timeout * .ofNat (rand % 256)) >>> 9))
  else none

/-- `prepare_retransmit`: false if the message cannot be retransmitted. -/
def prepareRetransmit (coap : CoAP) (m : CoAPMessage) (now : UInt32) (rand : ℕ) :
    Option (Bool × CoAPMessage) := do
  let coapType ← m.type coap
  if coapType = .con then do
    let timeout ← transmitTimeout m.transmitCount rand
    let m := { m with timeout := now + timeout, transmitCount := m.transmitCount + 1 }
    pure (decide (m.transmitCount.toNat ≤ maxRetransmit + 1), m)
  else
    -- other message types are not resent on timeout
    pure (false, m)

def setExpiration (m : CoAPMessage) (time : UInt32) : CoAPMessage :=
  { m with timeout := time, transmitCount := .ofNat (maxRetransmit + 2) }

/-- A message after so many calls of `prepare_retransmit`, at the times `now`, when `rand` returns
`rand`. -/
def afterCalls (coap : CoAP) (m : CoAPMessage) (now : ℕ → UInt32) (rand : ℕ → ℕ) :
    ℕ → Option CoAPMessage
  | 0 => some m
  | k + 1 => do
    let m ← afterCalls coap m now rand k
    let (_, m) ← m.prepareRetransmit coap (now k) (rand k)
    pure m

/-- The result of call `k`, counted from 0. -/
def call (coap : CoAP) (m : CoAPMessage) (now : ℕ → UInt32) (rand : ℕ → ℕ) (k : ℕ) :
    Option (Bool × CoAPMessage) := do
  let m ← afterCalls coap m now rand k
  m.prepareRetransmit coap (now k) (rand k)

/-- The time from call `k` to the deadline it sets. -/
def interval (coap : CoAP) (m : CoAPMessage) (now : ℕ → UInt32) (rand : ℕ → ℕ) (k : ℕ) : ℕ :=
  match call coap m now rand k with
  | none => 0
  | some (_, m) => (m.timeout - now k).toNat

variable {coap : CoAP} {m : CoAPMessage} {now : ℕ → UInt32} {rand : ℕ → ℕ} {c : UInt8}

/-! ## One timeout -/

theorem shift_lt {k : ℕ} (hk : k < 20) : ackTimeout <<< k < 2147483648 := by
  rw [Nat.shiftLeft_eq]
  have hpow : 2 ^ k ≤ 2 ^ 19 := Nat.pow_le_pow_right (by decide) (by omega)
  exact Nat.lt_of_le_of_lt (Nat.mul_le_mul_left ackTimeout hpow) (by decide)

theorem transmitTimeout_eq_some (hc : c.toNat < 20) (r : ℕ) :
    ∃ timeout, transmitTimeout c r = some timeout := ⟨_, if_pos (shift_lt hc)⟩

/-- No product overflows up to a count of 12. -/
theorem product_lt {k : ℕ} (hk : k < 13) (r : ℕ) :
    ackTimeout * 2 ^ k * (r % 256) < 4294967296 := by
  have hpow : 2 ^ k ≤ 2 ^ 12 := Nat.pow_le_pow_right (by decide) (by omega)
  have hmod : r % 256 ≤ 255 := Nat.le_of_lt_succ (Nat.mod_lt _ (by decide))
  calc ackTimeout * 2 ^ k * (r % 256)
      ≤ ackTimeout * 2 ^ 12 * 255 := Nat.mul_le_mul (Nat.mul_le_mul_left _ hpow) hmod
    _ < 4294967296 := by decide

/-- **The timeout** is doubled with every transmission, and up to half of it is added. -/
theorem transmitTimeout_eq (hc : c.toNat < 13) (r : ℕ) :
    ∃ timeout, transmitTimeout c r = some timeout ∧
      timeout.toNat = ackTimeout * 2 ^ c.toNat + ackTimeout * 2 ^ c.toNat * (r % 256) / 512 := by
  have hshift := shift_lt (Nat.lt_trans hc (by decide))
  have hproduct := product_lt hc r
  refine ⟨_, if_pos hshift, ?_⟩
  rw [Nat.shiftLeft_eq] at hshift ⊢
  have hbase : (UInt32.ofNat (ackTimeout * 2 ^ c.toNat)).toNat = ackTimeout * 2 ^ c.toNat :=
    UInt32.toNat_ofNat_of_lt' (Nat.lt_trans hshift (by decide))
  have hrand : (UInt32.ofNat (r % 256)).toNat = r % 256 :=
    UInt32.toNat_ofNat_of_lt' (Nat.lt_trans (Nat.mod_lt _ (by decide)) (by decide))
  rw [UInt32.toNat_add, UInt32.toNat_shiftRight, UInt32.toNat_mul, hbase, hrand,
    Nat.mod_eq_of_lt hproduct, Nat.shiftRight_eq_div_pow]
  rw [show (9 : UInt32).toNat % 32 = 9 from rfl]
  exact Nat.mod_eq_of_lt (by omega)

theorem transmitTimeout_bounds (base : ℕ) (hbase : 0 < base) (r : ℕ) :
    base ≤ base + base * (r % 256) / 512 ∧ 2 * (base + base * (r % 256) / 512) < base * 3 := by
  have hmod : r % 256 ≤ 255 := Nat.le_of_lt_succ (Nat.mod_lt _ (by decide))
  have hproduct : base * (r % 256) ≤ base * 255 := Nat.mul_le_mul_left base hmod
  omega

/-! ## Calls of `prepare_retransmit` -/

/-- One call: the count goes up, and the deadline is set. -/
theorem prepareRetransmit_con (hcon : m.type coap = some .con) (hc : m.transmitCount.toNat < 20)
    (now : UInt32) (r : ℕ) :
    ∃ timeout m', transmitTimeout m.transmitCount r = some timeout ∧
      m.prepareRetransmit coap now r = some (decide (m.transmitCount.toNat ≤ maxRetransmit), m') ∧
      m'.type coap = some .con ∧ m'.transmitCount.toNat = m.transmitCount.toNat + 1 ∧
      m'.timeout = now + timeout := by
  obtain ⟨timeout, htimeout⟩ := transmitTimeout_eq_some hc r
  have hcount : (m.transmitCount + 1).toNat = m.transmitCount.toNat + 1 := by
    rw [UInt8.toNat_add]
    exact Nat.mod_eq_of_lt (Nat.lt_trans (Nat.succ_lt_succ hc) (by decide))
  refine ⟨timeout, { m with timeout := now + timeout, transmitCount := m.transmitCount + 1 },
    htimeout, ?_, hcon, hcount, rfl⟩
  rw [prepareRetransmit, hcon]
  simp only [Option.bind_eq_bind, Option.bind_some, if_true, htimeout, hcount,
    Nat.add_le_add_iff_right]
  rfl

/-- **A sequence of calls** counts them. -/
theorem afterCalls_spec (now : ℕ → UInt32) (rand : ℕ → ℕ) (hcon : m.type coap = some .con) {k : ℕ}
    (hk : m.transmitCount.toNat + k ≤ 20) :
    ∃ m', afterCalls coap m now rand k = some m' ∧ m'.type coap = some .con ∧
      m'.transmitCount.toNat = m.transmitCount.toNat + k := by
  induction k with
  | zero => exact ⟨m, rfl, hcon, rfl⟩
  | succ k ih =>
    obtain ⟨m₁, hm₁, hcon₁, hcount₁⟩ := ih (by omega)
    obtain ⟨timeout, m₂, -, hm₂, hcon₂, hcount₂, -⟩ :=
      prepareRetransmit_con hcon₁ (by omega) (now k) (rand k)
    refine ⟨m₂, ?_, hcon₂, by omega⟩
    rw [afterCalls, hm₁]
    simp only [Option.bind_eq_bind, Option.bind_some, hm₂]
    rfl

theorem call_spec (now : ℕ → UInt32) (rand : ℕ → ℕ) (hcon : m.type coap = some .con) {k : ℕ}
    (hk : m.transmitCount.toNat + k < 20) :
    ∃ timeout m', transmitTimeout (.ofNat (m.transmitCount.toNat + k)) (rand k) = some timeout ∧
      call coap m now rand k = some (decide (m.transmitCount.toNat + k ≤ maxRetransmit), m') ∧
      m'.timeout = now k + timeout := by
  obtain ⟨m₁, hm₁, hcon₁, hcount₁⟩ := afterCalls_spec now rand hcon hk.le
  obtain ⟨timeout, m₂, htimeout, hm₂, -, -, hdeadline⟩ :=
    prepareRetransmit_con hcon₁ (by omega) (now k) (rand k)
  refine ⟨timeout, m₂, ?_, ?_, hdeadline⟩
  · rw [← hcount₁, UInt8.ofNat_toNat]
    exact htimeout
  · rw [call, hm₁]
    simp only [Option.bind_eq_bind, Option.bind_some, hm₂, hcount₁]

/-- **A call for a fresh message** sets a deadline that is farther away every time. -/
theorem call_fresh (now : ℕ → UInt32) (rand : ℕ → ℕ) (hcon : m.type coap = some .con)
    (hfresh : m.transmitCount = 0) {k : ℕ} (hk : k < 13) :
    (∃ m', call coap m now rand k = some (decide (k ≤ maxRetransmit), m')) ∧
      interval coap m now rand k =
        ackTimeout * 2 ^ k + ackTimeout * 2 ^ k * (rand k % 256) / 512 := by
  have hzero : m.transmitCount.toNat = 0 := by rw [hfresh]; rfl
  obtain ⟨timeout, m', htimeout, hcall, hdeadline⟩ := call_spec now rand hcon (k := k) (by omega)
  rw [hzero, Nat.zero_add] at htimeout hcall
  have hcount : (UInt8.ofNat k).toNat = k := UInt8.toNat_ofNat_of_lt' (Nat.lt_trans hk (by decide))
  obtain ⟨timeout', htimeout', hvalue⟩ := transmitTimeout_eq (c := .ofNat k) (by omega) (rand k)
  obtain rfl := Option.some.inj (htimeout.symm.trans htimeout')
  refine ⟨⟨m', hcall⟩, ?_⟩
  rw [interval, hcall]
  dsimp only
  rw [hdeadline, UInt32.add_comm, UInt32.add_sub_cancel, hvalue, hcount]

theorem interval_bounds (now : ℕ → UInt32) (rand : ℕ → ℕ) (hcon : m.type coap = some .con)
    (hfresh : m.transmitCount = 0) {k : ℕ} (hk : k < 13) :
    ackTimeout * 2 ^ k ≤ interval coap m now rand k ∧
      2 * interval coap m now rand k < ackTimeout * 2 ^ k * 3 := by
  rw [(call_fresh now rand hcon hfresh hk).2]
  exact transmitTimeout_bounds _ (Nat.mul_pos (by decide) (Nat.two_pow_pos k)) _

/-- A message of another type is left as it is. -/
theorem prepareRetransmit_of_ne {t : CoAPType} (htype : m.type coap = some t) (ht : t ≠ .con)
    (now : UInt32) (r : ℕ) : m.prepareRetransmit coap now r = some (false, m) := by
  rw [prepareRetransmit, htype]
  exact if_neg ht

theorem afterCalls_of_ne {t : CoAPType} (htype : m.type coap = some t) (ht : t ≠ .con) (k : ℕ) :
    afterCalls coap m now rand k = some m := by
  induction k with
  | zero => rfl
  | succ k ih =>
    rw [afterCalls, ih]
    simp only [Option.bind_eq_bind, Option.bind_some, prepareRetransmit_of_ne htype ht]
    rfl

/-- **A message that has been given an expiration** is not sent again. -/
theorem call_setExpiration (hdata : m.data ≠ []) (time : UInt32) {k : ℕ} (hk : k < 15) :
    (call coap (m.setExpiration time) now rand k).map Prod.fst = some false := by
  obtain ⟨b, rest, hb⟩ := List.exists_cons_of_ne_nil hdata
  have htype : (m.setExpiration time).type coap = some (coap.type b) := by
    rw [type, setExpiration, hb]
    rfl
  by_cases hcon : coap.type b = .con
  · rw [hcon] at htype
    have hcount : (m.setExpiration time).transmitCount.toNat = 5 := rfl
    obtain ⟨-, m', -, hcall, -⟩ := call_spec now rand htype (k := k) (by omega)
    rw [hcall, hcount, Option.map_some]
    exact congrArg some (decide_eq_false (by unfold maxRetransmit; omega))
  · rw [call, afterCalls_of_ne htype hcon]
    simp only [Option.bind_eq_bind, Option.bind_some, prepareRetransmit_of_ne htype hcon]
    rfl

/-- **The schedule** of a message that is to be confirmed: it is sent again after each of the first
`MAX_RETRANSMIT + 1` calls; its deadlines are farther and farther away, within their bounds and
without overflow; the first `MAX_RETRANSMIT` intervals fit the span, and no message is sent again
after it was given an expiration. A message is dropped after the first call that returns false, but
nothing overflows in the next eight calls either. -/
theorem retransmission_schedule (coap : CoAP) (m : CoAPMessage)
    (hcon : m.type coap = some .con) (hfresh : m.transmitCount = 0)
    (now : ℕ → UInt32) (rand : ℕ → ℕ) :
    (∀ k < 13, (call coap m now rand k).map Prod.fst = some (decide (k < maxRetransmit + 1)) ∧
        ackTimeout * 2 ^ k ≤ interval coap m now rand k ∧
        2 * interval coap m now rand k < ackTimeout * 2 ^ k * 3 ∧
        ackTimeout * 2 ^ k * (rand k % 256) < 4294967296) ∧
      ∑ k ∈ Finset.range maxRetransmit, interval coap m now rand k ≤ maxTransmitSpan ∧
      ∀ (m' : CoAPMessage) (time : UInt32), m'.data ≠ [] → ∀ k < 15,
        (call coap (m'.setExpiration time) now rand k).map Prod.fst = some false := by
  have hbounds : ∀ k < 13, ackTimeout * 2 ^ k ≤ interval coap m now rand k ∧
      2 * interval coap m now rand k < ackTimeout * 2 ^ k * 3 :=
    fun k hk ↦ interval_bounds now rand hcon hfresh hk
  refine ⟨fun k hk ↦ ?_, ?_, fun m' time hdata k hk ↦ call_setExpiration hdata time hk⟩
  · obtain ⟨⟨m', hcall⟩, -⟩ := call_fresh now rand hcon hfresh hk
    rw [hcall, Option.map_some]
    exact ⟨congrArg some (decide_eq_decide.mpr Nat.lt_succ_iff.symm), (hbounds k hk).1,
      (hbounds k hk).2, product_lt hk _⟩
  · have hsum : ∑ k ∈ Finset.range maxRetransmit, interval coap m now rand k =
        interval coap m now rand 0 + interval coap m now rand 1 + interval coap m now rand 2 := by
      simp [maxRetransmit, Finset.sum_range_succ]
    have h₀ := (hbounds 0 (by decide)).2
    have h₁ := (hbounds 1 (by decide)).2
    have h₂ := (hbounds 2 (by decide)).2
    rw [hsum]
    simp only [ackTimeout, maxTransmitSpan] at *
    omega

/-- A message of type 0 that is made at a time just before the clock wraps around. -/
theorem retransmission_schedule_create :
    interval .standard (create 7 [0x40, 0x02] 0) (fun k ↦ .ofNat (4294967000 + 4000 * k))
      (fun _ ↦ 255) 0 = 5992 ∧
    ∑ k ∈ Finset.range maxRetransmit, interval .standard (create 7 [0x40, 0x02] 0)
      (fun k ↦ .ofNat (4294967000 + 4000 * k)) (fun _ ↦ 255) k ≤ maxTransmitSpan :=
  ⟨by decide +kernel, (retransmission_schedule .standard _ rfl rfl _ _).2.1⟩

end CoAPMessage

/-! ## Deadlines -/

def timeHasPassed (now tick : UInt32) : Bool :=
  if now ≥ tick then now - tick ≤ 0x7FFFFFFF else tick - now ≥ 0x80000000

theorem toNat_sub_eq (a b : UInt32) :
    (a - b).toNat = (4294967296 - b.toNat + a.toNat) % 4294967296 := UInt32.toNat_sub a b

/-- **A deadline has passed** when it is less than half the clock behind. At exactly half the clock
the two branches differ. -/
theorem timeHasPassed_iff (now tick : UInt32) :
    timeHasPassed now tick = true ↔
      (now - tick).toNat < 2147483648 ∨ now - tick = 0x80000000 ∧ now < tick := by
  have hhalf : now - tick = 0x80000000 ↔ (now - tick).toNat = 2147483648 := by
    rw [← UInt32.toNat_inj]
    rfl
  have hnow := now.toNat_lt
  have htick := tick.toNat_lt
  have hdistance := toNat_sub_eq now tick
  rw [hhalf, UInt32.lt_iff_toNat_lt, timeHasPassed]
  split
  · rename_i hle
    rw [ge_iff_le, UInt32.le_iff_toNat_le] at hle
    rw [decide_eq_true_iff, UInt32.le_iff_toNat_le,
      show (0x7FFFFFFF : UInt32).toNat = 2147483647 from rfl]
    omega
  · rename_i hle
    rw [ge_iff_le, UInt32.le_iff_toNat_le] at hle
    have hback := toNat_sub_eq tick now
    rw [decide_eq_true_iff, ge_iff_le, UInt32.le_iff_toNat_le,
      show (0x80000000 : UInt32).toNat = 2147483648 from rfl]
    omega

theorem add_sub_add (now tick k : UInt32) : now + k - (tick + k) = now - tick := by
  have hnow : now + k = now - tick + (tick + k) := by
    rw [← UInt32.add_assoc, UInt32.sub_add_cancel]
  rw [hnow, UInt32.add_sub_cancel]

/-- **The clock can be shifted** unless the deadline is exactly half of it away and one of the two
values wraps around. -/
theorem timeHasPassed_add_iff (now tick k : UInt32) :
    timeHasPassed (now + k) (tick + k) = timeHasPassed now tick ↔
      (now - tick ≠ 0x80000000 ∨ (now + k < tick + k ↔ now < tick)) := by
  have hshift : now + k - (tick + k) = now - tick := add_sub_add now tick k
  rw [Bool.eq_iff_iff, timeHasPassed_iff, timeHasPassed_iff, hshift]
  by_cases hhalf : now - tick = 0x80000000
  · have hlt : ¬ (0x80000000 : UInt32).toNat < 2147483648 := by decide
    simp only [hhalf, hlt, false_or, true_and, ne_eq, not_true_eq_false]
  · simp only [hhalf, false_and, or_false, ne_eq, not_false_eq_true, true_or]

/-- A deadline half the clock ahead has passed, until the deadline does not wrap around. -/
theorem not_timeHasPassed_add :
    ¬ ∀ now tick k : UInt32,
      timeHasPassed (now + k) (tick + k) = timeHasPassed now tick := by
  intro h
  exact absurd (h 0x7FFFFFFF 0xFFFFFFFF 1) (by decide +kernel)

/-- A deadline that is set at some time passes after its timeout, wherever the clock is. -/
theorem timeHasPassed_after (now : UInt32) {timeout elapsed : UInt32}
    (htimeout : timeout.toNat < 2147483648) (helapsed : elapsed.toNat < 2147483648) :
    timeHasPassed (now + elapsed) (now + timeout) = decide (timeout ≤ elapsed) := by
  have hdistance : now + elapsed - (now + timeout) = elapsed - timeout := by
    rw [UInt32.add_comm now, UInt32.add_comm now, add_sub_add]
  have hhalf : elapsed - timeout ≠ 0x80000000 := by
    intro hc
    have hnat := congrArg UInt32.toNat hc
    rw [toNat_sub_eq, show (0x80000000 : UInt32).toNat = 2147483648 from rfl] at hnat
    omega
  rw [Bool.eq_iff_iff, timeHasPassed_iff, hdistance, decide_eq_true_iff, UInt32.le_iff_toNat_le,
    toNat_sub_eq]
  simp only [hhalf, false_and, or_false]
  omega

/-- After a call, the message is due when its interval has elapsed. -/
theorem CoAPMessage.call_due {coap : CoAP} {m m' : CoAPMessage} {now : ℕ → UInt32} {rand : ℕ → ℕ}
    (hcon : m.type coap = some .con) (hfresh : m.transmitCount = 0) {k : ℕ} (hk : k < 13)
    {resend : Bool} (hcall : call coap m now rand k = some (resend, m')) {elapsed : UInt32}
    (helapsed : elapsed.toNat < 2147483648) :
    timeHasPassed (now k + elapsed) m'.timeout =
      decide (interval coap m now rand k ≤ elapsed.toNat) := by
  have hinterval : interval coap m now rand k = (m'.timeout - now k).toNat := by
    rw [interval, hcall]
  have hdeadline : m'.timeout = now k + (m'.timeout - now k) := by
    rw [UInt32.add_comm, UInt32.sub_add_cancel]
  have hpow : 2 ^ k ≤ 2 ^ 12 := Nat.pow_le_pow_right (by decide) (by omega)
  have hbound := (interval_bounds now rand hcon hfresh hk).2
  have hlt : (m'.timeout - now k).toNat < 2147483648 := by
    rw [← hinterval]
    unfold ackTimeout at hbound
    omega
  rw [hdeadline, timeHasPassed_after (now k) hlt helapsed, hinterval]
  rfl

end DuoFirmware.Comm
