import DuoFirmware.Lib.Bytes

/-!
# CoAP options

The functions of the class `CoAP` that other code of the library calls are declared, but not all of
them are defined here; those are parameters. `FollowsRfc` is what is known about `option_decode`:
the format of the header of an option.
-/

namespace DuoFirmware.Comm

open Bytes

inductive CoAPType where
  | con
  | non
  | ack
  | reset
  | error
  deriving DecidableEq, Repr

/-- The functions that are not defined. `option_decode` is given the bytes from its pointer on, and
returns the length of the option and by how much it moves the pointer, unless it reads beyond the
end of the bytes. -/
structure CoAP where
  type : UInt8 → CoAPType
  optionDecode : List UInt8 → Option (ℕ × ℕ)

/-! ## The header of an option -/

/-- The extended bytes of a half of the header byte. -/
def extended (nibble : ℕ) : ℕ := if nibble = 13 then 1 else if nibble = 14 then 2 else 0

/-- The length that the lower half of the header byte and the extended bytes mean. -/
def optionLength (nibble : ℕ) : List UInt8 → ℕ
  | x :: y :: _ =>
    if nibble = 13 then x.toNat + 13 else if nibble = 14 then x.toNat * 256 + y.toNat + 269
    else nibble
  | x :: _ => if nibble = 13 then x.toNat + 13 else nibble
  | [] => nibble

/-- The length of an option and the size of its header, given the header byte and what follows. -/
def optionHeader (b : UInt8) (r : List UInt8) : Option (ℕ × ℕ) :=
  let delta := extended (b.toNat / 16)
  let length := extended (b.toNat % 16)
  if delta + length ≤ r.length then
    some (optionLength (b.toNat % 16) (r.drop delta), 1 + delta + length)
  else none

/-- `option_decode` reads the header of an option. A length of 15 is reserved; it is reported as a
length of zero, whether or not the pointer is moved. -/
structure FollowsRfc (coap : CoAP) : Prop where
  regular : ∀ b r, b.toNat % 16 ≠ 15 → coap.optionDecode (b :: r) = optionHeader b r
  reserved : ∀ b r, b.toNat % 16 = 15 → ∃ k ≤ 1, coap.optionDecode (b :: r) = some (0, k)
  nil : coap.optionDecode [] = none

/-- An option with its length in the header byte. -/
def CoAP.standard : CoAP where
  type b := match b.toNat / 16 % 4 with
    | 0 => .con
    | 1 => .non
    | 2 => .ack
    | _ => .reset
  optionDecode
    | [] => none
    | b :: r => if b.toNat % 16 = 15 then some (0, 0) else optionHeader b r

theorem followsRfc_standard : FollowsRfc .standard where
  regular _ _ h := if_neg h
  reserved _ _ h := ⟨0, Nat.zero_le 1, if_pos h⟩
  nil := rfl

/-- The header of an option without extended delta is at most three bytes long. -/
theorem optionHeader_size_le {b : UInt8} {r : List UInt8} {n k : ℕ} (hdelta : b.toNat / 16 < 13)
    (h : optionHeader b r = some (n, k)) : 1 ≤ k ∧ k ≤ 3 := by
  have hzero : extended (b.toNat / 16) = 0 := by
    rw [extended, if_neg (by omega), if_neg (by omega)]
  have hle : extended (b.toNat % 16) ≤ 2 := by
    rw [extended]
    split
    · decide
    · split <;> decide
  rw [optionHeader, hzero] at h
  split at h
  · obtain ⟨-, rfl⟩ := Prod.mk.inj (Option.some.inj h)
    omega
  · cases h

/-! ## Encoding -/

/-- The header of an option whose number is `delta` more than that of the one before. -/
def encodeHeader (delta length : ℕ) : List UInt8 :=
  if length < 13 then [UInt8.ofNat (delta * 16 + length)]
  else if length < 269 then [UInt8.ofNat (delta * 16 + 13), UInt8.ofNat (length - 13)]
  else [UInt8.ofNat (delta * 16 + 14), UInt8.ofNat ((length - 269) / 256),
    UInt8.ofNat ((length - 269) % 256)]

/-- The largest length of an option. -/
def maxOptionLength : ℕ := 65804

theorem encodeHeader_ne_nil (delta length : ℕ) : encodeHeader delta length ≠ [] := by
  rw [encodeHeader]
  split
  · exact List.cons_ne_nil _ _
  · split <;> exact List.cons_ne_nil _ _

/-- The upper half of the first byte is the delta. -/
theorem encodeHeader_eq_cons {delta : ℕ} (h : delta < 13) (length : ℕ) : ∃ b r,
    encodeHeader delta length = b :: r ∧ b &&& 0xf0 = UInt8.ofNat (delta * 16) := by
  have hall : ∀ delta < 13, ∀ n < 15,
      UInt8.ofNat (delta * 16 + n) &&& 0xf0 = UInt8.ofNat (delta * 16) := by decide +kernel
  rw [encodeHeader]
  split
  · rename_i hlt
    exact ⟨_, [], rfl, hall delta h length (by omega)⟩
  · split
    · exact ⟨_, _, rfl, hall delta h 13 (by decide)⟩
    · exact ⟨_, _, rfl, hall delta h 14 (by decide)⟩

/-- The halves of the first byte, and the length that they mean, whatever follows. -/
theorem encodeHeader_spec {delta length : ℕ} (hdelta : delta < 13)
    (hlength : length ≤ maxOptionLength) : ∃ b r, encodeHeader delta length = b :: r ∧
      b.toNat / 16 = delta ∧ b.toNat % 16 < 15 ∧ extended (b.toNat % 16) = r.length ∧
      ∀ t, optionLength (b.toNat % 16) (r ++ t) = length := by
  have hmax : length ≤ 65804 := hlength
  have hbyte : ∀ n < 256, (UInt8.ofNat n).toNat = n := fun n hn ↦ UInt8.toNat_ofNat_of_lt' hn
  have hhalves : ∀ n < 15, (UInt8.ofNat (delta * 16 + n)).toNat / 16 = delta ∧
      (UInt8.ofNat (delta * 16 + n)).toNat % 16 = n := by
    intro n hn
    rw [hbyte _ (by omega)]
    omega
  rw [encodeHeader]
  by_cases h13 : length < 13
  · obtain ⟨hhigh, hlow⟩ := hhalves length (by omega)
    refine ⟨_, [], if_pos h13, hhigh, hlow.trans_lt (by omega), ?_, fun t ↦ ?_⟩
    · rw [hlow, extended, if_neg (by omega), if_neg (by omega)]
      rfl
    · rw [hlow, List.nil_append]
      rcases t with _ | ⟨x, _ | ⟨y, t⟩⟩
      · rfl
      · exact if_neg (by omega)
      · rw [optionLength, if_neg (by omega), if_neg (by omega)]
  · by_cases h269 : length < 269
    · obtain ⟨hhigh, hlow⟩ := hhalves 13 (by decide)
      refine ⟨_, [UInt8.ofNat (length - 13)], by rw [if_neg h13, if_pos h269], hhigh,
        hlow.trans_lt (by decide), by rw [hlow]; rfl, fun t ↦ ?_⟩
      have hread : optionLength 13 (UInt8.ofNat (length - 13) :: t) =
          (UInt8.ofNat (length - 13)).toNat + 13 := by
        cases t <;> rfl
      rw [hlow, List.singleton_append, hread, hbyte _ (by omega)]
      omega
    · obtain ⟨hhigh, hlow⟩ := hhalves 14 (by decide)
      refine ⟨_, [UInt8.ofNat ((length - 269) / 256), UInt8.ofNat ((length - 269) % 256)],
        by rw [if_neg h13, if_neg h269], hhigh, hlow.trans_lt (by decide), by rw [hlow]; rfl,
        fun t ↦ ?_⟩
      rw [hlow, List.cons_append, List.singleton_append, optionLength, if_neg (by decide),
        if_pos rfl, hbyte _ (by omega), hbyte _ (by omega)]
      omega

/-- **What is encoded is decoded**, whatever follows. -/
theorem optionDecode_encodeHeader {coap : CoAP} (hrfc : FollowsRfc coap) {delta length : ℕ}
    (hdelta : delta < 13) (hlength : length ≤ maxOptionLength) (r : List UInt8) :
    coap.optionDecode (encodeHeader delta length ++ r) =
      some (length, (encodeHeader delta length).length) := by
  obtain ⟨b, t, heq, hhigh, hlow, hext, hlen⟩ := encodeHeader_spec hdelta hlength
  have hzero : extended delta = 0 := by
    rw [extended, if_neg (by omega), if_neg (by omega)]
  rw [heq, List.cons_append, hrfc.regular _ _ hlow.ne, optionHeader, hhigh, hzero, hext,
    if_pos (by rw [List.length_append]; omega), List.drop_zero, hlen, List.length_cons]
  congr 2
  omega

end DuoFirmware.Comm
