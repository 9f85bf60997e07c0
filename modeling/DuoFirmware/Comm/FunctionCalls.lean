import Mathlib.Data.List.GetD
import DuoFirmware.Comm.Functions

/-!
# What a call of a function does

The key of a call begins at the ninth byte; its length, that of the header of the argument and that
of the argument are all taken from the message. `decode_eq_short`, `decode_eq_long` and
`decode_eq_none` say what is read. A call that is well formed arrives as it was sent. An argument
that is too long is answered with an error, but then the function is called anyway, with the
argument of an earlier call.
-/

namespace DuoFirmware.Comm.Functions

open Bytes

variable {mem : List UInt8} {s : Functions}

/-! ## The layout of a message -/

def functionKeyLength (mem : List UInt8) : ℕ := (mem.getD 7 0).toNat % 16

/-- The lower half of the header byte of the argument. -/
def queryNibble (mem : List UInt8) : ℕ := (mem.getD (8 + functionKeyLength mem) 0).toNat % 16

/-- The position of the last byte before the argument. -/
def qIndex (mem : List UInt8) : ℕ := 8 + functionKeyLength mem + extended (queryNibble mem)

def queryLength (mem : List UInt8) : ℕ :=
  optionLength (queryNibble mem) (mem.drop (8 + functionKeyLength mem + 1))

def key (mem : List UInt8) : List UInt8 := (mem.drop 8).take (functionKeyLength mem)

def arg (mem : List UInt8) : List UInt8 := (mem.drop (qIndex mem + 1)).take (queryLength mem)

theorem length_key (h : 8 + functionKeyLength mem ≤ mem.length) :
    (key mem).length = functionKeyLength mem := by
  rw [key, List.length_take, List.length_drop]
  omega

/-! ## Reading the parts -/

theorem copyKey_eq (h : 8 + functionKeyLength mem ≤ mem.length)
    (hlen : (key mem).length ≤ 13) :
    copyKey mem = some ((.padded 13 (key mem) hlen, functionKeyLength mem), mem) := by
  have hpad : (Field.zero 13).memcpy 0 (key mem) (by rwa [Nat.zero_add]) =
      .padded 13 (key mem) hlen := Field.ext_bytes (splice_replicate hlen)
  have hread : readRange 8 ((mem.getD 7 0).toNat % 16) mem = some (key mem, mem) :=
    readRange_eq h
  rw [copyKey, run_bind (read_of_lt (by omega)), run_bind hread,
    run_bind (copyTo_eq _ (by rwa [Nat.zero_add])), run_pure, ← hpad]
  rfl

/-- A key that is too long is written beyond the end of its field. -/
theorem copyKey_eq_none (h : mem.length < 8 + functionKeyLength mem ∨
    13 < functionKeyLength mem) : copyKey mem = none := by
  rw [copyKey]
  rcases lt_or_ge 7 mem.length with h8 | h8
  · rw [run_bind (read_of_lt h8)]
    change (readRange 8 (functionKeyLength mem) >>= _) mem = none
    rcases lt_or_ge mem.length (8 + functionKeyLength mem) with hshort | hfits
    · exact run_bind_none (readRange_eq_none (by omega) hshort)
    · have hlong : 13 < (key mem).length := by
        rw [length_key hfits]
        omega
      rw [run_bind (readRange_eq hfits)]
      exact run_bind_none (copyTo_eq_none _ (by rwa [Nat.zero_add]))
  · exact run_bind_none (read_eq_none h8)

theorem readQueryLength_eq {i : ℕ} (h : i + extended ((mem.getD i 0).toNat % 16) < mem.length) :
    readQueryLength i mem = some ((i + extended ((mem.getD i 0).toNat % 16),
      optionLength ((mem.getD i 0).toNat % 16) (mem.drop (i + 1))), mem) := by
  rw [readQueryLength, run_bind (read_of_lt (by omega))]
  generalize (mem.getD i 0).toNat % 16 = nibble at h ⊢
  dsimp only
  by_cases h13 : nibble = 13
  · subst h13
    have hi : i + 1 < mem.length := h
    rw [if_pos rfl, run_bind (read_of_lt hi), List.drop_eq_getElem_cons hi]
    have hx : mem.getD (i + 1) 0 = mem[i + 1] := by
      rw [List.getD_eq_getElem?_getD, List.getElem?_eq_getElem hi, Option.getD_some]
    have hlen : optionLength 13 (mem[i + 1] :: mem.drop (i + 1 + 1)) = 13 + mem[i + 1].toNat := by
      rw [Nat.add_comm 13]
      cases mem.drop (i + 1 + 1) <;> rfl
    rw [hlen, hx]
    rfl
  · rw [if_neg h13]
    by_cases h14 : nibble = 14
    · subst h14
      have hi : i + 2 < mem.length := h
      have hi' : i + 1 < mem.length := by omega
      rw [if_pos rfl, run_bind (read_of_lt hi'), run_bind (read_of_lt hi),
        List.drop_eq_getElem_cons hi', List.drop_eq_getElem_cons hi]
      have hx : mem.getD (i + 1) 0 = mem[i + 1] := by
        rw [List.getD_eq_getElem?_getD, List.getElem?_eq_getElem hi', Option.getD_some]
      have hy : mem.getD (i + 1 + 1) 0 = mem[i + 2] := by
        rw [List.getD_eq_getElem?_getD, List.getElem?_eq_getElem hi, Option.getD_some]
      rw [hx, hy, ← Nat.shiftLeft_add_eq_or_of_lt (UInt8.toNat_lt _), Nat.shiftLeft_eq]
      rfl
    · have hlen : optionLength nibble (mem.drop (i + 1)) = nibble := by
        rcases mem.drop (i + 1) with _ | ⟨x, _ | ⟨y, r⟩⟩
        · rfl
        · exact if_neg h13
        · rw [optionLength, if_neg h13, if_neg h14]
      have hext : extended nibble = 0 := by rw [extended, if_neg h13, if_neg h14]
      rw [if_neg h14, hlen, hext]
      rfl

theorem readQueryLength_eq_none {i : ℕ}
    (h : mem.length ≤ i + extended ((mem.getD i 0).toNat % 16)) :
    readQueryLength i mem = none := by
  rw [readQueryLength]
  rcases lt_or_ge i mem.length with hi | hi
  · rw [run_bind (read_of_lt hi)]
    generalize (mem.getD i 0).toNat % 16 = nibble at h ⊢
    dsimp only
    by_cases h13 : nibble = 13
    · subst h13
      rw [if_pos rfl]
      exact run_bind_none (read_eq_none h)
    · rw [if_neg h13]
      by_cases h14 : nibble = 14
      · subst h14
        rw [if_pos rfl]
        rcases lt_or_ge (i + 1) mem.length with hi' | hi'
        · rw [run_bind (read_of_lt hi')]
          exact run_bind_none (read_eq_none h)
        · exact run_bind_none (read_eq_none hi')
      · rw [extended, if_neg h13, if_neg h14] at h
        omega
  · exact run_bind_none (read_eq_none hi)

theorem copyArg_eq {i n : ℕ} (hn : n < maxFunctionArgLength) (h : i + 1 + n ≤ mem.length) :
    ∃ functionArg : Field maxFunctionArgLength,
      copyArg s i n mem = some ((true, ⟨functionArg⟩), mem) ∧
      functionArg.bytes = splice s.functionArg.bytes 0 ((mem.drop (i + 1)).take n ++ [0]) := by
  have hlen : ((mem.drop (i + 1)).take n).length = n := by
    rw [List.length_take, List.length_drop]
    omega
  have h₁ : 0 + ((mem.drop (i + 1)).take n).length ≤ maxFunctionArgLength := by
    rw [hlen]
    omega
  have h₂ : n + [(0 : UInt8)].length ≤ maxFunctionArgLength := hn
  refine ⟨(s.functionArg.memcpy 0 _ h₁).memcpy n [0] h₂, ?_, ?_⟩
  · rw [copyArg, if_pos hn, run_bind (readRange_eq h), run_bind (copyTo_eq _ h₁),
      run_bind (copyTo_eq _ h₂)]
    rfl
  · generalize (mem.drop (i + 1)).take n = bytes at hlen h₁
    subst hlen
    rw [← splice_splice (Nat.zero_le _), Nat.zero_add]
    rfl

theorem copyArg_eq_none {i n : ℕ} (hn : n < maxFunctionArgLength) (hi : i < mem.length)
    (h : mem.length < i + 1 + n) : copyArg s i n mem = none := by
  rw [copyArg, if_pos hn]
  exact run_bind_none (readRange_eq_none (by omega) h)

/-! ## Decoding -/

theorem decode_eq (hkey : functionKeyLength mem ≤ 13) (hq : qIndex mem < mem.length) :
    ∃ functionKey : Field 13, decode s mem = (do
        let (hasFunction, s) ← copyArg s (qIndex mem) (queryLength mem)
        pure (functionKey, hasFunction, s)) mem ∧
      functionKey.bytes = key mem ++ List.replicate (13 - functionKeyLength mem) 0 := by
  have hfits : 8 + functionKeyLength mem ≤ mem.length := by
    rw [qIndex] at hq
    omega
  have hlen := length_key hfits
  refine ⟨.padded 13 (key mem) (by rwa [hlen]), ?_, ?_⟩
  · rw [decode, run_bind (copyKey_eq hfits (by rwa [hlen]))]
    exact run_bind (readQueryLength_eq hq)
  · change key mem ++ List.replicate (13 - (key mem).length) 0 = _
    rw [hlen]

/-- An argument that is short enough. -/
theorem decode_eq_short (hkey : functionKeyLength mem ≤ 13)
    (hshort : queryLength mem < maxFunctionArgLength)
    (hfits : qIndex mem + 1 + queryLength mem ≤ mem.length) :
    ∃ (functionKey : Field 13) (functionArg : Field maxFunctionArgLength),
      decode s mem = some ((functionKey, true, ⟨functionArg⟩), mem) ∧
      functionKey.bytes = key mem ++ List.replicate (13 - functionKeyLength mem) 0 ∧
      functionArg.bytes = splice s.functionArg.bytes 0 (arg mem ++ [0]) := by
  obtain ⟨functionKey, hdecode, hbytes⟩ := decode_eq hkey (by omega)
  obtain ⟨functionArg, hcopy, harg⟩ := copyArg_eq hshort hfits
  refine ⟨functionKey, functionArg, ?_, hbytes, harg⟩
  rw [hdecode, run_bind hcopy]
  rfl

/-- An argument that is too long is not read. -/
theorem decode_eq_long (hkey : functionKeyLength mem ≤ 13) (hq : qIndex mem < mem.length)
    (hlong : maxFunctionArgLength ≤ queryLength mem) :
    ∃ functionKey : Field 13, decode s mem = some ((functionKey, false, s), mem) ∧
      functionKey.bytes = key mem ++ List.replicate (13 - functionKeyLength mem) 0 := by
  obtain ⟨functionKey, hdecode, hbytes⟩ := decode_eq hkey hq
  refine ⟨functionKey, ?_, hbytes⟩
  rw [hdecode, copyArg, if_neg (not_lt.mpr hlong)]
  rfl

/-- The key that is read does not depend on whether the argument is. -/
theorem decode_eq_some (hkey : functionKeyLength mem ≤ 13) (hq : qIndex mem < mem.length)
    (hfits : queryLength mem < maxFunctionArgLength →
      qIndex mem + 1 + queryLength mem ≤ mem.length) :
    ∃ functionKey result, decode s mem = some ((functionKey, result), mem) ∧
      functionKey.bytes = key mem ++ List.replicate (13 - functionKeyLength mem) 0 := by
  rcases lt_or_ge (queryLength mem) maxFunctionArgLength with hshort | hlong
  · obtain ⟨functionKey, _, hdecode, hbytes, -⟩ := decode_eq_short hkey hshort (hfits hshort)
    exact ⟨functionKey, _, hdecode, hbytes⟩
  · obtain ⟨functionKey, hdecode, hbytes⟩ := decode_eq_long hkey hq hlong
    exact ⟨functionKey, _, hdecode, hbytes⟩

/-- What is not there cannot be read. -/
theorem decode_eq_none (h : 13 < functionKeyLength mem ∨ mem.length ≤ qIndex mem ∨
    queryLength mem < maxFunctionArgLength ∧ mem.length < qIndex mem + 1 + queryLength mem) :
    decode s mem = none := by
  rcases lt_or_ge 13 (functionKeyLength mem) with hkey | hkey
  · exact run_bind_none (copyKey_eq_none (.inr hkey))
  · have hrest := h.resolve_left (not_lt.mpr hkey)
    rcases lt_or_ge (qIndex mem) mem.length with hq | hq
    · obtain ⟨hshort, hfits⟩ := hrest.resolve_left (not_le.mpr hq)
      obtain ⟨_, hdecode, -⟩ := decode_eq hkey hq
      rw [hdecode]
      exact run_bind_none (copyArg_eq_none hshort hq hfits)
    · rw [decode]
      rcases lt_or_ge mem.length (8 + functionKeyLength mem) with hend | hend
      · exact run_bind_none (copyKey_eq_none (.inl hend))
      · have hlen := length_key hend
        rw [run_bind (copyKey_eq hend (by rwa [hlen]))]
        exact run_bind_none (readQueryLength_eq_none hq)

/-- When something was decoded, everything was there. -/
theorem bounds_of_decode {r : (Field 13 × Bool × Functions) × List UInt8}
    (h : decode s mem = some r) : functionKeyLength mem ≤ 13 ∧ qIndex mem < mem.length ∧
      (queryLength mem < maxFunctionArgLength →
        qIndex mem + 1 + queryLength mem ≤ mem.length) := by
  refine ⟨?_, ?_, fun hshort ↦ ?_⟩ <;> by_contra hc
  · rw [decode_eq_none (.inl (not_le.mp hc))] at h
    cases h
  · rw [decode_eq_none (.inr (.inl (not_lt.mp hc)))] at h
    cases h
  · rw [decode_eq_none (.inr (.inr ⟨hshort, not_le.mp hc⟩))] at h
    cases h

/-! ## Bounds -/

/-- Decoding reads only the bytes of the message, writes only inside the key and the argument, and
leaves the key terminated. -/
def InBounds (s : Functions) (bytes : List UInt8) : Prop :=
  ∃ functionKey result, decode s bytes = some ((functionKey, result), bytes) ∧
    0 ∈ functionKey.bytes

/-- What the lengths in a message refer to is there, and the key has at most 12 bytes, or 13 with
a zero byte. -/
def Fits (bytes : List UInt8) : Prop :=
  qIndex bytes < bytes.length ∧
    (functionKeyLength bytes ≤ 12 ∨ functionKeyLength bytes = 13 ∧ 0 ∈ key bytes) ∧
    (queryLength bytes < maxFunctionArgLength →
      qIndex bytes + 1 + queryLength bytes ≤ bytes.length)

instance (bytes : List UInt8) : Decidable (Fits bytes) := inferInstanceAs (Decidable (_ ∧ _ ∧ _))

/-- A key is terminated exactly if it does not fill its field, or has a zero byte. -/
theorem zero_mem_padded_iff {bytes : List UInt8} {k : ℕ} (hk : k ≤ 13) :
    0 ∈ bytes ++ List.replicate (13 - k) 0 ↔ k ≤ 12 ∨ k = 13 ∧ 0 ∈ bytes := by
  rw [List.mem_append, List.mem_replicate]
  constructor
  · rintro (hmem | ⟨hne, -⟩)
    · rcases Nat.lt_or_eq_of_le hk with hlt | heq
      · exact .inl (Nat.le_of_lt_succ hlt)
      · exact .inr ⟨heq, hmem⟩
    · exact .inl (by omega)
  · rintro (hle | ⟨-, hmem⟩)
    · exact .inr ⟨by omega, rfl⟩
    · exact .inl hmem

/-- **Decoding stays in bounds** exactly if what is read fits. -/
theorem decode_inBounds_iff (s : Functions) (bytes : List UInt8) :
    InBounds s bytes ↔ Fits bytes := by
  constructor
  · rintro ⟨functionKey, result, hdecode, hzero⟩
    obtain ⟨hkey, hq, hfits⟩ := bounds_of_decode hdecode
    obtain ⟨_, _, hdecode', hbytes⟩ := decode_eq_some hkey hq hfits
    cases hdecode.symm.trans hdecode'
    exact ⟨hq, (zero_mem_padded_iff hkey).mp (hbytes ▸ hzero), hfits⟩
  · rintro ⟨hq, hterminated, hfits⟩
    have hkey : functionKeyLength bytes ≤ 13 := by omega
    obtain ⟨functionKey, result, hdecode, hbytes⟩ := decode_eq_some hkey hq hfits
    exact ⟨functionKey, result, hdecode, hbytes ▸ (zero_mem_padded_iff hkey).mpr hterminated⟩

theorem reads_decode (s : Functions) : Reads (decode s) := by
  refine .bind (.bind (.read _) fun _ ↦ .bind (.readRange _ _) fun _ ↦
    .bind (.copyTo _ _ _) fun _ ↦ .pure _) fun _ ↦ .bind ?_ fun _ ↦ .bind ?_ fun _ ↦ .pure _
  · exact .bind (.read _) fun _ ↦ .ite (.bind (.read _) fun _ ↦ .pure _)
      (.ite (.bind (.read _) fun _ ↦ .bind (.read _) fun _ ↦ .pure _) (.pure _))
  · exact .ite (.bind (.readRange _ _) fun _ ↦ .bind (.copyTo _ _ _) fun _ ↦
      .bind (.copyTo _ _ _) fun _ ↦ .pure _) (.pure _)

/-- What is in bounds does not depend on what is behind the message. -/
theorem InBounds.append {bytes : List UInt8} (h : InBounds s bytes) (rest : List UInt8) :
    decode s (bytes ++ rest) = (decode s bytes).map fun r ↦ (r.1, bytes ++ rest) := by
  obtain ⟨functionKey, result, hdecode, -⟩ := h
  rw [(reads_decode s _ _ _ hdecode).2 rest, hdecode, Option.map_some]

/-- A key of 15 bytes, and an empty argument. -/
def longKey : List UInt8 :=
  [0x41, 2, 0, 1, 7, 0xb1, 0x66, 0x0f] ++ List.replicate 15 97 ++ [0x40]

/-- The last two bytes of such a key are written behind the field. -/
theorem not_inBounds_longKey : ¬ ∀ s bytes, InBounds s bytes := by
  intro h
  obtain ⟨_, _, hdecode, -⟩ := h ⟨.zero 64⟩ longKey
  cases hdecode

/-! ## The acknowledgement -/

variable {channel : Channel} {messageId : UInt16} {m : Message}

/-- The channel has a buffer for the acknowledgement of a message. -/
def Provides (channel : Channel) (m : Message) : Prop :=
  (channel.buffer.response m .new 16).1 = .noError

instance (channel : Channel) (m : Message) : Decidable (Provides channel m) :=
  inferInstanceAs (Decidable (_ = _))

def ack (channel : Channel) (messageId : UInt16) (m : Message) : Message :=
  ((channel.buffer.response m .new 16).2.2.setId messageId).setLength 4

def ackBytes (hasFunction : Bool) : List UInt8 :=
  [0x60, if hasFunction then 0 else responseCode 4 0, 0, 0]

/-- The acknowledgement is written behind the message. -/
theorem acknowledge_eq (messageId : UInt16) (hcap : m.capacity = mem.length)
    (h : Provides channel m) (hasFunction : Bool) :
    ∃ mem', acknowledge channel messageId m hasFunction mem =
      some ((channel.send (ack channel messageId m) (ackBytes hasFunction),
        .send (ack channel messageId m) (ackBytes hasFunction)), mem') := by
  rcases hresponse : channel.buffer.response m .new 16 with ⟨error, original, response⟩
  obtain rfl : error = .noError := by rwa [Provides, hresponse] at h
  obtain ⟨hroom, hbuf, -, hbuf', -⟩ := BufferMessageChannel.response_end hresponse
  have hsmall : 16 + (channel.buffer.prefixLen + channel.buffer.suffixLen) < sizeMax := by
    have h1 := channel.max_le
    have h2 := channel.buffer.reserved_le
    rw [sizeMax]
    omega
  rw [Nat.mod_eq_of_lt hsmall, not_lt] at hroom
  -- what is left of the buffer is behind the message
  have hfits : response.buf - original.buf + (ackBytes hasFunction).length ≤ mem.length := by
    have hle := m.length_le
    change _ ≤ m.bufferLength - m.messageLength at hroom
    change m.bufferLength = _ at hcap
    change response.buf - original.buf + 4 ≤ _
    rw [hbuf', hbuf]
    change m.buf + m.messageLength + _ - m.buf + 4 ≤ _
    omega
  have hack : codedAck (response.buf - original.buf) (if hasFunction then 0 else responseCode 4 0)
      0 0 mem = some (4, splice mem (response.buf - original.buf) (ackBytes hasFunction)) := by
    rw [codedAck]
    exact run_bind (writeRange_eq hfits)
  have hread : readRange (response.buf - original.buf) 4 _ = _ := readRange_splice hfits
  refine ⟨splice mem (response.buf - original.buf) (ackBytes hasFunction), ?_⟩
  rw [acknowledge, ack, hresponse]
  dsimp only
  rw [run_bind hack, run_bind hread]
  rfl

/-- Without a buffer it is written somewhere else. -/
theorem acknowledge_eq_none (h : ¬ Provides channel m) (hasFunction : Bool) :
    acknowledge channel messageId m hasFunction mem = none := by
  rcases hresponse : channel.buffer.response m .new 16 with ⟨error, original, response⟩
  rw [Provides, hresponse] at h
  rw [acknowledge, hresponse]
  cases error <;> first | exact absurd rfl h | rfl

/-- What a call ends with, once the message is decoded. -/
def outcome (channel : Channel) (messageId : UInt16) (m : Message) (functionKey : Field 13)
    (hasFunction : Bool) (s : Functions) : ProtocolError × Functions × List Effect :=
  let error := channel.send (ack channel messageId m) (ackBytes hasFunction)
  let sent := .send (ack channel messageId m) (ackBytes hasFunction)
  if error ≠ .noError then (error, s, [sent])
  else (.noError, s, [sent, .callFunction functionKey s.functionArg])

theorem handleFunctionCall_eq (messageId : UInt16) {functionKey : Field 13} {hasFunction : Bool}
    {s' : Functions} (hcap : m.capacity = mem.length) (h : Provides channel m)
    (hdecode : decode s mem = some ((functionKey, hasFunction, s'), mem)) :
    ∃ mem', handleFunctionCall channel messageId m s mem =
      some (outcome channel messageId m functionKey hasFunction s', mem') := by
  obtain ⟨mem', hack⟩ := acknowledge_eq messageId hcap h hasFunction
  refine ⟨mem', ?_⟩
  rw [handleFunctionCall, run_bind hdecode]
  dsimp only
  rw [run_bind hack, outcome]
  dsimp only
  split <;> rfl

/-! ## Calls that are well formed -/

/-- A message that is received, with the bytes in its buffer. -/
structure Received where
  channel : Channel
  messageId : UInt16
  message : Message
  mem : List UInt8
  capacity_eq : message.capacity = mem.length

def Received.handle (r : Received) (s : Functions) :
    Option (ProtocolError × Functions × List Effect) :=
  (handleFunctionCall r.channel r.messageId r.message s r.mem).map Prod.fst

/-- A header, a token of one byte, the path "f" with the key, and the argument as a query. -/
def encode (header : Field 4) (token : UInt8) (key arg : List UInt8) : List UInt8 :=
  header.bytes ++ [token, 0xb1, 0x66] ++ encodeHeader 0 key.length ++ key ++
    encodeHeader 4 arg.length ++ arg

/-- A call of the function "led", on a channel that sends everything. -/
def led (a : List UInt8) : Received :=
  let bytes := encode ⟨[0x41, 2, 0, 1], rfl⟩ 7 [108, 101, 100] a
  { channel := ⟨true, .dtls, max_dtls_le, fun _ _ ↦ .noError⟩
    messageId := 1
    message := ⟨536870912, bytes.length + 100, bytes.length, 1, false, Nat.le_add_right _ _⟩
    mem := bytes ++ List.replicate 100 0
    capacity_eq := by
      rw [List.length_append, List.length_replicate]
      rfl }

variable (header : Field 4) (token : UInt8) {k a : List UInt8}

/-- The key of a call is where it is expected. -/
theorem key_encode (hk : k.length ≤ 12) (r : List UInt8) :
    functionKeyLength (encode header token k a ++ r) = k.length ∧
      (encode header token k a ++ r).drop (8 + k.length) = encodeHeader 4 a.length ++ a ++ r ∧
      key (encode header token k a ++ r) = k := by
  have hhead : (header.bytes ++ [token, 0xb1, 0x66]).length = 7 := by
    rw [List.length_append, header.length_eq]
    rfl
  have hbyte : (UInt8.ofNat k.length).toNat = k.length :=
    UInt8.toNat_ofNat_of_lt' (hk.trans_lt (by decide))
  have hsplit : encode header token k a ++ r = header.bytes ++ [token, 0xb1, 0x66] ++
      UInt8.ofNat k.length :: (k ++ (encodeHeader 4 a.length ++ a ++ r)) := by
    rw [encode, encodeHeader, if_pos (show k.length < 13 by omega), Nat.zero_mul, Nat.zero_add]
    simp only [List.append_assoc, List.cons_append, List.nil_append]
  generalize header.bytes ++ [token, 0xb1, 0x66] = head at hhead hsplit
  rw [hsplit]
  have hlen : functionKeyLength (head ++ UInt8.ofNat k.length ::
      (k ++ (encodeHeader 4 a.length ++ a ++ r))) = k.length := by
    rw [functionKeyLength, List.getD_append_right _ _ _ _ hhead.le, hhead, Nat.sub_self,
      List.getD_cons_zero, hbyte]
    omega
  have hdrop : (head ++ UInt8.ofNat k.length :: (k ++ (encodeHeader 4 a.length ++ a ++ r))).drop
      8 = k ++ (encodeHeader 4 a.length ++ a ++ r) := by
    rw [show 8 = head.length + 1 by omega, ← List.drop_drop, List.drop_left]
    rfl
  refine ⟨hlen, ?_, ?_⟩
  · rw [← List.drop_drop, hdrop, List.drop_left]
  · rw [key, hlen, hdrop, List.take_left]

/-- So is the argument. -/
theorem arg_encode (hk : k.length ≤ 12) (ha : a.length ≤ maxOptionLength) (r : List UInt8) :
    queryLength (encode header token k a ++ r) = a.length ∧
      qIndex (encode header token k a ++ r) + 1 + a.length ≤
        (encode header token k a ++ r).length ∧
      arg (encode header token k a ++ r) = a := by
  obtain ⟨hlen, hdrop, -⟩ := key_encode header token (a := a) hk r
  obtain ⟨b, t, heq, -, -, hext, hquery⟩ := encodeHeader_spec (show 4 < 13 by decide) ha
  generalize encode header token k a ++ r = mem at hlen hdrop
  rw [heq, List.cons_append, List.cons_append] at hdrop
  have hnibble : queryNibble mem = b.toNat % 16 := by
    have hbyte : mem[8 + k.length]? = some b := by
      rw [← List.head?_drop, hdrop, List.head?_cons]
    rw [queryNibble, hlen, List.getD_eq_getElem?_getD, hbyte, Option.getD_some]
  have htail : mem.drop (8 + k.length + 1) = t ++ a ++ r := by
    rw [← List.drop_drop, hdrop, List.drop_one, List.tail_cons]
  have hq : qIndex mem = 8 + k.length + t.length := by rw [qIndex, hlen, hnibble, hext]
  have hlength : queryLength mem = a.length := by
    rw [queryLength, hlen, hnibble, htail, List.append_assoc, hquery]
  refine ⟨hlength, ?_, ?_⟩
  · have hcount := congrArg List.length hdrop
    simp only [List.length_drop, List.length_cons, List.length_append] at hcount
    omega
  · rw [arg, hlength, hq, show 8 + k.length + t.length + 1 = 8 + k.length + 1 + t.length by omega,
      ← List.drop_drop, htail, List.append_assoc, List.drop_left, List.take_left]

/-- A string that begins a field, with a zero byte behind it. -/
def Holds {n : ℕ} (f : Field n) (str : List UInt8) : Prop := str ++ [0] <+: f.bytes

theorem holds_of_splice {n : ℕ} {f : Field n} {l : List UInt8}
    (h : f.bytes = splice l 0 (a ++ [0])) : Holds f a := by
  rw [Holds, h, splice, List.take_zero, List.nil_append]
  exact List.prefix_append _ _

/-- **A call that is well formed** runs the user function once, with its key and its argument. -/
theorem handleFunctionCall_encode (s : Functions) (rest : List UInt8)
    (hkey : k.length ≤ 12) (harg : a.length ≤ 63)
    (hcap : m.capacity = (encode header token k a ++ rest).length) (hroom : Provides channel m)
    (hsend : channel.send (ack channel messageId m) (ackBytes true) = .noError) :
    ∃ functionKey functionArg mem',
      handleFunctionCall channel messageId m s (encode header token k a ++ rest) =
        some ((.noError, ⟨functionArg⟩, [.send (ack channel messageId m) (ackBytes true),
          .callFunction functionKey functionArg]), mem') ∧
      Holds functionKey k ∧ Holds functionArg a := by
  obtain ⟨hlen, -, hk⟩ := key_encode header token (a := a) hkey rest
  obtain ⟨hquery, hfits, ha⟩ :=
    arg_encode header token hkey (harg.trans (by decide : 63 ≤ maxOptionLength)) rest
  generalize encode header token k a ++ rest = mem at hcap hlen hk hquery hfits ha ⊢
  obtain ⟨functionKey, functionArg, hdecode, hkeyBytes, hargBytes⟩ :=
    decode_eq_short (s := s) (hlen.trans_le (hkey.trans (by decide)))
      (hquery.trans_lt (Nat.lt_succ_of_le harg)) (by rwa [hquery])
  obtain ⟨mem', hhandle⟩ := handleFunctionCall_eq messageId hcap hroom hdecode
  rw [outcome, if_neg (not_not.mpr hsend)] at hhandle
  refine ⟨functionKey, functionArg, mem', hhandle, ?_, holds_of_splice (ha ▸ hargBytes)⟩
  -- at least one of the zeros behind the key remains
  obtain ⟨j, hj⟩ := Nat.exists_eq_add_of_lt (show k.length < 13 by omega)
  rw [Holds, hkeyBytes, hk, hlen, List.prefix_append_right_inj,
    show 13 - k.length = j + 1 by omega, List.replicate_succ, List.cons_prefix_cons]
  exact ⟨rfl, List.nil_prefix⟩

theorem handleFunctionCall_encode_led : ∃ functionKey functionArg mem',
    handleFunctionCall (led [111, 110]).channel 1 (led [111, 110]).message ⟨.zero 64⟩
      (led [111, 110]).mem = some ((.noError, ⟨functionArg⟩,
        [.send (ack (led [111, 110]).channel 1 (led [111, 110]).message) (ackBytes true),
          .callFunction functionKey functionArg]), mem') ∧
      Holds functionKey [108, 101, 100] ∧ Holds functionArg [111, 110] :=
  handleFunctionCall_encode ⟨[0x41, 2, 0, 1], rfl⟩ 7 ⟨.zero 64⟩ _ (by decide) (by decide)
    (led [111, 110]).capacity_eq (by decide) rfl

/-! ## Sequences of messages -/

/-- What holds of each message of a sequence when it is received. The sequence ends with a message
that is not handled without an access outside of the memory. -/
def Along (P : Functions → Received → Prop) : Functions → List Received → Prop
  | _, [] => True
  | s, r :: rs => P s r ∧ ∀ error s' effects, r.handle s = some (error, s', effects) → Along P s' rs

theorem along_congr {P Q : Functions → Received → Prop} (h : ∀ s r, P s r ↔ Q s r)
    (s : Functions) (rs : List Received) : Along P s rs ↔ Along Q s rs := by
  induction rs generalizing s with
  | nil => exact Iff.rfl
  | cons r rs ih =>
    rw [Along, Along, h]
    exact and_congr_right fun _ ↦ forall_congr' fun _ ↦ forall_congr' fun _ ↦
      forall_congr' fun _ ↦ imp_congr_right fun _ ↦ ih _

/-- There is no room for the argument. -/
def TooLong (mem : List UInt8) : Prop :=
  qIndex mem < mem.length ∧ maxFunctionArgLength ≤ queryLength mem

instance (mem : List UInt8) : Decidable (TooLong mem) := inferInstanceAs (Decidable (_ ∧ _))

/-- A call whose argument is too long is only answered, with 4.00; a function is not run with any
argument but that of its own call. -/
structure Rejects (s : Functions) (r : Received) : Prop where
  answered : TooLong r.mem → ∃ error s' response,
    r.handle s = some (error, s', [.send response [0x60, responseCode 4 0, 0, 0]])
  own : ∀ error s' effects functionKey functionArg, r.handle s = some (error, s', effects) →
    .callFunction functionKey functionArg ∈ effects → Holds functionArg (arg r.mem)

/-- A call whose argument is too long can be answered, but the answer cannot be sent. -/
def Unsent (r : Received) : Prop :=
  TooLong r.mem → functionKeyLength r.mem ≤ 13 ∧ Provides r.channel r.message ∧
    r.channel.send (ack r.channel r.messageId r.message) (ackBytes false) ≠ .noError

instance (r : Received) : Decidable (Unsent r) := inferInstanceAs (Decidable (_ → _))

namespace Received

variable {r : Received} {functionKey : Field 13} {hasFunction : Bool} {s' : Functions}

theorem handle_eq (h : Provides r.channel r.message)
    (hdecode : decode s r.mem = some ((functionKey, hasFunction, s'), r.mem)) :
    r.handle s =
      some (outcome r.channel r.messageId r.message functionKey hasFunction s') := by
  obtain ⟨mem', hhandle⟩ := handleFunctionCall_eq r.messageId r.capacity_eq h hdecode
  rw [handle, hhandle, Option.map_some]

/-- A message that is handled was decoded, and there was a buffer for the answer. -/
theorem handle_eq_some {o : ProtocolError × Functions × List Effect} (h : r.handle s = some o) :
    Provides r.channel r.message ∧ ∃ functionKey hasFunction s',
      decode s r.mem = some ((functionKey, hasFunction, s'), r.mem) ∧
        o = outcome r.channel r.messageId r.message functionKey hasFunction s' := by
  rcases hdecode : decode s r.mem with _ | ⟨⟨functionKey, hasFunction, s'⟩, mem'⟩
  · rw [handle, handleFunctionCall, run_bind_none hdecode] at h
    cases h
  · obtain ⟨hkey, hq, hfits⟩ := bounds_of_decode hdecode
    obtain ⟨_, _, hsame, -⟩ := decode_eq_some (s := s) hkey hq hfits
    cases hdecode.symm.trans hsame
    have hroom : Provides r.channel r.message := by
      by_contra hc
      rw [handle, handleFunctionCall, run_bind hdecode] at h
      dsimp only at h
      rw [run_bind_none (acknowledge_eq_none hc hasFunction)] at h
      cases h
    rw [handle_eq hroom hdecode] at h
    exact ⟨hroom, functionKey, hasFunction, s', rfl, (Option.some.inj h).symm⟩

end Received

/-- The user function is given the argument as it is then, if the answer can be sent. -/
theorem mem_outcome {functionKey functionKey' : Field 13} {hasFunction : Bool}
    {functionArg : Field maxFunctionArgLength}
    (h : .callFunction functionKey' functionArg ∈
      (outcome channel messageId m functionKey hasFunction s).2.2) :
    channel.send (ack channel messageId m) (ackBytes hasFunction) = .noError ∧
      functionArg = s.functionArg := by
  rw [outcome] at h
  split at h
  · cases List.mem_singleton.mp h
  · rename_i hsent
    rw [List.mem_cons, List.mem_singleton] at h
    obtain ⟨-, rfl⟩ := Effect.callFunction.inj (h.resolve_left fun hc ↦ by cases hc)
    exact ⟨not_not.mp hsent, rfl⟩

/-- After the answer the function is run with the argument that was kept. -/
theorem handle_stale (s : Functions) {r : Received} (hlong : TooLong r.mem)
    (hkey : functionKeyLength r.mem ≤ 13) (hroom : Provides r.channel r.message)
    (hsend : r.channel.send (ack r.channel r.messageId r.message) (ackBytes false) = .noError) :
    ∃ functionKey, r.handle s = some (.noError, s,
      [.send (ack r.channel r.messageId r.message) (ackBytes false),
        .callFunction functionKey s.functionArg]) := by
  obtain ⟨functionKey, hdecode, -⟩ := decode_eq_long (s := s) hkey hlong.1 hlong.2
  refine ⟨functionKey, ?_⟩
  rw [Received.handle_eq hroom hdecode, outcome, if_neg (not_not.mpr hsend)]

/-- A message is dealt with as it should be exactly if its answer is not sent when its argument is
too long. -/
theorem rejects_iff (s : Functions) (r : Received) : Rejects s r ↔ Unsent r := by
  constructor
  · rintro ⟨hanswered, -⟩ hlong
    obtain ⟨error, s', response, hhandle⟩ := hanswered hlong
    obtain ⟨hroom, _, _, _, hdecode, -⟩ := Received.handle_eq_some hhandle
    have hkey := (bounds_of_decode hdecode).1
    refine ⟨hkey, hroom, fun hsend ↦ ?_⟩
    obtain ⟨_, hstale⟩ := handle_stale s hlong hkey hroom hsend
    cases hhandle.symm.trans hstale
  · intro h
    constructor
    · intro hlong
      obtain ⟨hkey, hroom, hsend⟩ := h hlong
      obtain ⟨_, hdecode, -⟩ := decode_eq_long (s := s) hkey hlong.1 hlong.2
      rw [Received.handle_eq hroom hdecode, outcome, if_pos hsend]
      exact ⟨_, _, _, rfl⟩
    · intro error s' effects functionKey functionArg hhandle hmem
      obtain ⟨-, functionKey', hasFunction, s'', hdecode, ho⟩ := Received.handle_eq_some hhandle
      obtain rfl : effects = _ := congrArg (fun o ↦ o.2.2) ho
      obtain ⟨hsend, rfl⟩ := mem_outcome hmem
      obtain ⟨hkey, hq, hfits⟩ := bounds_of_decode hdecode
      rcases lt_or_ge (queryLength r.mem) maxFunctionArgLength with hshort | hlong
      · obtain ⟨_, functionArg, hdecode', -, hbytes⟩ :=
          decode_eq_short (s := s) hkey hshort (hfits hshort)
        cases hdecode.symm.trans hdecode'
        exact holds_of_splice hbytes
      · obtain ⟨_, hdecode', -⟩ := decode_eq_long (s := s) hkey hq hlong
        cases hdecode.symm.trans hdecode'
        exact absurd hsend (h ⟨hq, hlong⟩).2.2

/-- **Calls that are rejected have no effect**, in a sequence of messages, exactly if none of their
answers is sent. -/
theorem along_rejects_iff (s : Functions) (rs : List Received) :
    Along Rejects s rs ↔ Along (fun _ ↦ Unsent) s rs := along_congr rejects_iff s rs

/-- An argument of 64 bytes behind the argument "on": the function is run again. -/
theorem not_along_rejects_led :
    ¬ Along Rejects ⟨.zero 64⟩ [led [111, 110], led (List.replicate 64 97)] := by
  intro h
  have hfirst : ((led [111, 110]).handle ⟨.zero 64⟩).isSome = true := by decide +kernel
  obtain ⟨⟨_, s, _⟩, hs⟩ := Option.isSome_iff_exists.mp hfirst
  have hlong : TooLong (led (List.replicate 64 97)).mem := by decide +kernel
  obtain ⟨_, _, _, hsecond⟩ := (h.2 _ _ _ hs).1.answered hlong
  obtain ⟨_, hstale⟩ := handle_stale s hlong (by decide +kernel) (by decide +kernel) rfl
  cases hsecond.symm.trans hstale

end DuoFirmware.Comm.Functions

namespace DuoFirmware.Comm.Variables

open Bytes Functions

variable {mem : List UInt8}

/-- The key of a variable is read like that of a function, but only the first 12 bytes of it: it is
always terminated. -/
theorem decodeVariableRequest_eq (variableKey : Field 13) (h7 : 7 < mem.length)
    (h : 8 + min 12 (functionKeyLength mem) ≤ mem.length) :
    ∃ variableKey', decodeVariableRequest variableKey mem = some (variableKey', mem) ∧
      variableKey'.bytes = (key mem).take 12 ++
        List.replicate (13 - min 12 (functionKeyLength mem)) 0 := by
  have hclamp : (if 12 < (mem.getD 7 0).toNat % 16 then 12 else (mem.getD 7 0).toNat % 16) =
      min 12 (functionKeyLength mem) := by
    change (if 12 < functionKeyLength mem then 12 else functionKeyLength mem) = _
    split <;> omega
  have hkey : (mem.drop 8).take (min 12 (functionKeyLength mem)) = (key mem).take 12 := by
    rw [key, List.take_take]
  have hlen : ((key mem).take 12).length = min 12 (functionKeyLength mem) := by
    rw [← hkey, List.length_take, List.length_drop]
    omega
  rw [decodeVariableRequest, run_bind (read_of_lt h7), hclamp, run_bind (readRange_eq h), hkey]
  have hle : min 12 (functionKeyLength mem) ≤ 12 := Nat.min_le_left _ _
  generalize min 12 (functionKeyLength mem) = n at hlen hle ⊢
  generalize (key mem).take 12 = bytes at hlen ⊢
  subst hlen
  have hzeros : (List.replicate (13 - bytes.length) (0 : UInt8)).length = 13 - bytes.length :=
    List.length_replicate
  have h₁ : 0 + bytes.length ≤ 13 := by omega
  have h₂ : bytes.length + (List.replicate (13 - bytes.length) (0 : UInt8)).length ≤ 13 := by omega
  refine ⟨(variableKey.memcpy 0 bytes h₁).memcpy bytes.length _ h₂, ?_, ?_⟩
  · rw [run_bind (copyTo_eq _ h₁)]
    exact copyTo_eq _ h₂
  · have hall := splice_splice (s := bytes) (t := List.replicate (13 - bytes.length) 0)
      (Nat.zero_le variableKey.bytes.length)
    rw [Nat.zero_add] at hall
    refine hall.trans ?_
    rw [splice, List.take_zero, List.nil_append, List.drop_eq_nil_of_le, List.append_nil]
    rw [variableKey.length_eq, List.length_append, hzeros]
    omega

end DuoFirmware.Comm.Variables
