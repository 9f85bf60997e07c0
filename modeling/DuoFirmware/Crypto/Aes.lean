import DuoFirmware.Lib.Bytes

/-!
# AES

The class `AES`: the key schedule, the encryption and the decryption of a block, and those of
blocks in memory that are chained. A block is processed in local arrays; the functions on blocks
in memory copy and combine one byte after the other, so that the places that they are given may
overlap.
-/

namespace DuoFirmware.Crypto

open Bytes

abbrev Block := Vector UInt8 16

/-! ## Tables -/

set_option maxRecDepth 2000 in
def sFwd : Vector UInt8 256 :=
  #v[0x63, 0x7c, 0x77, 0x7b, 0xf2, 0x6b, 0x6f, 0xc5, 0x30, 0x01, 0x67, 0x2b, 0xfe, 0xd7, 0xab, 0x76,
    0xca, 0x82, 0xc9, 0x7d, 0xfa, 0x59, 0x47, 0xf0, 0xad, 0xd4, 0xa2, 0xaf, 0x9c, 0xa4, 0x72, 0xc0,
    0xb7, 0xfd, 0x93, 0x26, 0x36, 0x3f, 0xf7, 0xcc, 0x34, 0xa5, 0xe5, 0xf1, 0x71, 0xd8, 0x31, 0x15,
    0x04, 0xc7, 0x23, 0xc3, 0x18, 0x96, 0x05, 0x9a, 0x07, 0x12, 0x80, 0xe2, 0xeb, 0x27, 0xb2, 0x75,
    0x09, 0x83, 0x2c, 0x1a, 0x1b, 0x6e, 0x5a, 0xa0, 0x52, 0x3b, 0xd6, 0xb3, 0x29, 0xe3, 0x2f, 0x84,
    0x53, 0xd1, 0x00, 0xed, 0x20, 0xfc, 0xb1, 0x5b, 0x6a, 0xcb, 0xbe, 0x39, 0x4a, 0x4c, 0x58, 0xcf,
    0xd0, 0xef, 0xaa, 0xfb, 0x43, 0x4d, 0x33, 0x85, 0x45, 0xf9, 0x02, 0x7f, 0x50, 0x3c, 0x9f, 0xa8,
    0x51, 0xa3, 0x40, 0x8f, 0x92, 0x9d, 0x38, 0xf5, 0xbc, 0xb6, 0xda, 0x21, 0x10, 0xff, 0xf3, 0xd2,
    0xcd, 0x0c, 0x13, 0xec, 0x5f, 0x97, 0x44, 0x17, 0xc4, 0xa7, 0x7e, 0x3d, 0x64, 0x5d, 0x19, 0x73,
    0x60, 0x81, 0x4f, 0xdc, 0x22, 0x2a, 0x90, 0x88, 0x46, 0xee, 0xb8, 0x14, 0xde, 0x5e, 0x0b, 0xdb,
    0xe0, 0x32, 0x3a, 0x0a, 0x49, 0x06, 0x24, 0x5c, 0xc2, 0xd3, 0xac, 0x62, 0x91, 0x95, 0xe4, 0x79,
    0xe7, 0xc8, 0x37, 0x6d, 0x8d, 0xd5, 0x4e, 0xa9, 0x6c, 0x56, 0xf4, 0xea, 0x65, 0x7a, 0xae, 0x08,
    0xba, 0x78, 0x25, 0x2e, 0x1c, 0xa6, 0xb4, 0xc6, 0xe8, 0xdd, 0x74, 0x1f, 0x4b, 0xbd, 0x8b, 0x8a,
    0x70, 0x3e, 0xb5, 0x66, 0x48, 0x03, 0xf6, 0x0e, 0x61, 0x35, 0x57, 0xb9, 0x86, 0xc1, 0x1d, 0x9e,
    0xe1, 0xf8, 0x98, 0x11, 0x69, 0xd9, 0x8e, 0x94, 0x9b, 0x1e, 0x87, 0xe9, 0xce, 0x55, 0x28, 0xdf,
    0x8c, 0xa1, 0x89, 0x0d, 0xbf, 0xe6, 0x42, 0x68, 0x41, 0x99, 0x2d, 0x0f, 0xb0, 0x54, 0xbb, 0x16]

set_option maxRecDepth 2000 in
def sInv : Vector UInt8 256 :=
  #v[0x52, 0x09, 0x6a, 0xd5, 0x30, 0x36, 0xa5, 0x38, 0xbf, 0x40, 0xa3, 0x9e, 0x81, 0xf3, 0xd7, 0xfb,
    0x7c, 0xe3, 0x39, 0x82, 0x9b, 0x2f, 0xff, 0x87, 0x34, 0x8e, 0x43, 0x44, 0xc4, 0xde, 0xe9, 0xcb,
    0x54, 0x7b, 0x94, 0x32, 0xa6, 0xc2, 0x23, 0x3d, 0xee, 0x4c, 0x95, 0x0b, 0x42, 0xfa, 0xc3, 0x4e,
    0x08, 0x2e, 0xa1, 0x66, 0x28, 0xd9, 0x24, 0xb2, 0x76, 0x5b, 0xa2, 0x49, 0x6d, 0x8b, 0xd1, 0x25,
    0x72, 0xf8, 0xf6, 0x64, 0x86, 0x68, 0x98, 0x16, 0xd4, 0xa4, 0x5c, 0xcc, 0x5d, 0x65, 0xb6, 0x92,
    0x6c, 0x70, 0x48, 0x50, 0xfd, 0xed, 0xb9, 0xda, 0x5e, 0x15, 0x46, 0x57, 0xa7, 0x8d, 0x9d, 0x84,
    0x90, 0xd8, 0xab, 0x00, 0x8c, 0xbc, 0xd3, 0x0a, 0xf7, 0xe4, 0x58, 0x05, 0xb8, 0xb3, 0x45, 0x06,
    0xd0, 0x2c, 0x1e, 0x8f, 0xca, 0x3f, 0x0f, 0x02, 0xc1, 0xaf, 0xbd, 0x03, 0x01, 0x13, 0x8a, 0x6b,
    0x3a, 0x91, 0x11, 0x41, 0x4f, 0x67, 0xdc, 0xea, 0x97, 0xf2, 0xcf, 0xce, 0xf0, 0xb4, 0xe6, 0x73,
    0x96, 0xac, 0x74, 0x22, 0xe7, 0xad, 0x35, 0x85, 0xe2, 0xf9, 0x37, 0xe8, 0x1c, 0x75, 0xdf, 0x6e,
    0x47, 0xf1, 0x1a, 0x71, 0x1d, 0x29, 0xc5, 0x89, 0x6f, 0xb7, 0x62, 0x0e, 0xaa, 0x18, 0xbe, 0x1b,
    0xfc, 0x56, 0x3e, 0x4b, 0xc6, 0xd2, 0x79, 0x20, 0x9a, 0xdb, 0xc0, 0xfe, 0x78, 0xcd, 0x5a, 0xf4,
    0x1f, 0xdd, 0xa8, 0x33, 0x88, 0x07, 0xc7, 0x31, 0xb1, 0x12, 0x10, 0x59, 0x27, 0x80, 0xec, 0x5f,
    0x60, 0x51, 0x7f, 0xa9, 0x19, 0xb5, 0x4a, 0x0d, 0x2d, 0xe5, 0x7a, 0x9f, 0x93, 0xc9, 0x9c, 0xef,
    0xa0, 0xe0, 0x3b, 0x4d, 0xae, 0x2a, 0xf5, 0xb0, 0xc8, 0xeb, 0xbb, 0x3c, 0x83, 0x53, 0x99, 0x61,
    0x17, 0x2b, 0x04, 0x7e, 0xba, 0x77, 0xd6, 0x26, 0xe1, 0x69, 0x14, 0x63, 0x55, 0x21, 0x0c, 0x7d]

def sBox (x : UInt8) : UInt8 := sFwd.get ⟨x.toNat, x.toNat_lt⟩

def isBox (x : UInt8) : UInt8 := sInv.get ⟨x.toNat, x.toNat_lt⟩

/-- Times two: an `int` that is stored in a byte. -/
def f2 (x : UInt8) : UInt8 :=
  .ofNat (if x &&& 0x80 ≠ 0 then x.toNat <<< 1 ^^^ 0x011B else x.toNat <<< 1)

/-! ## Blocks -/

def copyAndKey (s k : Block) : Block := .zipWith (· ^^^ ·) s k

def shiftSubRows (st : Block) : Block :=
  let st := st.set 0 (sBox st[0])
  let st := st.set 4 (sBox st[4])
  let st := st.set 8 (sBox st[8])
  let st := st.set 12 (sBox st[12])
  let tt := st[1]
  let st := st.set 1 (sBox st[5])
  let st := st.set 5 (sBox st[9])
  let st := st.set 9 (sBox st[13])
  let st := st.set 13 (sBox tt)
  let tt := st[2]
  let st := st.set 2 (sBox st[10])
  let st := st.set 10 (sBox tt)
  let tt := st[6]
  let st := st.set 6 (sBox st[14])
  let st := st.set 14 (sBox tt)
  let tt := st[15]
  let st := st.set 15 (sBox st[11])
  let st := st.set 11 (sBox st[7])
  let st := st.set 7 (sBox st[3])
  st.set 3 (sBox tt)

def invShiftSubRows (st : Block) : Block :=
  let st := st.set 0 (isBox st[0])
  let st := st.set 4 (isBox st[4])
  let st := st.set 8 (isBox st[8])
  let st := st.set 12 (isBox st[12])
  let tt := st[13]
  let st := st.set 13 (isBox st[9])
  let st := st.set 9 (isBox st[5])
  let st := st.set 5 (isBox st[1])
  let st := st.set 1 (isBox tt)
  let tt := st[2]
  let st := st.set 2 (isBox st[10])
  let st := st.set 10 (isBox tt)
  let tt := st[6]
  let st := st.set 6 (isBox st[14])
  let st := st.set 14 (isBox tt)
  let tt := st[3]
  let st := st.set 3 (isBox st[7])
  let st := st.set 7 (isBox st[11])
  let st := st.set 11 (isBox st[15])
  st.set 15 (isBox tt)

/-- `dt [i] = b`. -/
def put (dt : Block) (i : Fin 16) (b : UInt8) : Block := dt.set i b

/-- What `mix_sub_columns` keeps from column to column: the result and the indices. -/
structure Mixing where
  dt : Block
  j : Fin 16
  k : Fin 16
  l : Fin 16

/-- The body of the loop of `mix_sub_columns`, for the column that starts at `i`. -/
def mixSubColumn (st : Block) (m : Mixing) (i : Fin 16) : Mixing :=
  let a1 := sBox (st.get i)
  let b1 := sBox (st.get m.j)
  let c1 := sBox (st.get m.k)
  let d1 := sBox (st.get m.l)
  let a2 := f2 a1
  let b2 := f2 b1
  let c2 := f2 c1
  let d2 := f2 d1
  let dt := put m.dt i (a2 ^^^ b2 ^^^ b1 ^^^ c1 ^^^ d1)
  let dt := put dt (i + 1) (a1 ^^^ b2 ^^^ c2 ^^^ c1 ^^^ d1)
  let dt := put dt (i + 2) (a1 ^^^ b1 ^^^ c2 ^^^ d2 ^^^ d1)
  let dt := put dt (i + 3) (a2 ^^^ a1 ^^^ b1 ^^^ c1 ^^^ d2)
  ⟨dt, m.j + 4, m.k + 4, m.l + 4⟩

def mixSubColumns (dt st : Block) : Block :=
  ([0, 4, 8, 12].foldl (mixSubColumn st) ⟨dt, 5, 10, 15⟩).dt

/-- The body of the loop of `inv_mix_sub_columns`. -/
def invMixSubColumn (st dt : Block) (i : Fin 16) : Block :=
  let a1 := st.get i
  let b1 := st.get (i + 1)
  let c1 := st.get (i + 2)
  let d1 := st.get (i + 3)
  let a2 := f2 a1
  let b2 := f2 b1
  let c2 := f2 c1
  let d2 := f2 d1
  let a4 := f2 a2
  let b4 := f2 b2
  let c4 := f2 c2
  let d4 := f2 d2
  let a8 := f2 a4
  let b8 := f2 b4
  let c8 := f2 c4
  let d8 := f2 d4
  let a9 := a8 ^^^ a1
  let b9 := b8 ^^^ b1
  let c9 := c8 ^^^ c1
  let d9 := d8 ^^^ d1
  let ac := a8 ^^^ a4
  let bc := b8 ^^^ b4
  let cc := c8 ^^^ c4
  let dc := d8 ^^^ d4
  let dt := put dt i (isBox (ac ^^^ a2 ^^^ b9 ^^^ b2 ^^^ cc ^^^ c1 ^^^ d9))
  let dt := put dt (i + 5) (isBox (a9 ^^^ bc ^^^ b2 ^^^ c9 ^^^ c2 ^^^ dc ^^^ d1))
  let dt := put dt (i + 10) (isBox (ac ^^^ a1 ^^^ b9 ^^^ cc ^^^ c2 ^^^ d9 ^^^ d2))
  put dt (i + 15) (isBox (a9 ^^^ a2 ^^^ bc ^^^ b1 ^^^ c9 ^^^ dc ^^^ d2))

def invMixSubColumns (dt st : Block) : Block :=
  [0, 4, 8, 12].foldl (invMixSubColumn st) dt

/-! ## The key schedule -/

/-- An object, after its first `set_key` or `clean`. -/
structure Aes where
  round : ℕ
  keySched : Vector UInt8 240
  round_le : round ≤ 14

/-- What the functions return in a byte. -/
def SUCCESS : UInt8 := 0

def FAILURE : UInt8 := 255

/-- `copy_n_bytes` into the key schedule; the key may be too short. -/
def copyKey (keySched : Vector UInt8 240) (key : List UInt8) (n : ℕ) :
    Option (Vector UInt8 240) :=
  (List.range n).foldlM (fun d i ↦ key[i]?.map fun b ↦ d.setIfInBounds i b) keySched

/-- What the loop of `set_key` keeps from word to word. -/
structure Expanding where
  keySched : Vector UInt8 240
  next : ℕ
  rc : UInt8

/-- The loop that copies a word of the key schedule. -/
def readWord (keySched : Vector UInt8 240) (p : ℕ) : Vector UInt8 4 :=
  .ofFn fun i ↦ keySched.getD (p + i) 0

/-- The loop that makes the word at `cc` of that at `tt`. -/
def storeWord (keySched : Vector UInt8 240) (cc tt : ℕ) (t : Vector UInt8 4) :
    Vector UInt8 240 :=
  (List.finRange 4).foldl (fun d (i : Fin 4) ↦
    d.setIfInBounds (cc + i) (d.getD (tt + i) 0 ^^^ t.get i)) keySched

/-- The body of the loop, for the word that starts at `cc`. -/
def expandWord (keylen : ℕ) (x : Expanding) (cc : ℕ) : Expanding :=
  let t := readWord x.keySched (cc - 4)
  let tt := cc - keylen
  if cc = x.next then
    let t := #v[sBox t[1] ^^^ x.rc, sBox t[2], sBox t[3], sBox t[0]]
    ⟨storeWord x.keySched cc tt t, (x.next + keylen) % 256, f2 x.rc⟩
  else if keylen = 32 ∧ cc &&& 31 = 16 then
    ⟨storeWord x.keySched cc tt (t.map sBox), x.next, x.rc⟩
  else ⟨storeWord x.keySched cc tt t, x.next, x.rc⟩

/-- The loop of `set_key`. -/
def expandKey (keySched : Vector UInt8 240) (keylen round : ℕ) : Vector UInt8 240 :=
  let hi := (round + 1) <<< 4
  ((List.range' keylen ((hi - keylen) / 4) 4).foldl (expandWord keylen)
    ⟨keySched, keylen, 1⟩).keySched

namespace Aes

variable (a : Aes)

/-- The number of bytes of a key and of rounds. -/
def sizes (keylen : ℤ) : Option (ℕ × Fin 15) :=
  if keylen = 16 ∨ keylen = 128 then some (16, 10)
  else if keylen = 24 ∨ keylen = 192 then some (24, 12)
  else if keylen = 32 ∨ keylen = 256 then some (32, 14)
  else none

def setKey (key : List UInt8) (keylen : ℤ) : Option (UInt8 × Aes) :=
  match sizes keylen with
  | none => some (FAILURE, ⟨0, a.keySched, Nat.zero_le _⟩)
  | some (keylen, round) => do
    let keySched ← copyKey a.keySched key keylen
    some (SUCCESS, ⟨round, expandKey keySched keylen round, Nat.le_of_lt_succ round.isLt⟩)

def clean : Aes := ⟨0, .replicate 240 0, Nat.zero_le _⟩

/-! ## Encryption and decryption -/

/-- The part of the key schedule for one round. -/
def roundKey (r : ℕ) : Block := .ofFn fun i ↦ a.keySched.getD (r * 16 + i) 0

/-- The loop of `encrypt` for the rounds before round `r`. -/
def encryptLoop (s1 : Block) (r : ℕ) : Block :=
  (List.range' 1 (r - 1)).foldl
    (fun s1 r ↦ copyAndKey (mixSubColumns (.replicate 16 0) s1) (a.roundKey r)) s1

/-- `encrypt`, apart from the check of the number of rounds. -/
def encryptBlock (plain : Block) : Block :=
  let s1 := copyAndKey plain (a.roundKey 0)
  let s1 := a.encryptLoop s1 a.round
  copyAndKey (shiftSubRows s1) (a.roundKey a.round)

/-- The loop of `decrypt`, down from round `r`. -/
def decryptLoop : ℕ → Block → Block
  | 0, s1 => s1
  | r + 1, s1 => decryptLoop r (invMixSubColumns s1 (copyAndKey s1 (a.roundKey (r + 1))))

def decryptBlock (plain : Block) : Block :=
  let s1 := copyAndKey plain (a.roundKey a.round)
  let s1 := invShiftSubRows s1
  let s1 := a.decryptLoop (a.round - 1) s1
  copyAndKey s1 (a.roundKey 0)

end Aes

/-! ## Memory -/

def readBlock (p : ℕ) : BufferM Block := do
  let s ← readRange p 16
  pure (.ofFn fun i ↦ s.getD i 0)

def writeBlock (p : ℕ) (b : Block) : BufferM Unit := writeRange p b.toList

def xorBlock (d s : ℕ) : BufferM Unit :=
  forM (List.range 16) fun i ↦ do
    let x ← read (d + i)
    let y ← read (s + i)
    write (d + i) (x ^^^ y)

def copyNBytes (d s n : ℕ) : BufferM Unit :=
  forM (List.range n) fun i ↦ do
    let y ← read (s + i)
    write (d + i) y

namespace Aes

variable (a : Aes)

def encrypt (plain cipher : ℕ) : BufferM UInt8 :=
  if a.round ≠ 0 then do
    let s ← readBlock plain
    writeBlock cipher (a.encryptBlock s)
    pure SUCCESS
  else pure FAILURE

def decrypt (plain cipher : ℕ) : BufferM UInt8 :=
  if a.round ≠ 0 then do
    let s ← readBlock plain
    writeBlock cipher (a.decryptBlock s)
    pure SUCCESS
  else pure FAILURE

def cbcEncrypt : ℕ → ℕ → ℕ → ℕ → BufferM UInt8
  | 0, _, _, _ => pure SUCCESS
  | n_block + 1, plain, cipher, iv => do
    xorBlock iv plain
    if (← a.encrypt iv iv) ≠ SUCCESS then pure FAILURE
    else do
      copyNBytes cipher iv 16
      cbcEncrypt n_block (plain + 16) (cipher + 16) iv

def cbcDecrypt : ℕ → ℕ → ℕ → ℕ → BufferM UInt8
  | 0, _, _, _ => pure SUCCESS
  | n_block + 1, cipher, plain, iv => do
    let tmp ← readBlock cipher
    if (← a.decrypt cipher plain) ≠ SUCCESS then pure FAILURE
    else do
      xorBlock plain iv
      writeBlock iv tmp
      cbcDecrypt n_block (cipher + 16) (plain + 16) iv

end Aes

end DuoFirmware.Crypto
