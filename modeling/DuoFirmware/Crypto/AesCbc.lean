import DuoFirmware.Crypto.AesCalls
import DuoFirmware.Lib.Cbc

/-!
# Chained blocks of AES

The functions that chain blocks, over a memory. The two regions of blocks may overlap when the
results are written before what is read.
-/

namespace DuoFirmware.Crypto

open Rijndael Bytes

variable {mem : List UInt8} {p q d s i n iv : ℕ} {k : Key} {a : Aes}

/-! ## Bytes -/

/-- A block that was written. -/
theorem blockAt_splice (b : Block) (h : p + 16 ≤ mem.length) :
    blockAt (splice mem p b.toList) p = b := by
  refine Vector.ext fun i hi ↦ ?_
  have hin : p ≤ p + i ∧ p + i < p + b.toList.length := by
    rw [Vector.length_toList]
    omega
  rw [getElem_blockAt _ _ hi, List.getD_eq_getElem?_getD,
    getElem?_splice (by rwa [Vector.length_toList]), if_pos hin, Nat.add_sub_cancel_left,
    List.getElem?_eq_getElem (hi.trans_eq Vector.length_toList.symm), Option.getD_some,
    Vector.getElem_toList]

theorem stateAt_splice (x : State) (h : p + 16 ≤ mem.length) :
    stateAt (splice mem p (bytes x)) p = x :=
  (congrArg state (blockAt_splice (block x) h)).trans (state_block x)

/-- A block apart from what was written. -/
theorem blockAt_splice_apart {t : List UInt8} (h : q + t.length ≤ mem.length)
    (hapart : p + 16 ≤ q ∨ q + t.length ≤ p) : blockAt (splice mem q t) p = blockAt mem p := by
  refine Vector.ext fun i hi ↦ ?_
  rw [getElem_blockAt _ _ hi, getElem_blockAt _ _ hi, List.getD_eq_getElem?_getD,
    getElem?_splice h, if_neg (by omega), List.getD_eq_getElem?_getD]

theorem read_splice {t : List UInt8} (h : q + t.length ≤ mem.length)
    (hp : p < mem.length) (hapart : p < q ∨ q + t.length ≤ p) :
    read p (splice mem q t) = some (mem.getD p 0, splice mem q t) := by
  refine read_eq_some ?_
  rw [getElem?_splice h, if_neg (by omega), List.getElem?_eq_getElem hp,
    List.getD_eq_getElem _ _ hp]

/-- A loop that writes a block, one byte after the other. -/
theorem forM_block {body : ℕ → BufferM Unit} (b : Block) (hd : d + 16 ≤ mem.length)
    (hbody : ∀ (i : ℕ) (hi : i < 16) (t : List UInt8), t.length = i →
      body i (splice mem d t) = some ((), splice (splice mem d t) (d + i) [b[i]])) :
    forM (List.range 16) body mem = some ((), splice mem d b.toList) := by
  have hlen : b.toList.length = 16 := Vector.length_toList
  have hloop := forM_writes (p := d) (s := b.toList) (by omega) fun i hi ↦
    hbody i (hi.trans_eq hlen) (b.toList.take i) (List.length_take_of_le hi.le)
  rwa [hlen] at hloop

theorem xorBlock_eq (hd : d + 16 ≤ mem.length) (hs : s + 16 ≤ mem.length)
    (hapart : d + 16 ≤ s ∨ s + 16 ≤ d) : xorBlock d s mem =
      some ((), splice mem d (copyAndKey (blockAt mem d) (blockAt mem s)).toList) := by
  refine forM_block _ hd fun i hi t ht ↦ ?_
  have hfits : d + t.length ≤ mem.length := by omega
  rw [run_bind (read_splice hfits (p := d + i) (by omega) (by omega)),
    run_bind (read_splice hfits (p := s + i) (by omega) (by omega)), copyAndKey,
    Vector.getElem_zipWith, getElem_blockAt _ _ hi, getElem_blockAt _ _ hi]
  exact write_eq _ (by rw [length_splice hfits]; omega)

theorem copyNBytes_eq (hd : d + 16 ≤ mem.length) (hs : s + 16 ≤ mem.length)
    (hapart : d + 16 ≤ s ∨ s + 16 ≤ d) :
    copyNBytes d s 16 mem = some ((), splice mem d (blockAt mem s).toList) := by
  refine forM_block _ hd fun i hi t ht ↦ ?_
  have hfits : d + t.length ≤ mem.length := by omega
  rw [run_bind (read_splice hfits (p := s + i) (by omega) (by omega)), getElem_blockAt _ _ hi]
  exact write_eq _ (by rw [length_splice hfits]; omega)

/-! ## Regions -/

/-- The blocks from an address on. -/
def statesAt (mem : List UInt8) (p : ℕ) : ℕ → List State
  | 0 => []
  | n + 1 => stateAt mem p :: statesAt mem (p + 16) n

theorem length_statesAt (mem : List UInt8) (p n : ℕ) : (statesAt mem p n).length = n := by
  induction n generalizing p with
  | zero => rfl
  | succ n ih => rw [statesAt, List.length_cons, ih]

/-- Where `n` blocks at `p` are written as those at `q` are read: not over what is still to read. -/
def InOrder (p q n : ℕ) : Prop := p ≤ q ∨ q + 16 * n ≤ p

/-- The initial block is apart from `n` blocks. -/
def Apart (iv p n : ℕ) : Prop := iv + 16 ≤ p ∨ p + 16 * n ≤ iv

theorem length_flatMap_bytes (ss : List State) : (ss.flatMap bytes).length = 16 * ss.length := by
  induction ss with
  | nil => rfl
  | cons s ss ih =>
    rw [List.flatMap_cons, List.length_append, length_bytes, ih, List.length_cons, Nat.mul_succ,
      Nat.add_comm]

theorem statesAt_splice {t : List UInt8} (h : q + t.length ≤ mem.length)
    (hapart : p + 16 * n ≤ q ∨ q + t.length ≤ p) :
    statesAt (splice mem q t) p n = statesAt mem p n := by
  induction n generalizing p with
  | zero => rfl
  | succ n ih =>
    rw [statesAt, statesAt, stateAt, blockAt_splice_apart h (by omega), ih (by omega), stateAt]

/-- What a chain leaves in memory: the blocks it found, and the last one for what comes after. -/
def chained (mem : List UInt8) (q iv : ℕ) (out : List State) (last : State) : List UInt8 :=
  splice (splice mem q (out.flatMap bytes)) iv (bytes last)

theorem chained_cons {out : List State} (b x last : State)
    (hq : q + 16 * (out.length + 1) ≤ mem.length) (hiv : iv + 16 ≤ mem.length)
    (hapart : Apart iv q (out.length + 1)) :
    chained (splice (splice mem q (bytes b)) iv (bytes x)) (q + 16) iv out last =
      chained mem q iv (b :: out) last := by
  rw [Apart] at hapart
  have hb := length_bytes b
  have hx := length_bytes x
  have hout := length_flatMap_bytes out
  have hlen : (splice mem q (bytes b)).length = mem.length := length_splice (by omega)
  have hrest : (splice (splice mem q (bytes b)) (q + 16) (out.flatMap bytes)).length =
      mem.length := (length_splice (by omega)).trans hlen
  have hcomm := splice_comm (l := splice mem q (bytes b)) (i := iv) (s := bytes x) (k := q + 16)
    (t := out.flatMap bytes) (by omega) (by omega) (by omega)
  have hmerge := splice_splice (l := mem) (i := q) (s := bytes b) (t := out.flatMap bytes)
    (by omega)
  rw [chained, hcomm, splice_over (by omega) (by rw [length_bytes, hx]), ← hb, hmerge, chained,
    List.flatMap_cons]

/-- The blocks that were written. -/
theorem statesAt_written (out : List State) (hq : q + 16 * out.length ≤ mem.length) :
    statesAt (splice mem q (out.flatMap bytes)) q out.length = out := by
  induction out generalizing q mem with
  | nil => rfl
  | cons b out ih =>
    rw [List.length_cons] at hq
    have hb := length_bytes b
    have hout := length_flatMap_bytes out
    have hlen : (splice mem q (bytes b)).length = mem.length := length_splice (by omega)
    have hmerge := splice_splice (l := mem) (i := q) (s := bytes b) (t := out.flatMap bytes)
      (by omega)
    have hfirst : stateAt (splice (splice mem q (bytes b)) (q + 16) (out.flatMap bytes)) q = b := by
      rw [stateAt, blockAt_splice_apart (by omega) (by omega)]
      exact stateAt_splice b (by omega)
    rw [List.flatMap_cons, ← hmerge, hb, List.length_cons, statesAt, hfirst, ih (by omega)]

theorem length_chained (out : List State) (last : State) (hq : q + 16 * out.length ≤ mem.length)
    (hiv : iv + 16 ≤ mem.length) : (chained mem q iv out last).length = mem.length := by
  have hout := length_flatMap_bytes out
  have hlast := length_bytes last
  have hlen : (splice mem q (out.flatMap bytes)).length = mem.length := length_splice (by omega)
  rw [chained, length_splice (by omega), hlen]

theorem stateAt_chained (out : List State) (last : State) (hq : q + 16 * out.length ≤ mem.length)
    (hiv : iv + 16 ≤ mem.length) : stateAt (chained mem q iv out last) iv = last := by
  have hout := length_flatMap_bytes out
  have hlen : (splice mem q (out.flatMap bytes)).length = mem.length := length_splice (by omega)
  exact stateAt_splice last (by omega)

theorem statesAt_chained (out : List State) (last : State) (hq : q + 16 * out.length ≤ mem.length)
    (hiv : iv + 16 ≤ mem.length) (hapart : Apart iv q out.length) :
    statesAt (chained mem q iv out last) q out.length = out := by
  rw [Apart] at hapart
  have hout := length_flatMap_bytes out
  have hlast := length_bytes last
  have hlen : (splice mem q (out.flatMap bytes)).length = mem.length := length_splice (by omega)
  rw [chained, statesAt_splice (by omega) (by omega), statesAt_written out hq]

theorem chained_nil (hiv : iv + 16 ≤ mem.length) : chained mem q iv [] (stateAt mem iv) = mem := by
  rw [chained, List.flatMap_nil, splice_nil, stateAt, bytes_state, toList_blockAt hiv,
    splice_same hiv]

/-- The memory after a block: the next one is not read from what was written. -/
theorem after_block (b x : State)
    (hq : q + 16 * (n + 1) ≤ mem.length) (hiv : iv + 16 ≤ mem.length)
    (hvp : Apart iv p (n + 1)) (hvq : Apart iv q (n + 1)) (horder : InOrder q p (n + 1)) :
    (splice (splice mem q (bytes b)) iv (bytes x)).length = mem.length ∧
      stateAt (splice (splice mem q (bytes b)) iv (bytes x)) iv = x ∧
        statesAt (splice (splice mem q (bytes b)) iv (bytes x)) (p + 16) n =
          statesAt mem (p + 16) n := by
  rw [Apart] at hvp hvq
  rw [InOrder] at horder
  have hb := length_bytes b
  have hx := length_bytes x
  have hlen : (splice mem q (bytes b)).length = mem.length := length_splice (by omega)
  refine ⟨(length_splice (by omega)).trans hlen, ?_, ?_⟩
  · exact stateAt_splice x (hiv.trans_eq hlen.symm)
  · rw [statesAt_splice (by omega) (by omega), statesAt_splice (by omega) (by omega)]

theorem state_copyAndKey_add (s k : Block) : state (copyAndKey s k) = state s + state k :=
  state_copyAndKey s k

/-! ## Chains -/

theorem cbcEncrypt_succ (h : a.Has k) (hp : p + 16 ≤ mem.length) (hq : q + 16 ≤ mem.length)
    (hiv : iv + 16 ≤ mem.length) (hvp : Apart iv p 1) (hvq : Apart iv q 1) {c : State}
    (hc : k.cipher (stateAt mem iv + stateAt mem p) = c) :
    a.cbcEncrypt (n + 1) p q iv mem =
      a.cbcEncrypt n (p + 16) (q + 16) iv (splice (splice mem q (bytes c)) iv (bytes c)) := by
  rw [Apart] at hvp hvq
  have hlen := length_bytes c
  have hout : (a.encryptBlock (copyAndKey (blockAt mem iv) (blockAt mem p))).toList = bytes c := by
    rw [← bytes_state, h.encryptBlock, state_copyAndKey_add, ← hc, stateAt, stateAt]
  -- the initial block is combined with the first one, encrypted in its place and copied
  have hxor := xorBlock_eq (d := iv) (s := p) hiv hp (by omega)
  generalize hblock : copyAndKey (blockAt mem iv) (blockAt mem p) = b at hxor hout
  have hxlen : (splice mem iv b.toList).length = mem.length :=
    length_splice (by rw [Vector.length_toList]; exact hiv)
  have hplace : iv + 16 ≤ (splice mem iv b.toList).length := hxlen ▸ hiv
  have henc := encrypt_run h.round_ne_zero hplace hplace
  rw [blockAt_splice b hiv, hout, splice_over (by rw [Vector.length_toList]; exact hiv)
    (hlen.trans Vector.length_toList.symm)] at henc
  have hclen : (splice mem iv (bytes c)).length = mem.length := length_splice (by omega)
  have hdest : q + 16 ≤ (splice mem iv (bytes c)).length := hclen ▸ hq
  have hcopy := copyNBytes_eq hdest (hclen ▸ hiv) (by omega)
  rw [bytes, blockAt_splice _ hiv, ← bytes] at hcopy
  rw [Aes.cbcEncrypt, run_bind hxor, run_bind henc, if_neg (not_not.mpr rfl), run_bind hcopy,
    splice_comm (by omega) (by omega) (by omega)]

theorem cbcEncrypt_eq (h : a.Has k) (hp : p + 16 * n ≤ mem.length) (hq : q + 16 * n ≤ mem.length)
    (hiv : iv + 16 ≤ mem.length) (hvp : Apart iv p n) (hvq : Apart iv q n)
    (horder : InOrder q p n) :
    a.cbcEncrypt n p q iv mem =
      some (SUCCESS, chained mem q iv (Cbc.encrypt k.cipher (stateAt mem iv) (statesAt mem p n))
        (Cbc.next (stateAt mem iv)
          (Cbc.encrypt k.cipher (stateAt mem iv) (statesAt mem p n)))) := by
  induction n generalizing p q mem with
  | zero =>
    rw [statesAt, Cbc.encrypt, Cbc.next, List.getLastD_nil, chained_nil hiv]
    rfl
  | succ n ih =>
    have hlen : (Cbc.encrypt k.cipher (k.cipher (stateAt mem iv + stateAt mem p))
        (statesAt mem (p + 16) n)).length = n := by
      rw [Cbc.length_encrypt, length_statesAt]
    rw [statesAt, Cbc.encrypt, Cbc.next_cons]
    generalize hc : k.cipher (stateAt mem iv + stateAt mem p) = c at hlen ⊢
    obtain ⟨hsize, hnext, hrest⟩ := after_block c c hq hiv hvp hvq horder
    rw [Apart] at hvp hvq
    rw [InOrder] at horder
    rw [cbcEncrypt_succ h (by omega) (by omega) hiv (by rw [Apart]; omega) (by rw [Apart]; omega)
        hc,
      ih (by omega) (by omega) (by omega) (by rw [Apart]; omega) (by rw [Apart]; omega)
        (by rw [InOrder]; omega), hnext, hrest,
      chained_cons _ _ _ (by omega) hiv (by rw [Apart]; omega)]

theorem cbcDecrypt_succ (h : a.Has k) (hp : p + 16 ≤ mem.length) (hq : q + 16 ≤ mem.length)
    (hiv : iv + 16 ≤ mem.length) (hvq : Apart iv q 1) {x : State}
    (hx : k.cipher.symm (stateAt mem p) - stateAt mem iv = x) :
    a.cbcDecrypt (n + 1) p q iv mem = a.cbcDecrypt n (p + 16) (q + 16) iv
      (splice (splice mem q (bytes x)) iv (bytes (stateAt mem p))) := by
  rw [Apart] at hvq
  have hlen := length_bytes x
  have hout : (copyAndKey (a.decryptBlock (blockAt mem p)) (blockAt mem iv)).toList = bytes x := by
    rw [← bytes_state, state_copyAndKey_add, h.decryptBlock, ← hx, stateAt, stateAt]
    rfl
  have hdec := decrypt_run h.round_ne_zero hp hq
  generalize a.decryptBlock (blockAt mem p) = b at hdec hout
  have hb : b.toList.length = 16 := Vector.length_toList
  have hblen : (splice mem q b.toList).length = mem.length := length_splice (by omega)
  have hdest : q + 16 ≤ (splice mem q b.toList).length := hblen ▸ hq
  have hxor := xorBlock_eq hdest (hblen ▸ hiv) (by omega)
  rw [blockAt_splice b hq, blockAt_splice_apart (by omega) (by omega), hout,
    splice_over (by omega) (by omega)] at hxor
  have hxlen : (splice mem q (bytes x)).length = mem.length := length_splice (by omega)
  have hplace : iv + 16 ≤ (splice mem q (bytes x)).length := hxlen ▸ hiv
  have hwrite := writeBlock_eq (blockAt mem p) hplace
  rw [Aes.cbcDecrypt, run_bind (readBlock_eq hp), run_bind hdec, if_neg (not_not.mpr rfl),
    run_bind hxor, run_bind hwrite, stateAt, bytes_state]

theorem cbcDecrypt_eq (h : a.Has k) (hp : p + 16 * n ≤ mem.length) (hq : q + 16 * n ≤ mem.length)
    (hiv : iv + 16 ≤ mem.length) (hvp : Apart iv p n) (hvq : Apart iv q n)
    (horder : InOrder q p n) :
    a.cbcDecrypt n p q iv mem =
      some (SUCCESS, chained mem q iv (Cbc.decrypt k.cipher (stateAt mem iv) (statesAt mem p n))
        (Cbc.next (stateAt mem iv) (statesAt mem p n))) := by
  induction n generalizing p q mem with
  | zero =>
    rw [statesAt, Cbc.decrypt, Cbc.next, List.getLastD_nil, chained_nil hiv]
    rfl
  | succ n ih =>
    have hlen : (Cbc.decrypt k.cipher (stateAt mem p) (statesAt mem (p + 16) n)).length = n := by
      rw [Cbc.length_decrypt, length_statesAt]
    rw [statesAt, Cbc.decrypt, Cbc.next_cons]
    generalize hx : k.cipher.symm (stateAt mem p) - stateAt mem iv = x
    obtain ⟨hsize, hnext, hrest⟩ := after_block x (stateAt mem p) hq hiv hvp hvq horder
    rw [Apart] at hvp hvq
    rw [InOrder] at horder
    rw [cbcDecrypt_succ h (by omega) (by omega) hiv (by rw [Apart]; omega) hx,
      ih (by omega) (by omega) (by omega) (by rw [Apart]; omega) (by rw [Apart]; omega)
        (by rw [InOrder]; omega), hnext, hrest,
      chained_cons _ _ _ (by omega) hiv (by rw [Apart]; omega)]

/-! ## Without a key -/

theorem cbcEncrypt_none (hround : a.round = 0) (hp : p + 16 ≤ mem.length)
    (hiv : iv + 16 ≤ mem.length) (hvp : Apart iv p 1) :
    a.cbcEncrypt (n + 1) p q iv mem =
      some (FAILURE, splice mem iv (bytes (stateAt mem iv + stateAt mem p))) := by
  rw [Apart] at hvp
  have hxor := xorBlock_eq (d := iv) (s := p) hiv hp (by omega)
  rw [Aes.cbcEncrypt, run_bind hxor, run_bind (encrypt_none hround), if_pos (by decide), run_pure,
    ← bytes_state, state_copyAndKey_add, stateAt, stateAt]

theorem cbcDecrypt_none (hround : a.round = 0) (hp : p + 16 ≤ mem.length) :
    a.cbcDecrypt (n + 1) p q iv mem = some (FAILURE, mem) := by
  rw [Aes.cbcDecrypt, run_bind (readBlock_eq hp), run_bind (decrypt_none hround),
    if_pos (by decide), run_pure]

/-- **Without a key** both functions fail at the first block. But `cbc_encrypt` has mixed this block
with the initial one then; `cbc_decrypt` changes nothing. -/
theorem cbc_without_key {a' : Aes} {call : KeyCall} (h : a.perform call = some a')
    (hkey : call.key = none) (hp : p + 16 ≤ mem.length) (hiv : iv + 16 ≤ mem.length)
    (hvp : Apart iv p 1) :
    a'.cbcEncrypt (n + 1) p q iv mem =
      some (FAILURE, splice mem iv (bytes (stateAt mem iv + stateAt mem p))) ∧
    a'.cbcDecrypt (n + 1) p q iv mem = some (FAILURE, mem) := by
  rcases perform_spec h with ⟨-, hround⟩ | ⟨k, hk, -⟩
  · exact ⟨cbcEncrypt_none hround hp hiv hvp, cbcDecrypt_none hround hp⟩
  · rw [hkey] at hk
    cases hk

theorem cbc_without_key_clean :
    Aes.clean.cbcEncrypt 1 16 16 0 (List.replicate 32 5) = some (FAILURE,
      splice (List.replicate 32 5) 0 (bytes (stateAt (List.replicate 32 5) 0 +
        stateAt (List.replicate 32 5) 16))) ∧
    Aes.clean.cbcDecrypt 1 16 16 0 (List.replicate 32 5) =
      some (FAILURE, List.replicate 32 5) :=
  have hclean : Aes.clean.perform .clean = some Aes.clean := rfl
  cbc_without_key hclean rfl (by decide) (by decide) (.inl le_rfl)

/-- **Chained blocks conform**: `cbc_encrypt` and `cbc_decrypt` of blocks from `p` to `q` are those
of the cipher, they leave in the initial block the last encrypted one, and nothing else changes.
`p` and `q` may be the same place, or overlap when the results come first. -/
theorem cbc_conforms (h : a.Has k) (hp : p + 16 * n ≤ mem.length) (hq : q + 16 * n ≤ mem.length)
    (hiv : iv + 16 ≤ mem.length) (hvp : Apart iv p n) (hvq : Apart iv q n)
    (horder : InOrder q p n) :
    a.cbcEncrypt n p q iv mem =
      some (SUCCESS, chained mem q iv (Cbc.encrypt k.cipher (stateAt mem iv) (statesAt mem p n))
        (Cbc.next (stateAt mem iv)
          (Cbc.encrypt k.cipher (stateAt mem iv) (statesAt mem p n)))) ∧
    a.cbcDecrypt n p q iv mem =
      some (SUCCESS, chained mem q iv (Cbc.decrypt k.cipher (stateAt mem iv) (statesAt mem p n))
        (Cbc.next (stateAt mem iv) (statesAt mem p n))) :=
  ⟨cbcEncrypt_eq h hp hq hiv hvp hvq horder, cbcDecrypt_eq h hp hq hiv hvp hvq horder⟩

theorem exists_key : ∃ a k, Aes.clean.perform (.setKey (List.replicate 16 7) 128) = some a ∧
    a.Has k := by
  have hset : ∃ a, Aes.clean.perform (.setKey (List.replicate 16 7) 128) = some a := ⟨_, rfl⟩
  obtain ⟨a, ha⟩ := hset
  rcases perform_spec ha with ⟨hkey, -⟩ | ⟨k, -, hhas⟩
  · cases hkey
  · exact ⟨a, k, ha, hhas⟩

/-- One block in place. -/
theorem cbc_conforms_128 : ∃ (a : Aes) (k : Key), a.Has k ∧
    a.cbcEncrypt 1 16 16 0 (List.replicate 32 5) =
      some (SUCCESS, chained (List.replicate 32 5) 16 0
        (Cbc.encrypt k.cipher (stateAt (List.replicate 32 5) 0)
          (statesAt (List.replicate 32 5) 16 1))
        (Cbc.next (stateAt (List.replicate 32 5) 0)
          (Cbc.encrypt k.cipher (stateAt (List.replicate 32 5) 0)
            (statesAt (List.replicate 32 5) 16 1)))) ∧
    a.cbcDecrypt 1 16 16 0 (List.replicate 32 5) =
      some (SUCCESS, chained (List.replicate 32 5) 16 0
        (Cbc.decrypt k.cipher (stateAt (List.replicate 32 5) 0)
          (statesAt (List.replicate 32 5) 16 1))
        (Cbc.next (stateAt (List.replicate 32 5) 0) (statesAt (List.replicate 32 5) 16 1))) := by
  obtain ⟨a, k, -, h⟩ := exists_key
  exact ⟨a, k, h, cbc_conforms h (by decide) (by decide) (by decide) (.inl le_rfl) (.inl le_rfl)
    (.inl le_rfl)⟩

/-- **What was encrypted is decrypted**, when the decryption starts with the same initial block, and
then both sides are ready for what comes after. This may be done in place. -/
theorem cbc_round_trip {r : ℕ} (h : a.Has k) (hp : p + 16 * n ≤ mem.length)
    (hq : q + 16 * n ≤ mem.length) (hr : r + 16 * n ≤ mem.length) (hiv : iv + 16 ≤ mem.length)
    (hvp : Apart iv p n) (hvq : Apart iv q n) (hvr : Apart iv r n) (hpq : InOrder q p n)
    (hqr : InOrder r q n) :
    ∃ encrypted decrypted, a.cbcEncrypt n p q iv mem = some (SUCCESS, encrypted) ∧
      a.cbcDecrypt n q r iv (splice encrypted iv (bytes (stateAt mem iv))) =
        some (SUCCESS, decrypted) ∧
      statesAt decrypted r n = statesAt mem p n ∧
        stateAt decrypted iv = stateAt encrypted iv := by
  have henc := cbcEncrypt_eq h hp hq hiv hvp hvq hpq
  have hcs := Cbc.length_encrypt k.cipher (stateAt mem iv) (statesAt mem p n)
  have hback := Cbc.decrypt_encrypt k.cipher (stateAt mem iv) (statesAt mem p n)
  generalize Cbc.encrypt k.cipher (stateAt mem iv) (statesAt mem p n) = cs at henc hcs hback
  rw [length_statesAt] at hcs
  subst hcs
  have hlast := stateAt_chained cs (Cbc.next (stateAt mem iv) cs) hq hiv
  have hblocks := statesAt_chained cs (Cbc.next (stateAt mem iv) cs) hq hiv hvq
  have hlen := length_chained cs (Cbc.next (stateAt mem iv) cs) hq hiv
  generalize chained mem q iv cs (Cbc.next (stateAt mem iv) cs) = mem₁ at henc hlast hblocks hlen
  have hbytes := length_bytes (stateAt mem iv)
  have hlen' : (splice mem₁ iv (bytes (stateAt mem iv))).length = mem.length :=
    (length_splice (by omega)).trans hlen
  have hsource : q + 16 * cs.length ≤ (splice mem₁ iv (bytes (stateAt mem iv))).length := hlen' ▸ hq
  have hdec := cbcDecrypt_eq h hsource (hlen' ▸ hr) (hlen' ▸ hiv) hvq hvr hqr
  have hsame : statesAt (splice mem₁ iv (bytes (stateAt mem iv))) q cs.length = cs := by
    rw [Apart] at hvq
    rw [statesAt_splice (by omega) (by omega), hblocks]
  rw [stateAt_splice _ (hlen.symm ▸ hiv), hsame, hback] at hdec
  have hps := length_statesAt mem p cs.length
  refine ⟨mem₁, _, henc, hdec, ?_, ?_⟩
  · have hdest : r + 16 * (statesAt mem p cs.length).length ≤
        (splice mem₁ iv (bytes (stateAt mem iv))).length := by rwa [hps, hlen']
    have hout := statesAt_chained (statesAt mem p cs.length) (Cbc.next (stateAt mem iv) cs) hdest
      (hlen' ▸ hiv) (by rwa [hps])
    rwa [hps] at hout
  · rw [stateAt_chained _ _ (by omega) (by omega), hlast]

theorem cbc_round_trip_128 : ∃ (a : Aes) (k : Key), a.Has k ∧
    ∃ encrypted decrypted,
      a.cbcEncrypt 2 16 16 0 (List.replicate 48 5) = some (SUCCESS, encrypted) ∧
      a.cbcDecrypt 2 16 16 0 (splice encrypted 0 (bytes (stateAt (List.replicate 48 5) 0))) =
        some (SUCCESS, decrypted) ∧
      statesAt decrypted 16 2 = statesAt (List.replicate 48 5) 16 2 ∧
        stateAt decrypted 0 = stateAt encrypted 0 := by
  obtain ⟨a, k, -, h⟩ := exists_key
  exact ⟨a, k, h, cbc_round_trip h (by decide) (by decide) (by decide) (by decide) (.inl le_rfl)
    (.inl le_rfl) (.inl le_rfl) (.inl le_rfl) (.inl le_rfl)⟩

/-! ## Successive calls -/

theorem cbcEncrypt_add (a : Aes) (m n p q iv : ℕ) :
    a.cbcEncrypt (m + n) p q iv = (do
      let s ← a.cbcEncrypt m p q iv
      if s = SUCCESS then a.cbcEncrypt n (p + 16 * m) (q + 16 * m) iv else pure s) := by
  induction m generalizing p q with
  | zero =>
    rw [Nat.zero_add]
    rfl
  | succ m ih =>
    have hp : p + 16 + 16 * m = p + 16 * (m + 1) := by omega
    have hq : q + 16 + 16 * m = q + 16 * (m + 1) := by omega
    rw [Nat.succ_add, Aes.cbcEncrypt, Aes.cbcEncrypt, ih, hp, hq, bind_assoc]
    refine congrArg _ (funext fun _ ↦ ?_)
    rw [bind_assoc]
    refine congrArg _ (funext fun s ↦ ?_)
    split
    · rw [pure_bind, if_neg (by decide)]
    · rw [bind_assoc]

theorem cbcDecrypt_add (a : Aes) (m n p q iv : ℕ) :
    a.cbcDecrypt (m + n) p q iv = (do
      let s ← a.cbcDecrypt m p q iv
      if s = SUCCESS then a.cbcDecrypt n (p + 16 * m) (q + 16 * m) iv else pure s) := by
  induction m generalizing p q with
  | zero =>
    rw [Nat.zero_add]
    rfl
  | succ m ih =>
    have hp : p + 16 + 16 * m = p + 16 * (m + 1) := by omega
    have hq : q + 16 + 16 * m = q + 16 * (m + 1) := by omega
    rw [Nat.succ_add, Aes.cbcDecrypt, Aes.cbcDecrypt, ih, hp, hq, bind_assoc]
    refine congrArg _ (funext fun _ ↦ ?_)
    rw [bind_assoc]
    refine congrArg _ (funext fun s ↦ ?_)
    split
    · rw [pure_bind, if_neg (by decide)]
    · rw [bind_assoc]
      refine congrArg _ (funext fun _ ↦ ?_)
      rw [bind_assoc]

/-- **Successive calls work together**: a call for some blocks and then one for those behind them,
with the initial block that the first one has left, are one call for all of them, whatever the
memory and the object. -/
theorem cbc_calls_add (a : Aes) (m n p q iv : ℕ) :
    a.cbcEncrypt (m + n) p q iv = (do
      let s ← a.cbcEncrypt m p q iv
      if s = SUCCESS then a.cbcEncrypt n (p + 16 * m) (q + 16 * m) iv else pure s) ∧
    a.cbcDecrypt (m + n) p q iv = (do
      let s ← a.cbcDecrypt m p q iv
      if s = SUCCESS then a.cbcDecrypt n (p + 16 * m) (q + 16 * m) iv else pure s) :=
  ⟨cbcEncrypt_add a m n p q iv, cbcDecrypt_add a m n p q iv⟩

end DuoFirmware.Crypto
