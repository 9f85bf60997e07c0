import DuoFirmware.Crypto.AesBlocks

/-!
# The keys of AES

`set_key` expands the key as the cipher does, whatever the object held before: the last call that
sets or deletes the key decides how blocks are encrypted and decrypted.
-/

namespace DuoFirmware.Crypto

open Rijndael

variable {ks ks' : Vector UInt8 240} {i j m n nk : ℕ} {k : Key}

/-! ## Words -/

/-- Four bytes as a word of the key. -/
def bytesWord (t : Vector UInt8 4) : Word := fun r ↦ ⟨t.get r⟩

/-- The words of the key schedule. -/
def word (ks : Vector UInt8 240) (i : ℕ) : Word := fun r ↦ ⟨ks.getD (4 * i + r) 0⟩

theorem bytesWord_readWord (ks : Vector UInt8 240) (i : ℕ) :
    bytesWord (readWord ks (4 * i)) = word ks i := by
  funext r
  exact congrArg Gf256.mk (Vector.getElem_ofFn r.isLt)

theorem bytesWord_map (t : Vector UInt8 4) : bytesWord (t.map sBox) = subWord (bytesWord t) := by
  funext r
  have hbyte : (t.map sBox).get r = sBox (t.get r) := Vector.getElem_map sBox r.isLt
  rw [bytesWord, hbyte, subWord, bytesWord, subByte_eq]

theorem bytesWord_rotated {t w : Vector UInt8 4} {rc : UInt8}
    (h0 : w.get 0 = sBox (t.get 1) ^^^ rc) (h1 : w.get 1 = sBox (t.get 2))
    (h2 : w.get 2 = sBox (t.get 3)) (h3 : w.get 3 = sBox (t.get 0)) :
    bytesWord w = subWord (rotWord (bytesWord t)) + ![⟨rc⟩, 0, 0, 0] := by
  funext r
  have hsub : (subWord (rotWord (bytesWord t))) r = ⟨sBox (t.get (r + 1))⟩ := subByte_eq _
  rw [Pi.add_apply, hsub]
  fin_cases r
  · exact congrArg Gf256.mk h0
  · exact (congrArg Gf256.mk h1).trans (add_zero _).symm
  · exact (congrArg Gf256.mk h2).trans (add_zero _).symm
  · exact (congrArg Gf256.mk h3).trans (add_zero _).symm

theorem getD_setIfInBounds (b : UInt8) (hi : i < 240) :
    (ks.setIfInBounds i b).getD j 0 = if i = j then b else ks.getD j 0 := by
  rw [Vector.getD, Vector.getD, Array.getD_eq_getD_getElem?, Array.getD_eq_getD_getElem?,
    Vector.toArray_setIfInBounds, Array.getElem?_setIfInBounds]
  split
  · rw [if_pos (hi.trans_eq ks.size_toArray.symm), Option.getD_some]
  · rfl

theorem getD_storeWord (t : Vector UInt8 4) {p q : ℕ} (hp : p + 4 ≤ 240) (hq : q + 4 ≤ p) :
    (storeWord ks p q t).getD j 0 = if p + 3 = j then ks.getD (q + 3) 0 ^^^ t.get 3
      else if p + 2 = j then ks.getD (q + 2) 0 ^^^ t.get 2
      else if p + 1 = j then ks.getD (q + 1) 0 ^^^ t.get 1
      else if p = j then ks.getD q 0 ^^^ t.get 0
      else ks.getD j 0 := by
  -- what is read was not written before
  have hapart (x y : Fin 4) : (p + x.val = q + y.val) = False := eq_false (by omega)
  simp (disch := omega) only [storeWord, List.finRange, List.ofFn_succ, List.ofFn_zero,
    List.foldl_cons, List.foldl_nil, getD_setIfInBounds, hapart, if_false]
  rfl

theorem word_storeWord (t : Vector UInt8 4) (hi : i < 60) (hm : m < i) :
    word (storeWord ks (4 * i) (4 * m) t) j =
      if i = j then word ks m + bytesWord t else word ks j := by
  have hbyte (r : Fin 4) : (storeWord ks (4 * i) (4 * m) t).getD (4 * j + r) 0 =
      if i = j then ks.getD (4 * m + r) 0 ^^^ t.get r else ks.getD (4 * j + r) 0 := by
    rw [getD_storeWord t (by omega) (by omega)]
    by_cases h : i = j
    · subst h
      fin_cases r <;> simp
    · have hr := r.isLt
      rw [if_neg (by omega), if_neg (by omega), if_neg (by omega), if_neg (by omega), if_neg h]
  funext r
  rw [word, hbyte]
  split
  · rfl
  · rfl

/-! ## The expansion -/

/-- What the loop has found after `m` words behind those of the key. -/
structure Expanded (k : Key) (m : ℕ) (x : Expanding) : Prop where
  word_eq : ∀ j < k.nk + m, word x.keySched j = k.expand j
  next_eq : x.next = 4 * k.nk * ((m + k.nk - 1) / k.nk + 1) % 256
  rc_eq : (⟨x.rc⟩ : Gf256) = ⟨2⟩ ^ ((m + k.nk - 1) / k.nk)

theorem next_iff (hnk : nk = 4 ∨ nk = 6 ∨ nk = 8) (hm : nk + m < 60) :
    4 * (nk + m) = 4 * nk * ((m + nk - 1) / nk + 1) % 256 ↔ (nk + m) % nk = 0 := by
  rcases hnk with rfl | rfl | rfl <;> omega

theorem next_succ (hnk : nk = 4 ∨ nk = 6 ∨ nk = 8) (h : (nk + m) % nk = 0) :
    (m + 1 + nk - 1) / nk = (m + nk - 1) / nk + 1 ∧ (nk + m) / nk - 1 = (m + nk - 1) / nk := by
  rcases hnk with rfl | rfl | rfl <;> omega

theorem next_same (hnk : nk = 4 ∨ nk = 6 ∨ nk = 8) (h : (nk + m) % nk ≠ 0) :
    (m + 1 + nk - 1) / nk = (m + nk - 1) / nk := by
  rcases hnk with rfl | rfl | rfl <;> omega

theorem subWord_iff (hnk : nk = 4 ∨ nk = 6 ∨ nk = 8) :
    (4 * nk = 32 ∧ 4 * i &&& 31 = 16) ↔ 6 < nk ∧ i % nk = 4 := by
  have hmask : 4 * i &&& 31 = 4 * i % 32 := Nat.and_two_pow_sub_one_eq_mod (4 * i) 5
  rw [hmask]
  rcases hnk with rfl | rfl | rfl <;> omega

/-- Storing the right word is one more word of the expansion. -/
theorem Expanded.word_store {x : Expanding} (h : Expanded k m x) (hm : k.nk + m < 60)
    {t : Vector UInt8 4} (ht : bytesWord t = k.temp (k.nk + m) (k.expand (k.nk + m - 1))) :
    ∀ j < k.nk + (m + 1),
      word (storeWord x.keySched (4 * (k.nk + m)) (4 * (k.nk + m) - 4 * k.nk) t) j =
        k.expand j := by
  intro j hj
  have hpos := k.nk_pos
  have htt : 4 * (k.nk + m) - 4 * k.nk = 4 * m := by omega
  rw [htt, word_storeWord t hm (by omega)]
  split
  · rename_i hij
    subst hij
    have hback : k.nk + m - k.nk = m := by omega
    rw [h.word_eq m (by omega), ht, k.expand_of_le (Nat.le_add_right _ _), hback]
  · exact h.word_eq j (by omega)

theorem Expanded.step {x : Expanding} (h : Expanded k m x) (hm : k.nk + m < 60) :
    Expanded k (m + 1) (expandWord (4 * k.nk) x (4 * (k.nk + m))) := by
  have hpos := k.nk_pos
  have hlast : bytesWord (readWord x.keySched (4 * (k.nk + m) - 4)) =
      k.expand (k.nk + m - 1) := by
    have hp : 4 * (k.nk + m) - 4 = 4 * (k.nk + m - 1) := by omega
    rw [hp, bytesWord_readWord, h.word_eq _ (by omega)]
  rw [expandWord]
  by_cases hnext : (k.nk + m) % k.nk = 0
  · obtain ⟨hsucc, hrcon⟩ := next_succ k.nk_eq hnext
    have ht : bytesWord #v[sBox (readWord x.keySched (4 * (k.nk + m) - 4))[1] ^^^ x.rc, 
        sBox (readWord x.keySched (4 * (k.nk + m) - 4))[2], 
        sBox (readWord x.keySched (4 * (k.nk + m) - 4))[3],
        sBox (readWord x.keySched (4 * (k.nk + m) - 4))[0]] =
          k.temp (k.nk + m) (k.expand (k.nk + m - 1)) := by
      rw [bytesWord_rotated rfl rfl rfl rfl, hlast, Key.temp, if_pos hnext, rcon, hrcon, h.rc_eq]
    rw [if_pos (h.next_eq ▸ (next_iff k.nk_eq hm).mpr hnext)]
    refine ⟨h.word_store hm ht, ?_, ?_⟩
    · rw [h.next_eq, hsucc, Nat.mod_add_mod, ← Nat.mul_succ]
    · rw [hsucc, pow_succ', ← h.rc_eq, two_mul_byte]
  · rw [if_neg (h.next_eq ▸ fun hc ↦ hnext ((next_iff k.nk_eq hm).mp hc))]
    have hsame := next_same k.nk_eq hnext
    by_cases hsub : 4 * k.nk = 32 ∧ 4 * (k.nk + m) &&& 31 = 16
    · rw [if_pos hsub]
      refine ⟨h.word_store hm ?_, hsame ▸ h.next_eq, hsame ▸ h.rc_eq⟩
      rw [bytesWord_map, hlast, Key.temp, if_neg hnext, if_pos ((subWord_iff k.nk_eq).mp hsub)]
    · rw [if_neg hsub]
      refine ⟨h.word_store hm ?_, hsame ▸ h.next_eq, hsame ▸ h.rc_eq⟩
      rw [hlast, Key.temp, if_neg hnext, if_neg fun hc ↦ hsub ((subWord_iff k.nk_eq).mpr hc)]

theorem Expanded.run {x : Expanding} (h : Expanded k 0 x) (hm : k.nk + m ≤ 60) :
    Expanded k m
      ((List.range' (4 * k.nk) m 4).foldl (expandWord (4 * k.nk)) x) := by
  induction m with
  | zero => exact h
  | succ m ih =>
    rw [List.range'_concat, List.foldl_append, List.foldl_cons, List.foldl_nil, ← Nat.mul_add]
    exact (ih (Nat.le_of_succ_le hm)).step hm

/-! ## Calls -/

/-- A call that sets or deletes the key. -/
inductive KeyCall where
  | setKey (key : List UInt8) (keylen : ℤ)
  | clean

/-- The object after the call. -/
def Aes.perform (a : Aes) : KeyCall → Option Aes
  | .setKey key keylen => (a.setKey key keylen).map Prod.snd
  | .clean => some Aes.clean

/-- The bytes of a key in words. -/
def keyWords (key : List UInt8) (nk : ℕ) : Fin nk → Word :=
  fun i r ↦ ⟨key.getD (4 * i.val + r.val) 0⟩

/-- The key that a call sets: its length may be in bytes or in bits. -/
def KeyCall.key : KeyCall → Option Key
  | setKey key keylen =>
    if keylen = 16 ∨ keylen = 128 then some ⟨4, keyWords key 4, .inl rfl⟩
    else if keylen = 24 ∨ keylen = 192 then some ⟨6, keyWords key 6, .inr (.inl rfl)⟩
    else if keylen = 32 ∨ keylen = 256 then some ⟨8, keyWords key 8, .inr (.inr rfl)⟩
    else none
  | clean => none

theorem getD_copyKey {key : List UInt8} (hn : n ≤ 240) (h : copyKey ks key n = some ks') :
    ∀ i < n, ks'.getD i 0 = key.getD i 0 := by
  induction n generalizing ks' with
  | zero => exact fun i hi ↦ absurd hi (Nat.not_lt_zero i)
  | succ n ih =>
    rw [copyKey, List.range_succ, List.foldlM_append] at h
    obtain ⟨ks₁, hfirst, hlast⟩ := Option.bind_eq_some_iff.mp h
    obtain ⟨ks₂, hset, hend⟩ := Option.bind_eq_some_iff.mp hlast
    obtain ⟨b, hb, rfl⟩ := Option.map_eq_some_iff.mp hset
    obtain rfl := Option.some.inj hend
    intro i hi
    rw [getD_setIfInBounds b hn]
    split
    · rename_i heq
      rw [← heq, List.getD_eq_getElem?_getD, hb, Option.getD_some]
    · exact ih (Nat.le_of_succ_le hn) hfirst i (by omega)

/-- The loop of `set_key` finds the keys of all rounds. -/
theorem key_of_expanded {key : List UInt8} {a : Aes} (hwords : k.words = keyWords key k.nk)
    (hcopy : copyKey ks key (4 * k.nk) = some ks')
    (ha : a.keySched = expandKey ks' (4 * k.nk) (k.nk + 6)) {r : ℕ} (hr : r ≤ k.nk + 6) :
    a.key r = k.roundKey r := by
  have hnk : k.nk ≤ 8 := by
    rcases k.nk_eq with h | h | h <;> omega
  have hstart : Expanded k 0 ⟨ks', 4 * k.nk, 1⟩ := by
    refine ⟨fun j hj ↦ ?_, ?_, ?_⟩
    · funext r
      rw [k.expand_of_lt hj, hwords, keyWords, word]
      exact congrArg Gf256.mk (getD_copyKey (by omega) hcopy _ (by omega))
    · rcases k.nk_eq with h | h | h <;> rw [h]
    · rcases k.nk_eq with h | h | h <;> rw [h] <;> rfl
  have hcount : ((k.nk + 6 + 1) <<< 4 - 4 * k.nk) / 4 = 3 * k.nk + 28 := by
    rw [Nat.shiftLeft_eq]
    omega
  have hend := hstart.run (m := 3 * k.nk + 28) (by omega)
  rw [expandKey, hcount] at ha
  funext c row
  rw [Key.roundKey, ← hend.word_eq (4 * r + c) (by omega), ← ha]
  have hbyte : (a.roundKey r).get (cell c row) = a.keySched.getD (r * 16 + cell c row) 0 :=
    Vector.getElem_ofFn (cell c row).isLt
  have hindex : r * 16 + (cell c row).val = 4 * (4 * r + c) + row := by
    rw [cell]
    dsimp only
    omega
  rw [Aes.key, state, hbyte, hindex, word]

theorem setKey_spec {a a' : Aes} {key : List UInt8} {keylen : ℤ} {b : UInt8}
    (h : a.setKey key keylen = some (b, a')) :
    (KeyCall.setKey key keylen).key = none ∧ b = FAILURE ∧ a'.round = 0 ∨
      ∃ k, (KeyCall.setKey key keylen).key = some k ∧ b = SUCCESS ∧ a'.round = k.nk + 6 ∧
        ∀ r ≤ k.nk + 6, a'.key r = k.roundKey r := by
  rw [Aes.setKey, Aes.sizes] at h
  rw [KeyCall.key]
  split_ifs at h ⊢
  · obtain ⟨ks, hcopy, hset⟩ := Option.bind_eq_some_iff.mp h
    obtain ⟨rfl, rfl⟩ := Prod.mk.inj (Option.some.inj hset)
    exact .inr ⟨_, rfl, rfl, rfl, fun r hr ↦ key_of_expanded rfl hcopy rfl hr⟩
  · obtain ⟨ks, hcopy, hset⟩ := Option.bind_eq_some_iff.mp h
    obtain ⟨rfl, rfl⟩ := Prod.mk.inj (Option.some.inj hset)
    exact .inr ⟨_, rfl, rfl, rfl, fun r hr ↦ key_of_expanded rfl hcopy rfl hr⟩
  · obtain ⟨ks, hcopy, hset⟩ := Option.bind_eq_some_iff.mp h
    obtain ⟨rfl, rfl⟩ := Prod.mk.inj (Option.some.inj hset)
    exact .inr ⟨_, rfl, rfl, rfl, fun r hr ↦ key_of_expanded rfl hcopy rfl hr⟩
  · obtain ⟨rfl, rfl⟩ := Prod.mk.inj (Option.some.inj h)
    exact .inl ⟨rfl, rfl, rfl⟩

/-- The object encrypts and decrypts with the key. -/
structure Aes.Has (a : Aes) (k : Key) : Prop where
  round_eq : a.round = k.nk + 6
  key_eq : ∀ r ≤ k.nk + 6, a.key r = k.roundKey r

theorem perform_spec {a a' : Aes} {call : KeyCall} (h : a.perform call = some a') :
    call.key = none ∧ a'.round = 0 ∨ ∃ k, call.key = some k ∧ a'.Has k := by
  cases call with
  | setKey key keylen =>
    obtain ⟨⟨b, a₁⟩, hset, rfl⟩ := Option.map_eq_some_iff.mp h
    rcases setKey_spec hset with ⟨hkey, -, hround⟩ | ⟨k, hkey, -, hround, hkeys⟩
    · exact .inl ⟨hkey, hround⟩
    · exact .inr ⟨k, hkey, hround, hkeys⟩
  | clean =>
    obtain rfl := Option.some.inj h
    exact .inl ⟨rfl, rfl⟩

theorem Aes.Has.encryptBlock {a : Aes} (h : a.Has k) (s : Block) :
    state (a.encryptBlock s) = k.cipher (state s) := by
  rw [a.state_encryptBlock (k.nk + 5) h.round_eq, Key.cipher, cipher_congr h.key_eq]

theorem Aes.Has.decryptBlock {a : Aes} (h : a.Has k) (s : Block) :
    state (a.decryptBlock s) = k.cipher.symm (state s) := by
  rw [a.state_decryptBlock (k.nk + 5) h.round_eq, Key.cipher, cipher_congr h.key_eq]

end DuoFirmware.Crypto
