import Mathlib.Tactic

/-!
# The contents of a NOR flash device

A device is a map from addresses to bytes. Erasing a range sets every byte of it to `0xFF`;
programming can only clear bits, so it is the bitwise *and* of what was there and what is
written. Both are total functions on the whole address space: an erased byte is a unit for
programming, which is what lets a short write be extended by `0xFF` without saying where it ends.

Facts about a range of addresses are stated pointwise with linear side conditions, so that a
caller closes them by arithmetic.
-/

namespace NorFlash

/-- The bytes of a device, by address. -/
abbrev Memory := ℕ → UInt8

@[simp] theorem and_erased (b : UInt8) : b &&& 0xFF = b := by
  apply UInt8.toBitVec_inj.mp
  rw [UInt8.toBitVec_and]
  exact BitVec.and_allOnes

@[simp] theorem erased_and (b : UInt8) : 0xFF &&& b = b := by
  rw [UInt8.and_comm, and_erased]

namespace Memory

/-- A device that has never been written. -/
def blank : Memory := fun _ ↦ 0xFF

/-! ## Programming and erasing -/

/-- Program `bytes` from address `a` on: each byte is and-ed in. -/
def program (mem : Memory) (a : ℕ) (bytes : List UInt8) : Memory := fun x ↦
  if x < a then mem x else mem x &&& bytes[x - a]?.getD 0xFF

/-- Set the range `[lo, hi)` to `0xFF`. -/
def erase (mem : Memory) (lo hi : ℕ) : Memory := fun x ↦
  if lo ≤ x ∧ x < hi then 0xFF else mem x

/-- The `n` bytes from address `a` on. -/
def bytes (mem : Memory) (a n : ℕ) : List UInt8 := (List.range n).map fun i ↦ mem (a + i)

/-- The two memories differ at most in `[lo, hi)`. -/
def DiffersIn (lo hi : ℕ) (mem mem' : Memory) : Prop := ∀ x, x < lo ∨ hi ≤ x → mem' x = mem x

/-- Every byte of `[lo, hi)` is erased. -/
def Erased (lo hi : ℕ) (mem : Memory) : Prop := ∀ x, lo ≤ x → x < hi → mem x = 0xFF

@[simp] theorem program_nil (mem : Memory) (a : ℕ) : mem.program a [] = mem := by
  funext x
  simp [program]

theorem program_cons (mem : Memory) (a : ℕ) (b : UInt8) (bs : List UInt8) :
    mem.program a (b :: bs) = (mem.program a [b]).program (a + 1) bs := by
  funext x
  rcases Nat.lt_trichotomy x a with h | rfl | h
  · simp [program, h, show x < a + 1 by omega]
  · simp [program]
  · obtain ⟨d, rfl⟩ : ∃ d, x = a + 1 + d := ⟨x - a - 1, by omega⟩
    have h1 : a + 1 + d - a = d + 1 := by omega
    have h2 : a + 1 + d - (a + 1) = d := by omega
    have h3 : ¬ a + 1 + d < a := by omega
    have h4 : ¬ a + 1 + d ≤ a := by omega
    simp [program, h1, h2, h3, h4]

theorem program_append (mem : Memory) (a : ℕ) (bs cs : List UInt8) :
    mem.program a (bs ++ cs) = (mem.program a bs).program (a + bs.length) cs := by
  induction bs generalizing mem a with
  | nil => simp
  | cons b bs ih =>
    rw [List.cons_append, program_cons, ih, program_cons mem a b bs, List.length_cons]
    congr 1
    omega

/-- Only the bytes under the data change. -/
theorem program_apply_of_not_mem {mem : Memory} {a x : ℕ} {bs : List UInt8}
    (h : x < a ∨ a + bs.length ≤ x) : mem.program a bs x = mem x := by
  rcases h with h | h
  · simp [program, h]
  · have hx : bs.length ≤ x - a := by omega
    have hlt : ¬ x < a := by omega
    rw [program, if_neg hlt, List.getElem?_eq_none hx, Option.getD_none, and_erased]

theorem program_apply (mem : Memory) (a i : ℕ) (bs : List UInt8) :
    mem.program a bs (a + i) = mem (a + i) &&& bs[i]?.getD 0xFF := by
  have hlt : ¬ a + i < a := by omega
  rw [program, if_neg hlt, Nat.add_sub_cancel_left]

/-- Programming `0xFF` does nothing. -/
theorem program_replicate (mem : Memory) (a n : ℕ) :
    mem.program a (List.replicate n 0xFF) = mem := by
  funext x
  have hget : (List.replicate n (0xFF : UInt8))[x - a]?.getD 0xFF = 0xFF := by
    rw [List.getElem?_replicate]
    split <;> rfl
  rw [program, hget, and_erased, ite_self]

theorem program_differsIn (mem : Memory) (a : ℕ) (bs : List UInt8) :
    DiffersIn a (a + bs.length) mem (mem.program a bs) :=
  fun _ hx ↦ program_apply_of_not_mem hx

theorem erase_differsIn (mem : Memory) (lo hi : ℕ) : DiffersIn lo hi mem (mem.erase lo hi) := by
  intro x hx
  exact if_neg (by omega)

theorem erase_erased (mem : Memory) (lo hi : ℕ) : Erased lo hi (mem.erase lo hi) := by
  intro x h1 h2
  exact if_pos ⟨h1, h2⟩

/-! ## Reading back -/

@[simp] theorem length_bytes (mem : Memory) (a n : ℕ) : (mem.bytes a n).length = n := by
  simp [bytes]

theorem bytes_congr {mem mem' : Memory} {a n : ℕ}
    (h : ∀ x, a ≤ x → x < a + n → mem' x = mem x) : mem'.bytes a n = mem.bytes a n := by
  refine List.map_congr_left fun i hi ↦ ?_
  have := List.mem_range.mp hi
  exact h _ (by omega) (by omega)

theorem bytes_succ (mem : Memory) (a n : ℕ) :
    mem.bytes a (n + 1) = mem a :: mem.bytes (a + 1) n := by
  simp [bytes, List.range_succ_eq_map, Function.comp_def, Nat.add_left_comm, Nat.add_comm]

theorem bytes_add (mem : Memory) (a m n : ℕ) :
    mem.bytes a (m + n) = mem.bytes a m ++ mem.bytes (a + m) n := by
  simp [bytes, List.range_add, Function.comp_def, Nat.add_assoc]

theorem bytes_take (mem : Memory) (a : ℕ) {m n : ℕ} (h : m ≤ n) :
    (mem.bytes a n).take m = mem.bytes a m := by
  obtain ⟨k, rfl⟩ := Nat.exists_eq_add_of_le h
  rw [bytes_add, List.take_left' (length_bytes mem a m)]

theorem bytes_drop (mem : Memory) (a : ℕ) {m n : ℕ} (h : m ≤ n) :
    (mem.bytes a n).drop m = mem.bytes (a + m) (n - m) := by
  obtain ⟨k, rfl⟩ := Nat.exists_eq_add_of_le h
  rw [bytes_add, List.drop_left' (length_bytes mem a m), Nat.add_sub_cancel_left]

/-- What is programmed over erased bytes reads back as it was written. -/
theorem bytes_program_of_erased {mem : Memory} {a : ℕ} {bs : List UInt8}
    (h : Erased a (a + bs.length) mem) : (mem.program a bs).bytes a bs.length = bs := by
  refine List.ext_getElem (by simp) fun i h1 h2 ↦ ?_
  simp [bytes, program_apply, h (a + i) (by omega) (by omega), List.getElem?_eq_getElem h2]

/-- Programming a range that is read back, byte by byte. -/
theorem bytes_program (mem : Memory) (a n : ℕ) (bs : List UInt8) :
    (mem.program a bs).bytes a n =
      (List.range n).map fun i ↦ (mem.bytes a n)[i]?.getD 0xFF &&& bs[i]?.getD 0xFF := by
  refine List.map_congr_left fun i hi ↦ ?_
  have hi := List.mem_range.mp hi
  rw [program_apply]
  simp [bytes, hi]

theorem bytes_of_erased {mem : Memory} {a n : ℕ} (h : Erased a (a + n) mem) :
    mem.bytes a n = List.replicate n 0xFF := by
  refine List.ext_getElem (by simp) fun i h1 h2 ↦ ?_
  rw [length_bytes] at h1
  simp [bytes, h (a + i) (by omega) (by omega)]

/-! ## Frames -/

namespace DiffersIn

variable {lo hi lo' hi' : ℕ} {m₀ m₁ m₂ : Memory}

theorem refl (lo hi : ℕ) (mem : Memory) : DiffersIn lo hi mem mem := fun _ _ ↦ rfl

theorem trans (h₁ : DiffersIn lo hi m₀ m₁) (h₂ : DiffersIn lo hi m₁ m₂) :
    DiffersIn lo hi m₀ m₂ := fun x hx ↦ (h₂ x hx).trans (h₁ x hx)

theorem mono (h : DiffersIn lo hi m₀ m₁) (hlo : lo' ≤ lo) (hhi : hi ≤ hi') :
    DiffersIn lo' hi' m₀ m₁ := fun x hx ↦ h x (by omega)

/-- A range apart from the changed one stays erased. -/
theorem erased (h : DiffersIn lo hi m₀ m₁) (he : Erased lo' hi' m₀)
    (hd : hi' ≤ lo ∨ hi ≤ lo') : Erased lo' hi' m₁ := fun x h1 h2 ↦ by
  rw [h x (by omega), he x h1 h2]

end DiffersIn

theorem Erased.mono {lo hi lo' hi' : ℕ} {mem : Memory} (h : Erased lo hi mem)
    (hlo : lo ≤ lo') (hhi : hi' ≤ hi) : Erased lo' hi' mem :=
  fun x h1 h2 ↦ h x (by omega) (by omega)

/-! ## Little-endian words -/

/-- The 16-bit word stored at `a`, low byte first. -/
def word16 (mem : Memory) (a : ℕ) : ℕ := (mem a).toNat + 256 * (mem (a + 1)).toNat

/-- The 32-bit word stored at `a`, low byte first. -/
def word32 (mem : Memory) (a : ℕ) : ℕ := mem.word16 a + 65536 * mem.word16 (a + 2)

theorem word16_congr {mem mem' : Memory} {a : ℕ} (h : ∀ x, a ≤ x → x < a + 2 → mem' x = mem x) :
    mem'.word16 a = mem.word16 a := by
  rw [word16, word16, h a (by omega) (by omega), h (a + 1) (by omega) (by omega)]

theorem word32_congr {mem mem' : Memory} {a : ℕ} (h : ∀ x, a ≤ x → x < a + 4 → mem' x = mem x) :
    mem'.word32 a = mem.word32 a := by
  rw [word32, word32, word16_congr fun x h1 h2 ↦ h x h1 (by omega),
    word16_congr fun x h1 h2 ↦ h x (by omega) (by omega)]

end Memory

/-- The bytes of a 16-bit word, low byte first. -/
def le16 (n : ℕ) : List UInt8 := [.ofNat n, .ofNat (n / 256)]

/-- The bytes of a 32-bit word, low byte first. -/
def le32 (n : ℕ) : List UInt8 :=
  [.ofNat n, .ofNat (n / 256), .ofNat (n / 65536), .ofNat (n / 16777216)]

@[simp] theorem length_le16 (n : ℕ) : (le16 n).length = 2 := rfl

@[simp] theorem length_le32 (n : ℕ) : (le32 n).length = 4 := rfl

namespace Memory

/-- A word is determined by its bytes and determines them. -/
theorem word32_eq_iff {mem : Memory} {a n : ℕ} (h : n < 4294967296) :
    mem.word32 a = n ↔ mem.bytes a 4 = le32 n := by
  have b0 := (mem a).toNat_lt
  have b1 := (mem (a + 1)).toNat_lt
  have b2 := (mem (a + 2)).toNat_lt
  have b3 := (mem (a + 3)).toNat_lt
  have hbytes : mem.bytes a 4 = [mem a, mem (a + 1), mem (a + 2), mem (a + 3)] := by
    simp [bytes, List.range_succ]
  rw [hbytes, le32, word32, word16, word16]
  simp only [List.cons.injEq, and_true, ← UInt8.toNat_inj, UInt8.toNat_ofNat', Nat.add_assoc,
    Nat.reduceAdd]
  omega

end Memory

end NorFlash
