import DuoFirmware.Lib.Bytes

/-!
# The appenders

An appender puts blocks of bytes one behind the other into a buffer of its caller. `BufferAppender`
refuses a block that does not fit; `BufferAppender2` takes what fits of it and counts the rest.
-/

namespace DuoFirmware.Services

open Bytes

/-! ## Functions -/

/-- The virtual function of an appender: whether the block is accepted, and the appender after
it. -/
abbrev Appender (σ : Type) := σ → List UInt8 → BufferM (Bool × σ)

/-- A block of bytes, for each form of `append`. -/
inductive Block where
  | data (bytes : List UInt8)
  | string (s : CString)
  | char (c : UInt8)

/-- The bytes that are handed on. -/
def Block.bytes : Block → List UInt8
  | .data bs => bs
  | .string s => s.chars
  | .char c => [c]

/-- Some blocks are appended. -/
def Appender.appendAll {σ : Type} (append : Appender σ) (a : σ) :
    List Block → BufferM (List Bool × σ)
  | [] => pure ([], a)
  | b :: bs => do
    let (ok, a) ← append a b.bytes
    let (oks, a) ← appendAll append a bs
    pure (ok :: oks, a)

structure BufferAppender where
  buffer : UInt32
  end_ : UInt32
  start : UInt32

namespace BufferAppender

/-- The constructor. -/
def new (start length : UInt32) : BufferAppender := ⟨start, start + length, start⟩

def append : Appender BufferAppender := fun a data ↦ do
  if a.end_ - a.buffer ≥ UInt32.ofNat data.length then
    writeRange a.buffer.toNat data
    pure (true, { a with buffer := a.buffer + UInt32.ofNat data.length })
  else pure (false, a)

def size (a : BufferAppender) : UInt32 := a.buffer - a.start

end BufferAppender

structure BufferAppender2 where
  buf : UInt32
  bufSize : UInt32
  dataSize : UInt32

namespace BufferAppender2

/-- The constructor. -/
def new (buf size : UInt32) : BufferAppender2 := ⟨buf, size, 0⟩

def append : Appender BufferAppender2 := fun a data ↦ do
  let size := UInt32.ofNat data.length
  if a.dataSize < a.bufSize then
    let n := a.bufSize - a.dataSize
    let n := if size < n then size else n
    writeRange (a.buf + a.dataSize).toNat (data.take n.toNat)
  pure (true, { a with dataSize := a.dataSize + size })

end BufferAppender2

/-! ## What an appender holds -/

/-- A buffer that lies in memory. -/
structure InMemory (mem : List UInt8) (start length : UInt32) : Prop where
  le_length : start.toNat + length.toNat ≤ mem.length
  addressable : mem.length ≤ 4294967296

variable {mem mem' : List UInt8} {start length : UInt32} {xs data : List UInt8}

theorem toNat_ofNat_length (h : data.length < 4294967296) :
    (UInt32.ofNat data.length).toNat = data.length := UInt32.toNat_ofNat_of_lt' h

/-- **Appending to the bytes** `xs` at the start of the buffer, as far as there is room. -/
theorem InMemory.write (h : InMemory mem start length) {n : UInt32} (hn : n.toNat = xs.length)
    (hfits : xs.length + data.length ≤ length.toNat) :
    writeRange (start + n).toNat data (splice mem start.toNat xs) =
      some ((), splice mem start.toNat (xs ++ data)) := by
  rcases data with _ | ⟨d, data⟩
  · rw [List.append_nil]
    exact (if_pos (.inl rfl)).trans (by rw [splice_nil])
  · have hle := h.le_length
    have hmem := h.addressable
    rw [List.length_cons] at hfits
    have haddress : (start + n).toNat = start.toNat + xs.length := by
      rw [UInt32.toNat_add, hn]
      exact Nat.mod_eq_of_lt (by omega)
    rw [haddress, writeRange_eq (by rw [length_splice (by omega), List.length_cons]; omega),
      splice_splice (by omega)]

namespace BufferAppender

/-- The appender has put the bytes `xs` into a buffer. -/
structure Holds (start length : UInt32) (a : BufferAppender) (xs : List UInt8) : Prop where
  start_eq : a.start = start
  end_eq : a.end_ = start + length
  buffer_eq : a.buffer = start + UInt32.ofNat xs.length
  length_le : xs.length ≤ length.toNat

variable {a : BufferAppender}

theorem holds_new (start length : UInt32) : Holds start length (new start length) [] :=
  ⟨rfl, rfl, (UInt32.add_zero start).symm, Nat.zero_le _⟩

theorem Holds.length_lt (h : Holds start length a xs) : xs.length < 4294967296 :=
  h.length_le.trans_lt length.toNat_lt

theorem Holds.size (h : Holds start length a xs) : a.size.toNat = xs.length := by
  rw [BufferAppender.size, h.buffer_eq, h.start_eq, UInt32.add_comm, UInt32.add_sub_cancel,
    toNat_ofNat_length h.length_lt]

theorem Holds.room (h : Holds start length a xs) :
    (a.end_ - a.buffer).toNat = length.toNat - xs.length := by
  have hle := h.length_le
  have hlt := length.toNat_lt
  rw [h.end_eq, h.buffer_eq, UInt32.toNat_sub, UInt32.toNat_add, UInt32.toNat_add,
    toNat_ofNat_length h.length_lt]
  omega

/-- **A block** is appended if there is room for all of it, else nothing changes. -/
theorem Holds.append (h : Holds start length a xs) (hmem : InMemory mem start length)
    (data : List UInt8) (hdata : data.length < 4294967296) :
    if xs.length + data.length ≤ length.toNat then
      ∃ a', a.append data (splice mem start.toNat xs) =
        some ((true, a'), splice mem start.toNat (xs ++ data)) ∧ Holds start length a' (xs ++ data)
    else a.append data (splice mem start.toNat xs) =
      some ((false, a), splice mem start.toNat xs) := by
  have hle := h.length_le
  have hroom : a.end_ - a.buffer ≥ UInt32.ofNat data.length ↔
      xs.length + data.length ≤ length.toNat := by
    rw [ge_iff_le, UInt32.le_iff_toNat_le, h.room, toNat_ofNat_length hdata]
    omega
  split_ifs with hfits
  · refine ⟨{ a with buffer := a.buffer + UInt32.ofNat data.length }, ?_, h.start_eq, h.end_eq,
      ?_, ?_⟩
    · have hwrite := hmem.write (toNat_ofNat_length h.length_lt) hfits
      rw [← h.buffer_eq] at hwrite
      rw [BufferAppender.append, if_pos (hroom.mpr hfits), run_bind hwrite]
      rfl
    · rw [h.buffer_eq, List.length_append, UInt32.ofNat_add, UInt32.add_assoc]
    · rwa [List.length_append]
  · rw [BufferAppender.append, if_neg (fun hc ↦ hfits (hroom.mp hc))]
    rfl

/-- Blocks that fit are all accepted. -/
theorem Holds.appendAll_of_le (h : Holds start length a xs) (hmem : InMemory mem start length)
    (bs : List Block)
    (hfits : (xs ++ bs.flatMap Block.bytes).length ≤ length.toNat) :
    ∃ a', Appender.appendAll BufferAppender.append a bs (splice mem start.toNat xs) =
        some ((bs.map fun _ ↦ true, a'), splice mem start.toNat (xs ++ bs.flatMap Block.bytes)) ∧
      Holds start length a' (xs ++ bs.flatMap Block.bytes) := by
  induction bs generalizing a xs with
  | nil =>
    rw [List.flatMap_nil, List.append_nil]
    exact ⟨a, rfl, h⟩
  | cons b bs ih =>
    rw [List.flatMap_cons, ← List.append_assoc] at hfits ⊢
    have hlt := length.toNat_lt
    rw [List.length_append, List.length_append] at hfits
    have hb := h.append hmem b.bytes (by omega)
    rw [if_pos (by omega)] at hb
    obtain ⟨a₁, happend, h₁⟩ := hb
    obtain ⟨a', hrest, h'⟩ := ih h₁ (by rwa [List.length_append, List.length_append])
    refine ⟨a', ?_, h'⟩
    rw [Appender.appendAll, run_bind happend]
    dsimp only
    rw [run_bind hrest]
    rfl

/-- Whatever blocks are accepted, the appender holds them. -/
theorem Holds.appendAll {bs : List Block} (h : Holds start length a xs)
    (hmem : InMemory mem start length) (hbs : ∀ b ∈ bs, b.bytes.length < 4294967296) :
    ∃ oks a' ys, Appender.appendAll BufferAppender.append a bs (splice mem start.toNat xs) =
        some ((oks, a'), splice mem start.toNat ys) ∧ Holds start length a' ys := by
  induction bs generalizing a xs with
  | nil => exact ⟨[], a, xs, rfl, h⟩
  | cons b bs ih =>
    obtain ⟨hblock, hrest⟩ := List.forall_mem_cons.mp hbs
    obtain ⟨ok, a₁, ys₁, happend, h₁⟩ : ∃ ok a₁ ys₁,
        BufferAppender.append a b.bytes (splice mem start.toNat xs) =
          some ((ok, a₁), splice mem start.toNat ys₁) ∧ Holds start length a₁ ys₁ := by
      have hb := h.append hmem b.bytes hblock
      split_ifs at hb
      · obtain ⟨a₁, happend, h₁⟩ := hb
        exact ⟨true, a₁, _, happend, h₁⟩
      · exact ⟨false, a, xs, hb, h⟩
    obtain ⟨oks, a', ys, hrun, h'⟩ := ih h₁ hrest
    refine ⟨ok :: oks, a', ys, ?_, h'⟩
    rw [Appender.appendAll, run_bind happend]
    dsimp only
    rw [run_bind hrun]
    rfl

end BufferAppender

namespace BufferAppender2

/-- The appender has seen the bytes `xs`. -/
structure Holds (buf size : UInt32) (a : BufferAppender2) (xs : List UInt8) : Prop where
  buf_eq : a.buf = buf
  bufSize_eq : a.bufSize = size
  dataSize_eq : a.dataSize.toNat = xs.length

variable {a : BufferAppender2}

theorem holds_new (buf size : UInt32) : Holds buf size (new buf size) [] := ⟨rfl, rfl, rfl⟩

/-- **A block** is written as far as there is room for it, and counted. -/
theorem Holds.append (h : Holds start length a xs) (hmem : InMemory mem start length)
    (data : List UInt8) (htotal : (xs ++ data).length < 4294967296) :
    ∃ a', a.append data (splice mem start.toNat (xs.take length.toNat)) =
        some ((true, a'), splice mem start.toNat ((xs ++ data).take length.toNat)) ∧
      Holds start length a' (xs ++ data) := by
  have hlength : (xs ++ data).length = xs.length + data.length := List.length_append
  have hlt : data.length < 4294967296 := by omega
  have hdata := toNat_ofNat_length hlt
  have hcount : (a.dataSize + UInt32.ofNat data.length).toNat = (xs ++ data).length := by
    rw [UInt32.toNat_add, hdata, h.dataSize_eq, ← hlength]
    exact Nat.mod_eq_of_lt htotal
  have hlt : a.dataSize < a.bufSize ↔ xs.length < length.toNat := by
    rw [UInt32.lt_iff_toNat_lt, h.dataSize_eq, h.bufSize_eq]
  refine ⟨{ a with dataSize := a.dataSize + UInt32.ofNat data.length }, ?_, h.buf_eq,
    h.bufSize_eq, hcount⟩
  rw [BufferAppender2.append]
  by_cases hroom : xs.length < length.toNat
  · have hle : a.dataSize ≤ a.bufSize := UInt32.le_of_lt (hlt.mpr hroom)
    have hfree : (a.bufSize - a.dataSize).toNat = length.toNat - xs.length := by
      rw [UInt32.toNat_sub_of_le _ _ hle, h.dataSize_eq, h.bufSize_eq]
    -- The smaller one of the two numbers cuts the block like the room that there is.
    have hcut : data.take (if UInt32.ofNat data.length < a.bufSize - a.dataSize then
        UInt32.ofNat data.length else a.bufSize - a.dataSize).toNat =
          data.take (length.toNat - xs.length) := by
      split_ifs with hsmall
      · rw [UInt32.lt_iff_toNat_lt, hdata, hfree] at hsmall
        rw [hdata, List.take_length, List.take_of_length_le hsmall.le]
      · rw [hfree]
    have hcutLength : xs.length + (data.take (length.toNat - xs.length)).length ≤ length.toNat := by
      rw [List.length_take]
      omega
    have hwrite := hmem.write h.dataSize_eq hcutLength
    rw [← h.buf_eq] at hwrite
    rw [if_pos (hlt.mpr hroom), List.take_of_length_le hroom.le, List.take_append,
      List.take_of_length_le hroom.le]
    dsimp only
    rw [hcut, ← h.buf_eq, run_bind hwrite]
    rfl
  · rw [if_neg (fun hc ↦ hroom (hlt.mp hc)),
      List.take_append_of_le_length (not_lt.mp hroom)]
    rfl

/-- **Some blocks**: none is refused, and the first bytes of them all are in the buffer. -/
theorem Holds.appendAll (h : Holds start length a xs) (hmem : InMemory mem start length)
    (bs : List Block) (htotal : (xs ++ bs.flatMap Block.bytes).length < 4294967296) :
    ∃ a', Appender.appendAll BufferAppender2.append a bs
          (splice mem start.toNat (xs.take length.toNat)) =
        some ((bs.map fun _ ↦ true, a'),
          splice mem start.toNat ((xs ++ bs.flatMap Block.bytes).take length.toNat)) ∧
      Holds start length a' (xs ++ bs.flatMap Block.bytes) := by
  induction bs generalizing a xs with
  | nil =>
    rw [List.flatMap_nil, List.append_nil]
    exact ⟨a, rfl, h⟩
  | cons b bs ih =>
    rw [List.flatMap_cons, ← List.append_assoc] at htotal ⊢
    have hblock : (xs ++ b.bytes).length < 4294967296 := by
      rw [List.length_append] at htotal
      omega
    obtain ⟨a₁, happend, h₁⟩ := h.append hmem b.bytes hblock
    obtain ⟨a', hrest, h'⟩ := ih h₁ htotal
    refine ⟨a', ?_, h'⟩
    rw [Appender.appendAll, run_bind happend]
    dsimp only
    rw [run_bind hrest]
    rfl

end BufferAppender2

/-- **The two appenders**, for blocks whose bytes can be counted, in every buffer:
`BufferAppender2` leaves as much of their bytes in the buffer as fits and counts them all. As long
as everything fits, `BufferAppender` accepts every block, and leaves the same memory and counts the
same bytes. After any blocks, it accepts exactly the ones that fit in the room left, and one that
it refuses changes nothing. -/
theorem appenders_agree (mem : List UInt8) (start length : UInt32)
    (hmem : InMemory mem start length) (bs : List Block)
    (htotal : (bs.flatMap Block.bytes).length < 4294967296) :
    (∃ a₂, Appender.appendAll BufferAppender2.append (.new start length) bs mem =
        some ((bs.map fun _ ↦ true, a₂),
          splice mem start.toNat ((bs.flatMap Block.bytes).take length.toNat)) ∧
      a₂.dataSize.toNat = (bs.flatMap Block.bytes).length ∧
      ((bs.flatMap Block.bytes).length ≤ length.toNat →
        ∃ a, Appender.appendAll BufferAppender.append (.new start length) bs mem =
            some ((bs.map fun _ ↦ true, a), splice mem start.toNat (bs.flatMap Block.bytes)) ∧
          a.size = a₂.dataSize)) ∧
    ∃ oks a ys, Appender.appendAll BufferAppender.append (.new start length) bs mem =
        some ((oks, a), splice mem start.toNat ys) ∧ a.size.toNat = ys.length ∧
      ∀ b : Block, b.bytes.length < 4294967296 →
        if ys.length + b.bytes.length ≤ length.toNat then
          ∃ a', a.append b.bytes (splice mem start.toNat ys) =
              some ((true, a'), splice mem start.toNat (ys ++ b.bytes)) ∧
            a'.size.toNat = (ys ++ b.bytes).length
        else a.append b.bytes (splice mem start.toNat ys) =
          some ((false, a), splice mem start.toNat ys) := by
  have hblocks : ∀ b ∈ bs, b.bytes.length < 4294967296 := by
    intro b hb
    obtain ⟨cs, ds, rfl⟩ := List.append_of_mem hb
    rw [List.flatMap_append, List.flatMap_cons, List.length_append, List.length_append] at htotal
    omega
  refine ⟨?_, ?_⟩
  · obtain ⟨a₂, hrun₂, h₂⟩ := (BufferAppender2.holds_new start length).appendAll hmem bs
      htotal
    rw [List.take_nil, splice_nil] at hrun₂
    refine ⟨a₂, hrun₂, h₂.dataSize_eq, fun hfits ↦ ?_⟩
    obtain ⟨a, hrun, h⟩ := (BufferAppender.holds_new start length).appendAll_of_le hmem
      bs hfits
    rw [splice_nil] at hrun
    exact ⟨a, hrun, UInt32.toNat_inj.mp (h.size.trans h₂.dataSize_eq.symm)⟩
  · obtain ⟨oks, a, ys, hrun, h⟩ := (BufferAppender.holds_new start length).appendAll hmem hblocks
    rw [splice_nil] at hrun
    refine ⟨oks, a, ys, hrun, h.size, fun b hb ↦ ?_⟩
    have happend := h.append hmem b.bytes hb
    split_ifs at happend ⊢
    · obtain ⟨a', hb', h'⟩ := happend
      exact ⟨a', hb', h'.size⟩
    · exact happend

/-- A block that does not fit behind the first one, and one that does. -/
def threeBlocks : List Block := [.data [1, 2, 3], .data [4, 5, 6], .char 7]

theorem appenders_agree_threeBlocks :
    (∃ a₂, Appender.appendAll BufferAppender2.append (.new 2 5) threeBlocks
        (List.replicate 8 0) = some ((threeBlocks.map fun _ ↦ true, a₂),
          splice (List.replicate 8 0) 2 ((threeBlocks.flatMap Block.bytes).take 5)) ∧
      a₂.dataSize.toNat = (threeBlocks.flatMap Block.bytes).length ∧
      ((threeBlocks.flatMap Block.bytes).length ≤ 5 →
        ∃ a, Appender.appendAll BufferAppender.append (.new 2 5) threeBlocks
            (List.replicate 8 0) = some ((threeBlocks.map fun _ ↦ true, a),
              splice (List.replicate 8 0) 2 (threeBlocks.flatMap Block.bytes)) ∧
          a.size = a₂.dataSize)) ∧
    ∃ oks a ys, Appender.appendAll BufferAppender.append (.new 2 5) threeBlocks
        (List.replicate 8 0) = some ((oks, a), splice (List.replicate 8 0) 2 ys) ∧
      a.size.toNat = ys.length ∧
      ∀ b : Block, b.bytes.length < 4294967296 →
        if ys.length + b.bytes.length ≤ 5 then
          ∃ a', a.append b.bytes (splice (List.replicate 8 0) 2 ys) =
              some ((true, a'), splice (List.replicate 8 0) 2 (ys ++ b.bytes)) ∧
            a'.size.toNat = (ys ++ b.bytes).length
        else a.append b.bytes (splice (List.replicate 8 0) 2 ys) =
          some ((false, a), splice (List.replicate 8 0) 2 ys) :=
  appenders_agree (List.replicate 8 0) 2 5 ⟨by decide, by decide⟩ threeBlocks (by decide)

/-- The block in the middle is refused. -/
example : (Appender.appendAll BufferAppender.append (.new 2 5)
    [.data [1, 2, 3], .data [4, 5, 6], .char 7] (List.replicate 8 0)).map (fun r ↦ (r.1.1, r.2)) =
      some ([true, false, true], [0, 0, 1, 2, 3, 7, 0, 0]) := by decide

end DuoFirmware.Services
