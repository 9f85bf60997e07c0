import DuoFirmware.Lib.RingBuffer

/-!
# The helpers for ring buffers

The functions of `ringbuf_helper.h` compute with the indices of a circular buffer that belongs to
their caller: one of its bytes stays free, so that equal indices mean an empty buffer. A caller
copies at most `ringSpaceContig` bytes to `head`, or at most `ringDataContig` bytes from `tail`,
and moves that index on with `ringWrap`.
-/

namespace DuoFirmware.Services

open RingBuffer

/-! ## Functions -/

def ringWrap (size idx : UInt32) : UInt32 := if idx ≥ size then idx - size else idx

/-- The number of bytes in the buffer. -/
def ringDataAvail (size head tail : UInt32) : UInt32 :=
  if head ≥ tail then head - tail else size + head - tail

/-- The number of free bytes. -/
def ringSpaceAvail (size head tail : UInt32) : UInt32 :=
  if size = 0 then 0 else size - ringDataAvail size head tail - 1

/-- The number of bytes in the buffer up to its end. -/
def ringDataContig (size head tail : UInt32) : UInt32 :=
  if head ≥ tail then head - tail else size - tail

/-- The number of free bytes up to the end of the buffer. -/
def ringSpaceContig (size head tail : UInt32) : UInt32 :=
  if size = 0 then 0
  else if head ≥ tail then (if tail ≠ 0 then size else size - 1) - head
  else tail - head - 1

/-- The number of free bytes at the start of the buffer, after those up to its end. -/
def ringSpaceWrapped (size head tail : UInt32) : UInt32 :=
  if size = 0 then 0 else if head < tail ∨ tail = 0 then 0 else tail - 1

/-! ## What they compute

No sum or difference of indices below `size` leaves the 32 bits of the result. -/

section

variable {size head tail : UInt32}

theorem toNat_ringWrap {n : UInt32} (h : head.toNat + n.toNat ≤ size.toNat) :
    (ringWrap size (head + n)).toNat = (head.toNat + n.toNat) % size.toNat := by
  have hsize := size.toNat_lt
  have hsum : (head + n).toNat = head.toNat + n.toNat := by
    rw [UInt32.toNat_add]
    exact Nat.mod_eq_of_lt (by omega)
  rw [ringWrap]
  split_ifs with hwrap
  · rw [ge_iff_le, UInt32.le_iff_toNat_le, hsum] at hwrap
    rw [UInt32.toNat_sub_of_le _ _ (UInt32.le_iff_toNat_le.mpr (hsum ▸ hwrap)), hsum,
      show head.toNat + n.toNat = size.toNat by omega, Nat.sub_self, Nat.mod_self]
  · rw [ge_iff_le, UInt32.le_iff_toNat_le, hsum] at hwrap
    rw [hsum, Nat.mod_eq_of_lt (by omega)]

theorem toNat_ringDataAvail (hhead : head < size) (htail : tail < size) :
    (ringDataAvail size head tail).toNat =
      if tail.toNat ≤ head.toNat then head.toNat - tail.toNat
      else size.toNat + head.toNat - tail.toNat := by
  have hsize := size.toNat_lt
  rw [UInt32.lt_iff_toNat_lt] at hhead htail
  rw [ringDataAvail]
  simp only [ge_iff_le, UInt32.le_iff_toNat_le]
  split_ifs with h
  · exact UInt32.toNat_sub_of_le _ _ (UInt32.le_iff_toNat_le.mpr h)
  · rw [UInt32.toNat_sub, UInt32.toNat_add]
    omega

theorem toNat_ringDataContig (htail : tail < size) :
    (ringDataContig size head tail).toNat =
      if tail.toNat ≤ head.toNat then head.toNat - tail.toNat else size.toNat - tail.toNat := by
  rw [UInt32.lt_iff_toNat_lt] at htail
  rw [ringDataContig]
  simp only [ge_iff_le, UInt32.le_iff_toNat_le]
  split_ifs with h
  · exact UInt32.toNat_sub_of_le _ _ (UInt32.le_iff_toNat_le.mpr h)
  · exact UInt32.toNat_sub_of_le _ _ (UInt32.le_iff_toNat_le.mpr htail.le)

theorem ne_zero_of_lt (hhead : head < size) : size ≠ 0 := by
  rintro rfl
  exact UInt32.not_lt_zero hhead

theorem toNat_ringSpaceAvail (hhead : head < size) (htail : tail < size) :
    (ringSpaceAvail size head tail).toNat =
      size.toNat - 1 - (ringDataAvail size head tail).toNat := by
  have havail := toNat_ringDataAvail hhead htail
  have hsize := size.toNat_lt
  rw [ringSpaceAvail, if_neg (ne_zero_of_lt hhead)]
  rw [UInt32.lt_iff_toNat_lt] at hhead htail
  rw [UInt32.toNat_sub, UInt32.toNat_sub, UInt32.toNat_one]
  split_ifs at havail <;> omega

theorem toNat_ringSpaceContig (hhead : head < size) :
    (ringSpaceContig size head tail).toNat =
      if tail.toNat ≤ head.toNat then
        (if tail.toNat = 0 then size.toNat - 1 else size.toNat) - head.toNat
      else tail.toNat - head.toNat - 1 := by
  have hsize := size.toNat_lt
  have htail := tail.toNat_lt
  rw [ringSpaceContig, if_neg (ne_zero_of_lt hhead)]
  rw [UInt32.lt_iff_toNat_lt] at hhead
  simp only [ge_iff_le, UInt32.le_iff_toNat_le, ne_eq, ← UInt32.toNat_inj, UInt32.toNat_zero,
    ite_not]
  split_ifs
  · rw [UInt32.toNat_sub, UInt32.toNat_sub, UInt32.toNat_one]
    omega
  · rw [UInt32.toNat_sub]
    omega
  · rw [UInt32.toNat_sub, UInt32.toNat_sub, UInt32.toNat_one]
    omega

theorem toNat_ringSpaceWrapped (hhead : head < size) :
    (ringSpaceWrapped size head tail).toNat =
      if tail.toNat ≤ head.toNat then tail.toNat - 1 else 0 := by
  have htail := tail.toNat_lt
  rw [ringSpaceWrapped, if_neg (ne_zero_of_lt hhead)]
  simp only [UInt32.lt_iff_toNat_lt, ← UInt32.toNat_inj, UInt32.toNat_zero]
  split_ifs with hempty hle hle
  · rw [UInt32.toNat_zero]
    omega
  · rfl
  · rw [UInt32.toNat_sub, UInt32.toNat_one]
    omega
  · omega

/-- The bytes in the buffer and the free ones are all but one. -/
theorem ringDataAvail_add_ringSpaceAvail (hhead : head < size) (htail : tail < size) :
    (ringDataAvail size head tail).toNat + (ringSpaceAvail size head tail).toNat =
      size.toNat - 1 := by
  rw [toNat_ringSpaceAvail hhead htail, toNat_ringDataAvail hhead htail]
  rw [UInt32.lt_iff_toNat_lt] at hhead htail
  split_ifs <;> omega

/-- The free bytes are those up to the end of the buffer and those at its start. -/
theorem ringSpaceContig_add_ringSpaceWrapped (hhead : head < size) (htail : tail < size) :
    (ringSpaceAvail size head tail).toNat =
      (ringSpaceContig size head tail).toNat + (ringSpaceWrapped size head tail).toNat := by
  rw [toNat_ringSpaceAvail hhead htail, toNat_ringDataAvail hhead htail,
    toNat_ringSpaceContig hhead, toNat_ringSpaceWrapped hhead]
  rw [UInt32.lt_iff_toNat_lt] at hhead htail
  split_ifs <;> omega

end

/-! ## Producing and consuming -/

/-- A ring buffer: the numbers its owner keeps, and its bytes, with nothing in those that have not
been written. -/
structure Ring (T : Type) where
  size : UInt32
  head : UInt32
  tail : UInt32
  cells : List (Option T)

inductive RingStep (T : Type) where
  | produce (bytes : List T)
  | consume (n : UInt32)

namespace Ring

variable {T : Type}

/-- Some bytes are copied to `head`. -/
def produce (r : Ring T) (bytes : List T) : Option (Ring T) := do
  let cells ← writeBlock r.cells r.head.toNat bytes
  some { r with cells := cells, head := ringWrap r.size (r.head + UInt32.ofNat bytes.length) }

/-- `n` bytes are copied from `tail`. -/
def consume (r : Ring T) (n : UInt32) : Option (List T × Ring T) := do
  let bytes ← readBlock r.cells r.tail.toNat n.toNat
  some (bytes, { r with tail := ringWrap r.size (r.tail + n) })

/-- A step, and the bytes that come out. -/
def step (r : Ring T) : RingStep T → Option (List T × Ring T)
  | .produce bytes => (r.produce bytes).map fun r' ↦ ([], r')
  | .consume n => r.consume n

def run (r : Ring T) : List (RingStep T) → Option (List T × Ring T)
  | [] => some ([], r)
  | s :: ss => do
    let (out, r) ← r.step s
    let (outs, r') ← r.run ss
    some (out ++ outs, r')

/-- A step that keeps to the contiguous bytes. -/
def Permits (r : Ring T) : RingStep T → Prop
  | .produce bytes => bytes.length ≤ (ringSpaceContig r.size r.head r.tail).toNat
  | .consume n => n ≤ ringDataContig r.size r.head r.tail

instance (r : Ring T) : DecidablePred r.Permits
  | .produce _ => Nat.decLe _ _
  | .consume n => inferInstanceAs (Decidable (n ≤ ringDataContig r.size r.head r.tail))

/-- Each of some steps keeps to the contiguous bytes of the state that it finds. -/
def Along (r : Ring T) : List (RingStep T) → Prop
  | [] => True
  | s :: ss => r.Permits s ∧ ∀ p ∈ r.step s, p.2.Along ss

def decidableAlong : (ss : List (RingStep T)) → (r : Ring T) → Decidable (r.Along ss)
  | [], _ => inferInstanceAs (Decidable True)
  | s :: ss, r =>
    have : DecidablePred fun p : List T × Ring T ↦ p.2.Along ss := fun p ↦ decidableAlong ss p.2
    inferInstanceAs (Decidable (r.Permits s ∧ ∀ p ∈ r.step s, p.2.Along ss))

instance (r : Ring T) : DecidablePred r.Along := fun ss ↦ decidableAlong ss r

/-- The bytes that go in. -/
def produced : List (RingStep T) → List T
  | [] => []
  | .produce bytes :: ss => bytes ++ produced ss
  | .consume _ :: ss => produced ss

/-- Where the bytes are that have not come out yet. -/
def unread (r : Ring T) : List ℕ :=
  (List.range (ringDataAvail r.size r.head r.tail).toNat).map
    fun i ↦ (r.tail.toNat + i) % r.size.toNat

/-- **The contents**: the bytes between `tail` and `head`. -/
structure Holds (r : Ring T) (xs : List T) : Prop where
  length_cells : r.cells.length = r.size.toNat
  head_lt : r.head < r.size
  tail_lt : r.tail < r.size
  length_eq : xs.length = (ringDataAvail r.size r.head r.tail).toNat
  window : Window r.cells r.tail.toNat xs

variable {r r' : Ring T} {xs ys bytes : List T}

/-- The first free byte is the one at `head`. -/
theorem Holds.head_eq (h : Holds r xs) :
    (r.tail.toNat + xs.length) % r.size.toNat = r.head.toNat := by
  have hhead := UInt32.lt_iff_toNat_lt.mp h.head_lt
  have htail := UInt32.lt_iff_toNat_lt.mp h.tail_lt
  rw [h.length_eq, toNat_ringDataAvail h.head_lt h.tail_lt]
  split_ifs with hle
  · rw [Nat.add_sub_cancel' hle, Nat.mod_eq_of_lt hhead]
  · rw [Nat.add_sub_cancel' (by omega), Nat.add_mod_left, Nat.mod_eq_of_lt hhead]

/-- Where the indices and the number of bytes fit together, the number is the one computed. -/
theorem length_of_head_eq {n : ℕ} (hhead : r.head < r.size) (htail : r.tail < r.size)
    (hn : n < r.size.toNat) (h : (r.tail.toNat + n) % r.size.toNat = r.head.toNat) :
    n = (ringDataAvail r.size r.head r.tail).toNat := by
  rw [toNat_ringDataAvail hhead htail]
  rw [UInt32.lt_iff_toNat_lt] at hhead htail
  rcases Nat.lt_or_ge (r.tail.toNat + n) r.size.toNat with hlt | hge
  · rw [Nat.mod_eq_of_lt hlt] at h
    split_ifs <;> omega
  · rw [Nat.mod_eq_sub_mod hge, Nat.mod_eq_of_lt (by omega)] at h
    split_ifs <;> omega

theorem Holds.length_lt (h : Holds r xs) : xs.length < r.size.toNat := by
  have hsum := ringDataAvail_add_ringSpaceAvail h.head_lt h.tail_lt
  have htail := UInt32.lt_iff_toNat_lt.mp h.tail_lt
  rw [← h.length_eq] at hsum
  omega

/-- The free bytes at `head` lie inside the buffer, and one byte stays free behind them. -/
theorem Holds.contig_le (h : Holds r xs) :
    r.head.toNat + (ringSpaceContig r.size r.head r.tail).toNat ≤ r.size.toNat ∧
      xs.length + (ringSpaceContig r.size r.head r.tail).toNat < r.size.toNat := by
  have hhead := UInt32.lt_iff_toNat_lt.mp h.head_lt
  have htail := UInt32.lt_iff_toNat_lt.mp h.tail_lt
  rw [h.length_eq, toNat_ringSpaceContig h.head_lt, toNat_ringDataAvail h.head_lt h.tail_lt]
  split_ifs <;> omega

/-- The bytes at `tail` lie inside the buffer. -/
theorem Holds.data_contig_le (h : Holds r xs) :
    r.tail.toNat + (ringDataContig r.size r.head r.tail).toNat ≤ r.size.toNat ∧
      (ringDataContig r.size r.head r.tail).toNat ≤ xs.length := by
  have hhead := UInt32.lt_iff_toNat_lt.mp h.head_lt
  have htail := UInt32.lt_iff_toNat_lt.mp h.tail_lt
  rw [h.length_eq, toNat_ringDataContig h.tail_lt, toNat_ringDataAvail h.head_lt h.tail_lt]
  split_ifs <;> omega

/-- The free bytes at `head` are none of those that have not come out. -/
theorem Holds.unread_disjoint (h : Holds r xs) {i : ℕ} (hi : i ∈ r.unread) :
    i < r.head.toNat ∨
      r.head.toNat + (ringSpaceContig r.size r.head r.tail).toNat ≤ i := by
  have hhead := UInt32.lt_iff_toNat_lt.mp h.head_lt
  have htail := UInt32.lt_iff_toNat_lt.mp h.tail_lt
  obtain ⟨k, hk, rfl⟩ := List.mem_map.mp hi
  rw [List.mem_range, toNat_ringDataAvail h.head_lt h.tail_lt] at hk
  rw [toNat_ringSpaceContig h.head_lt]
  rcases Nat.lt_or_ge (r.tail.toNat + k) r.size.toNat with hlt | hge
  · rw [Nat.mod_eq_of_lt hlt]
    split_ifs at hk ⊢ <;> omega
  · rw [Nat.mod_eq_sub_mod hge, Nat.mod_eq_of_lt (by split_ifs at hk <;> omega)]
    split_ifs at hk ⊢ <;> omega

/-! ### Steps -/

theorem Holds.produce (h : Holds r xs) (hpermits : r.Permits (.produce bytes)) :
    ∃ r', r.produce bytes = some r' ∧ r'.size = r.size ∧ Holds r' (xs ++ bytes) := by
  rw [Permits] at hpermits
  have hsize := r.size.toNat_lt
  obtain ⟨hend, hroom⟩ := h.contig_le
  have hbytes : bytes.length < 4294967296 := by omega
  have hn : (UInt32.ofNat bytes.length).toNat = bytes.length := UInt32.toNat_ofNat_of_lt' hbytes
  have hhead : (ringWrap r.size (r.head + UInt32.ofNat bytes.length)).toNat =
      (r.head.toNat + bytes.length) % r.size.toNat := by
    rw [toNat_ringWrap (by omega), hn]
  have hpos : 0 < r.size.toNat := by omega
  have hlt : ringWrap r.size (r.head + UInt32.ofNat bytes.length) < r.size := by
    rw [UInt32.lt_iff_toNat_lt, hhead]
    exact Nat.mod_lt _ hpos
  refine ⟨{ r with
    cells := fill r.cells r.head.toNat bytes
    head := ringWrap r.size (r.head + UInt32.ofNat bytes.length) },
    ?_, rfl, ⟨?_, hlt, h.tail_lt, ?_, ?_⟩⟩
  · rw [Ring.produce, writeBlock, if_pos (by rw [h.length_cells]; omega)]
    rfl
  · exact length_fill.trans h.length_cells
  · refine length_of_head_eq hlt h.tail_lt ?_ ?_
    · rw [List.length_append]
      exact (Nat.add_le_add_left hpermits _).trans_lt hroom
    · rw [hhead, List.length_append, ← Nat.add_assoc, ← Nat.mod_add_mod, h.head_eq]
  · refine h.window.fill ?_ ?_ ?_
    · rw [h.length_cells, h.head_eq, Nat.mod_eq_of_lt (UInt32.lt_iff_toNat_lt.mp h.head_lt)]
    · rw [h.length_cells]
      omega
    · rw [h.length_cells]
      omega

theorem Holds.consume (h : Holds r xs) {n : UInt32} (hpermits : r.Permits (.consume n)) :
    ∃ r', r.consume n = some (xs.take n.toNat, r') ∧ r'.size = r.size ∧
      Holds r' (xs.drop n.toNat) := by
  rw [Permits, UInt32.le_iff_toNat_le] at hpermits
  obtain ⟨hend, hle⟩ := h.data_contig_le
  have hlength : (xs.take n.toNat).length = n.toNat :=
    List.length_take_of_le (hpermits.trans hle)
  have hwindow := h.window
  rw [← List.take_append_drop n.toNat xs] at hwindow
  have hwrap : r.tail.toNat + n.toNat ≤ r.size.toNat := by omega
  have htail := toNat_ringWrap hwrap
  have hpos : 0 < r.size.toNat := Nat.zero_lt_of_lt h.length_lt
  have hlt : ringWrap r.size (r.tail + n) < r.size := by
    rw [UInt32.lt_iff_toNat_lt, htail]
    exact Nat.mod_lt _ hpos
  refine ⟨{ r with tail := ringWrap r.size (r.tail + n) }, ?_, rfl,
    ⟨h.length_cells, h.head_lt, hlt, ?_, ?_⟩⟩
  · have hread := hwindow.readBlock (by rw [hlength, h.length_cells]; omega)
    rw [hlength] at hread
    rw [Ring.consume, hread]
    rfl
  · refine length_of_head_eq h.head_lt hlt ?_ ?_
    · rw [List.length_drop]
      exact (Nat.sub_le _ _).trans_lt h.length_lt
    · rw [htail, List.length_drop, Nat.mod_add_mod, Nat.add_assoc,
        Nat.add_sub_cancel' (hpermits.trans hle), h.head_eq]
  · refine hwindow.drop.congr ?_
    rw [hlength, htail, h.length_cells, Nat.mod_mod]

/-- **A step** that keeps to the contiguous bytes: what comes out and what stays is what was there
and what goes in. -/
theorem Holds.step (h : Holds r xs) {s : RingStep T} (hpermits : r.Permits s) :
    ∃ out r' ys, r.step s = some (out, r') ∧ r'.size = r.size ∧ Holds r' ys ∧
      xs ++ produced [s] = out ++ ys := by
  cases s with
  | produce bytes =>
    obtain ⟨r', hrun, hsize, h'⟩ := h.produce hpermits
    refine ⟨[], r', xs ++ bytes, ?_, hsize, h', ?_⟩
    · rw [Ring.step, hrun]
      rfl
    · rw [produced, produced, List.append_nil, List.nil_append]
  | consume n =>
    obtain ⟨r', hrun, hsize, h'⟩ := h.consume hpermits
    refine ⟨xs.take n.toNat, r', xs.drop n.toNat, hrun, hsize, h', ?_⟩
    rw [produced, produced, List.append_nil, List.take_append_drop]

theorem produced_cons (s : RingStep T) (ss : List (RingStep T)) :
    produced (s :: ss) = produced [s] ++ produced ss := by
  cases s with
  | produce bytes => rw [produced, produced, produced, List.append_nil]
  | consume n => rw [produced, produced, produced, List.nil_append]

theorem Holds.run {ss : List (RingStep T)} (h : Holds r xs) (halong : r.Along ss) :
    ∃ out r' ys, r.run ss = some (out, r') ∧ r'.size = r.size ∧ Holds r' ys ∧
      xs ++ produced ss = out ++ ys := by
  induction ss generalizing r xs with
  | nil => exact ⟨[], r, xs, rfl, rfl, h, List.append_nil _⟩
  | cons s ss ih =>
    obtain ⟨hpermits, hrest⟩ := halong
    obtain ⟨out, r₁, ys₁, hstep, hsize₁, h₁, hout⟩ := h.step hpermits
    obtain ⟨outs, r', ys, hrun, hsize, h', houts⟩ := ih h₁ (hrest _ hstep)
    refine ⟨out ++ outs, r', ys, ?_, hsize.trans hsize₁, h', ?_⟩
    · rw [Ring.run, hstep, Option.bind_eq_bind, Option.bind_some]
      dsimp only
      rw [hrun]
      rfl
    · rw [produced_cons, ← List.append_assoc, hout, List.append_assoc, houts, List.append_assoc]

/-- **The ring buffer is a queue**: for all indices below the size, the bytes in the buffer and the
free ones are all but one, and the free ones are those up to the end and those at the start. From
every contents on, what comes out in a run is the first part of what was there and what went in,
the rest is still there, and no byte that can be written next is one that has not come out. -/
theorem ring_buffer_fifo (size head tail : UInt32) (hhead : head < size) (htail : tail < size) :
    (ringDataAvail size head tail).toNat + (ringSpaceAvail size head tail).toNat =
        size.toNat - 1 ∧
      (ringSpaceAvail size head tail).toNat =
        (ringSpaceContig size head tail).toNat + (ringSpaceWrapped size head tail).toNat ∧
      ∀ (cells : List (Option T)) (xs : List T) (ss : List (RingStep T)),
        Holds ⟨size, head, tail, cells⟩ xs → Along ⟨size, head, tail, cells⟩ ss →
        ∃ out r' ys, run ⟨size, head, tail, cells⟩ ss = some (out, r') ∧ Holds r' ys ∧
          xs ++ produced ss = out ++ ys ∧ r'.size = size ∧ r'.head < size ∧ r'.tail < size ∧
          ∀ i ∈ r'.unread, i < r'.head.toNat ∨
            r'.head.toNat + (ringSpaceContig r'.size r'.head r'.tail).toNat ≤ i := by
  refine ⟨ringDataAvail_add_ringSpaceAvail hhead htail,
    ringSpaceContig_add_ringSpaceWrapped hhead htail, fun cells xs ss h halong ↦ ?_⟩
  obtain ⟨out, r', ys, hrun, hsize, h', hout⟩ := h.run halong
  have hheadlt : r'.head < size := lt_of_lt_of_eq h'.head_lt hsize
  have htaillt : r'.tail < size := lt_of_lt_of_eq h'.tail_lt hsize
  exact ⟨out, r', ys, hrun, h', hout, hsize, hheadlt, htaillt, fun i hi ↦ h'.unread_disjoint hi⟩

/-- A run around the end of a buffer of four bytes. -/
theorem ring_buffer_fifo_fourBytes :
    ∃ (out : List UInt8) (r' : Ring UInt8) (ys : List UInt8),
      run ⟨4, 1, 3, [some 6, none, none, some 5]⟩
        [.consume 1, .produce [7, 8], .consume 3] = some (out, r') ∧ Holds r' ys ∧
      [5, 6] ++ produced [.consume 1, .produce [7, 8], .consume 3] = out ++ ys ∧
      r'.size = 4 ∧ r'.head < 4 ∧ r'.tail < 4 ∧
      ∀ i ∈ r'.unread, i < r'.head.toNat ∨
        r'.head.toNat + (ringSpaceContig r'.size r'.head r'.tail).toNat ≤ i := by
  have hfive : Window (fill [none, none, none, none] 3 [(5 : UInt8)]) 3 ([] ++ [5]) :=
    (window_nil [none, none, none, none] 3).fill rfl (by decide) (by decide)
  have hwindow : Window (fill [none, none, none, some (5 : UInt8)] 0 [6]) 3 ([5] ++ [6]) :=
    hfive.fill rfl (by decide) (by decide)
  exact (ring_buffer_fifo 4 1 3 (by decide) (by decide)).2.2 _ [5, 6] _
    ⟨rfl, by decide, by decide, by decide, hwindow⟩ (by decide)

end Ring

end DuoFirmware.Services
