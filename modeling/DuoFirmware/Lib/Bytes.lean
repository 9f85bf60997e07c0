import Mathlib.Data.List.TakeWhile
import Mathlib.Tactic

/-!
# Bytes, strings and buffers

Fields of a fixed number of bytes, strings that end with a zero byte, and the functions of the C
library on them, the comparisons only as far as they tell equal from different. Programs over a
buffer fail when they access a byte outside of it.
-/

namespace Bytes

variable {l s t : List UInt8} {i n p : ℕ}

/-- The bytes `s` are written over `l` from `i` on. -/
def splice (l : List UInt8) (i : ℕ) (s : List UInt8) : List UInt8 :=
  l.take i ++ s ++ l.drop (i + s.length)

theorem length_splice (h : i + s.length ≤ l.length) : (splice l i s).length = l.length := by
  simp only [splice, List.length_append, List.length_take, List.length_drop]
  omega

/-- Bytes between others are replaced. -/
theorem splice_append (a b c : List UInt8) (h : b.length = s.length) :
    splice (a ++ b ++ c) a.length s = a ++ s ++ c := by
  rw [splice, ← h, ← List.length_append, List.drop_left, List.append_assoc a b,
    List.take_left]

/-- Fewer bytes than there are between the others. -/
theorem splice_append_of_le (a b c : List UInt8) (h : s.length ≤ b.length) :
    splice (a ++ b ++ c) a.length s = a ++ s ++ b.drop s.length ++ c := by
  have hsplit : a ++ b ++ c = a ++ b.take s.length ++ (b.drop s.length ++ c) := by
    rw [List.append_assoc a (b.take _), ← List.append_assoc (b.take _), List.take_append_drop,
      List.append_assoc]
  rw [hsplit, splice_append _ _ _ (by rw [List.length_take, Nat.min_eq_left h]),
    List.append_assoc _ _ c]

theorem splice_nil (l : List UInt8) (i : ℕ) : splice l i [] = l := by
  rw [splice, List.append_nil, List.length_nil, Nat.add_zero, List.take_append_drop]

theorem splice_singleton (h : i < l.length) (b : UInt8) : splice l i [b] = l.set i b := by
  rw [splice, List.set_eq_take_append_cons_drop, if_pos h, List.append_assoc]
  rfl

/-- Behind the bytes that are written nothing changes. -/
theorem drop_splice (h : i + s.length ≤ n) (hl : i ≤ l.length) :
    (splice l i s).drop n = l.drop n := by
  have hlen : (l.take i ++ s).length = i + s.length := by
    rw [List.length_append, List.length_take, Nat.min_eq_left hl]
  rw [splice, ← Nat.add_sub_cancel' h, ← List.drop_drop, ← hlen, List.drop_left, hlen,
    List.drop_drop]

/-- Before them nothing changes either. -/
theorem take_splice (h : n ≤ i) (hl : i ≤ l.length) : (splice l i s).take n = l.take n := by
  rw [splice, List.append_assoc, List.take_append_of_le_length (by rw [List.length_take]; omega),
    List.take_take, Nat.min_eq_left h]

/-- What was written is read. -/
theorem take_drop_splice (hl : i ≤ l.length) : ((splice l i s).drop i).take s.length = s := by
  have hlen : (l.take i).length = i := by rw [List.length_take, Nat.min_eq_left hl]
  have hdrop : (splice l i s).drop i = s ++ l.drop (i + s.length) := by
    rw [splice, List.append_assoc]
    exact List.drop_left' hlen
  rw [hdrop, List.take_left]

/-- Bytes that are written behind others are written together with them. -/
theorem splice_splice (hl : i ≤ l.length) :
    splice (splice l i s) (i + s.length) t = splice l i (s ++ t) := by
  have hlen : (l.take i ++ s).length = i + s.length := by
    rw [List.length_append, List.length_take, Nat.min_eq_left hl]
  have htake : (splice l i s).take (i + s.length) = l.take i ++ s := by
    rw [splice, ← hlen, List.take_left]
  have hdrop : (splice l i s).drop (i + s.length + t.length) =
      l.drop (i + (s ++ t).length) := by
    rw [drop_splice (Nat.le_add_right _ _) hl, List.length_append, Nat.add_assoc]
  rw [splice, htake, hdrop, splice, List.append_assoc (l.take i)]

/-- Zeros are overwritten. -/
theorem splice_zeros (a : List UInt8) (h : s.length ≤ n) :
    splice (a ++ List.replicate n 0) a.length s =
      a ++ s ++ List.replicate (n - s.length) 0 := by
  have hsplit : List.replicate n (0 : UInt8) =
      List.replicate s.length 0 ++ List.replicate (n - s.length) 0 := by
    rw [List.replicate_append_replicate, Nat.add_sub_cancel' h]
  rw [hsplit, ← List.append_assoc, splice_append _ _ _ List.length_replicate]

theorem splice_replicate (h : s.length ≤ n) :
    splice (List.replicate n 0) 0 s = s ++ List.replicate (n - s.length) 0 := splice_zeros [] h

/-- A byte is the one that was written or the one that was there. -/
theorem getElem?_splice (h : i + s.length ≤ l.length) (j : ℕ) : (splice l i s)[j]? =
    if i ≤ j ∧ j < i + s.length then s[j - i]? else l[j]? := by
  have hlen : (l.take i).length = i := by
    rw [List.length_take]
    omega
  rw [splice, List.append_assoc]
  rcases lt_or_ge j i with hbefore | hbehind
  · rw [List.getElem?_append_left (hbefore.trans_eq hlen.symm), List.getElem?_take_of_lt hbefore,
      if_neg fun hc ↦ absurd hc.1 (not_le.mpr hbefore)]
  · rw [List.getElem?_append_right (hlen.trans_le hbehind), hlen]
    rcases lt_or_ge j (i + s.length) with hin | hover
    · rw [List.getElem?_append_left (by omega), if_pos ⟨hbehind, hin⟩]
    · rw [List.getElem?_append_right (by omega), if_neg fun hc ↦ absurd hc.2 (not_lt.mpr hover),
        List.getElem?_drop]
      congr 1
      omega

/-- Bytes are overwritten. -/
theorem splice_over (h : i + s.length ≤ l.length) (ht : t.length = s.length) :
    splice (splice l i s) i t = splice l i t := by
  refine List.ext_getElem? fun j ↦ ?_
  rw [getElem?_splice (by rwa [length_splice h, ht]), getElem?_splice h,
    getElem?_splice (by rwa [ht]), ht]
  split
  · rfl
  · rfl

/-- Bytes in different places are written in any order. -/
theorem splice_comm {k : ℕ} (hs : i + s.length ≤ l.length) (ht : k + t.length ≤ l.length)
    (hapart : i + s.length ≤ k ∨ k + t.length ≤ i) :
    splice (splice l i s) k t = splice (splice l k t) i s := by
  refine List.ext_getElem? fun j ↦ ?_
  rw [getElem?_splice (by rwa [length_splice hs]), getElem?_splice hs,
    getElem?_splice (by rwa [length_splice ht]), getElem?_splice ht]
  by_cases hks : i ≤ j ∧ j < i + s.length
  · rw [if_pos hks, if_neg (by omega), if_pos hks]
  · rw [if_neg hks, if_neg hks]

/-- Writing what is there changes nothing. -/
theorem splice_same (h : i + n ≤ l.length) : splice l i ((l.drop i).take n) = l := by
  have hlen : ((l.drop i).take n).length = n := by
    rw [List.length_take, List.length_drop]
    omega
  refine List.ext_getElem? fun j ↦ ?_
  rw [getElem?_splice (by rwa [hlen]), hlen]
  split
  · rename_i hin
    rw [List.getElem?_take_of_lt (by omega), List.getElem?_drop, Nat.add_sub_cancel' hin.1]
  · rfl

/-! ## Strings -/

/-- A string; in memory a zero byte follows. -/
structure CString where
  chars : List UInt8
  nonzero : ∀ c ∈ chars, c ≠ 0
  deriving DecidableEq, Repr

namespace CString

def bytes (s : CString) : List UInt8 := s.chars ++ [0]

def empty : CString := ⟨[], fun _ h ↦ absurd h List.not_mem_nil⟩

/-- At most `n` characters of a string. -/
def take (s : CString) (n : ℕ) : CString :=
  ⟨s.chars.take n, fun c h ↦ s.nonzero c (List.mem_of_mem_take h)⟩

theorem ext_chars {s t : CString} (h : s.chars = t.chars) : s = t := by
  cases s
  cases t
  cases h
  rfl

end CString

def strnlen (s : List UInt8) (n : ℕ) : ℕ := ((s.take n).takeWhile (· ≠ 0)).length

/-- Whether `strncmp` returns zero. -/
def strncmp : ℕ → List UInt8 → List UInt8 → Bool
  | 0, _, _ => true
  | n + 1, a :: s, b :: t => a = b && (a = 0 || strncmp n s t)
  | _ + 1, _, _ => false

/-- Whether `strcmp` returns zero. -/
def strcmp : List UInt8 → List UInt8 → Bool
  | a :: s, b :: t => a = b && (a = 0 || strcmp s t)
  | _, _ => false

/-- Whether `memcmp` returns zero. -/
def memcmp (s t : List UInt8) (n : ℕ) : Bool := s.take n = t.take n

theorem strnlen_le (s : List UInt8) (n : ℕ) : strnlen s n ≤ n :=
  (List.takeWhile_sublist _).length_le.trans (List.length_take_le _ _)

theorem takeWhile_chars (s : CString) (r : List UInt8) :
    (s.chars ++ 0 :: r).takeWhile (· ≠ 0) = s.chars := by
  rw [List.takeWhile_append_of_pos fun c h ↦ decide_eq_true (s.nonzero c h),
    List.takeWhile_cons_of_neg (by simp), List.append_nil]

/-- The length of a string in memory, whatever follows. -/
theorem strnlen_of_lt (s : CString) (r : List UInt8) (h : s.chars.length < n) :
    strnlen (s.chars ++ 0 :: r) n = s.chars.length := by
  have htake : (s.chars ++ 0 :: r).take n = s.chars ++ 0 :: r.take (n - s.chars.length - 1) := by
    rw [List.take_append, List.take_of_length_le h.le]
    obtain ⟨k, hk⟩ := Nat.exists_eq_add_of_lt (Nat.sub_pos_of_lt h)
    rw [Nat.zero_add] at hk
    rw [hk, List.take_succ_cons, Nat.add_sub_cancel]
  rw [strnlen, htake, takeWhile_chars]

theorem strnlen_of_le (s : CString) (r : List UInt8) (h : n ≤ s.chars.length) :
    strnlen (s.chars ++ r) n = n := by
  have hall : (s.chars.take n).takeWhile (· ≠ 0) = s.chars.take n :=
    List.takeWhile_eq_self_iff.mpr fun c hc ↦
      decide_eq_true (s.nonzero c (List.mem_of_mem_take hc))
  rw [strnlen, List.take_append_of_le_length h, hall, List.length_take, Nat.min_eq_left h]

theorem strnlen_bytes (s : CString) (n : ℕ) : strnlen s.bytes n = min s.chars.length n := by
  rcases lt_or_ge s.chars.length n with h | h
  · rw [CString.bytes, strnlen_of_lt s [] h, Nat.min_eq_left h.le]
  · rw [CString.bytes, strnlen_of_le s [0] h, Nat.min_eq_right h]

/-- `strcmp` finds the string and the zero byte behind it. -/
theorem strcmp_eq (s : CString) (t : List UInt8) : strcmp s.bytes t = decide (s.bytes <+: t) := by
  obtain ⟨chars, hnonzero⟩ := s
  rw [CString.bytes]
  induction chars generalizing t with
  | nil => cases t <;> simp [strcmp, eq_comm]
  | cons a chars ih =>
    cases t with
    | nil => simp [strcmp]
    | cons b t =>
      have ha := hnonzero a List.mem_cons_self
      have hrest := ih t fun c hc ↦ hnonzero c (List.mem_cons_of_mem _ hc)
      simp only [List.cons_append, strcmp, ha, decide_false, Bool.false_or, hrest,
        List.cons_prefix_cons, Bool.decide_and]

/-- A string and its zero byte begin a memory that starts with another string. -/
theorem bytes_prefix_iff (s t : CString) (c : UInt8) (r : List UInt8)
    (h : c = 0 ∨ s.chars.length ≤ t.chars.length) :
    s.bytes <+: t.chars ++ c :: r ↔ s.chars = t.chars ∧ c = 0 := by
  obtain ⟨a, ha⟩ := s
  obtain ⟨b, hb⟩ := t
  rw [CString.bytes]
  dsimp only at h ⊢
  induction a generalizing b with
  | nil =>
    cases b with
    | nil => simp [eq_comm]
    | cons y b =>
      have hy := hb y List.mem_cons_self
      simp [hy.symm]
  | cons x a ih =>
    have hx := ha x List.mem_cons_self
    cases b with
    | nil =>
      -- the zero byte cannot be a character of the first string
      rcases h with rfl | h
      · simp [hx]
      · cases h
    | cons y b =>
      have hrest := ih (fun z hz ↦ ha z (List.mem_cons_of_mem _ hz)) b
        (fun z hz ↦ hb z (List.mem_cons_of_mem _ hz)) (h.imp_right Nat.le_of_succ_le_succ)
      rw [List.cons_append, List.cons_append, List.cons_prefix_cons, hrest, List.cons.injEq,
        and_assoc]

/-! ## Fields -/

/-- A field of `n` bytes. -/
structure Field (n : ℕ) where
  bytes : List UInt8
  length_eq : bytes.length = n
  deriving DecidableEq, Repr

namespace Field

def zero (n : ℕ) : Field n := ⟨List.replicate n 0, List.length_replicate⟩

/-- `memcpy` into a field. -/
def memcpy (f : Field n) (i : ℕ) (s : List UInt8) (h : i + s.length ≤ n) : Field n :=
  ⟨splice f.bytes i s, (length_splice (by rwa [f.length_eq])).trans f.length_eq⟩

/-- `memset` in a field. -/
def memset (f : Field n) (i : ℕ) (c : UInt8) (k : ℕ) (h : i + k ≤ n) : Field n :=
  f.memcpy i (List.replicate k c) (by rwa [List.length_replicate])

theorem ext_bytes {f g : Field n} (h : f.bytes = g.bytes) : f = g := by
  cases f
  cases g
  cases h
  rfl

/-- A field that holds some bytes, with zeros behind. -/
def padded (n : ℕ) (s : List UInt8) (h : s.length ≤ n) : Field n :=
  ⟨s ++ List.replicate (n - s.length) 0, by
    rw [List.length_append, List.length_replicate, Nat.add_sub_cancel' h]⟩

end Field

/-! ## Buffers -/

/-- Programs over a buffer. -/
abbrev BufferM (α : Type) := StateT (List UInt8) Option α

variable {α β : Type} {mem mem' : List UInt8}

theorem run_bind {m : BufferM α} {k : α → BufferM β} {a : α} (h : m mem = some (a, mem')) :
    (m >>= k) mem = k a mem' := by
  change (m mem).bind (fun r ↦ k r.1 r.2) = _
  rw [h, Option.bind_some]

/-- A program fails when its first part does. -/
theorem run_bind_none {m : BufferM α} {k : α → BufferM β} (h : m mem = none) :
    (m >>= k) mem = none := by
  change (m mem).bind (fun r ↦ k r.1 r.2) = _
  rw [h, Option.bind_none]

/-- A program that ends has gone through its first part. -/
theorem run_bind_eq_some {m : BufferM α} {k : α → BufferM β} {r : β × List UInt8}
    (h : (m >>= k) mem = some r) : ∃ a mem', m mem = some (a, mem') ∧ k a mem' = some r := by
  rcases hm : m mem with _ | ⟨a, mem'⟩
  · rw [run_bind_none hm] at h
    cases h
  · exact ⟨a, mem', rfl, (run_bind hm).symm.trans h⟩

theorem run_pure (a : α) : (pure a : BufferM α) mem = some (a, mem) := rfl

def read (p : ℕ) : BufferM UInt8 := fun mem ↦ mem[p]?.map fun b ↦ (b, mem)

/-- Read `n` bytes; without a byte to read, any pointer will do. -/
def readRange (p n : ℕ) : BufferM (List UInt8) := fun mem ↦
  if n = 0 ∨ p + n ≤ mem.length then some ((mem.drop p).take n, mem) else none

def writeRange (p : ℕ) (s : List UInt8) : BufferM Unit := fun mem ↦
  if s = [] ∨ p + s.length ≤ mem.length then some ((), splice mem p s) else none

def write (p : ℕ) (b : UInt8) : BufferM Unit := writeRange p [b]

def memmove (dest src n : ℕ) : BufferM Unit := do
  let s ← readRange src n
  writeRange dest s

theorem read_eq_some {b : UInt8} (h : mem[p]? = some b) : read p mem = some (b, mem) := by
  rw [read, h]
  rfl

theorem read_eq_none (h : mem.length ≤ p) : read p mem = none := by
  rw [read, List.getElem?_eq_none h]
  rfl

theorem read_of_lt (h : p < mem.length) : read p mem = some (mem.getD p 0, mem) :=
  read_eq_some (by rw [List.getD_eq_getElem?_getD, List.getElem?_eq_getElem h, Option.getD_some])

theorem readRange_eq (h : p + n ≤ mem.length) :
    readRange p n mem = some ((mem.drop p).take n, mem) := if_pos (.inr h)

theorem readRange_eq_none (hn : n ≠ 0) (h : mem.length < p + n) : readRange p n mem = none :=
  if_neg fun hc ↦ hc.elim hn (not_le.mpr h)

theorem writeRange_eq (h : p + s.length ≤ mem.length) :
    writeRange p s mem = some ((), splice mem p s) := if_pos (.inr h)

/-- What is written does not change what lies before it. -/
theorem take_of_writeRange {r : Unit × List UInt8} (h : writeRange p s mem = some r) (hn : n ≤ p) :
    r.2.take n = mem.take n := by
  rw [writeRange] at h
  split at h
  · rename_i hfits
    obtain rfl := Option.some.inj h
    rcases hfits with rfl | hfits
    · rw [splice_nil]
    · exact take_splice hn ((Nat.le_add_right _ _).trans hfits)
  · cases h

/-- What was written is read. -/
theorem readRange_splice (h : p + s.length ≤ mem.length) :
    readRange p s.length (splice mem p s) = some (s, splice mem p s) := by
  rw [readRange_eq (by rwa [length_splice h]), take_drop_splice (by omega)]

theorem write_eq (b : UInt8) (h : p < mem.length) :
    write p b mem = some ((), splice mem p [b]) := if_pos (.inr h)

theorem write_eq_none (b : UInt8) (h : mem.length ≤ p) : write p b mem = none :=
  if_neg fun hc ↦ hc.elim (List.cons_ne_nil _ _) (not_le.mpr (Nat.lt_succ_of_le h))

/-- A loop that writes one byte after the other. -/
theorem forM_writes {body : ℕ → BufferM Unit} (hp : p ≤ mem.length) {s : List UInt8}
    (hbody : ∀ (i : ℕ) (hi : i < s.length), body i (splice mem p (s.take i)) =
      some ((), splice (splice mem p (s.take i)) (p + i) [s[i]])) :
    forM (List.range s.length) body mem = some ((), splice mem p s) := by
  have hloop : ∀ n ≤ s.length,
      forM (List.range n) body mem = some ((), splice mem p (s.take n)) := by
    intro n hn
    induction n with
    | zero =>
      rw [List.take_zero, splice_nil]
      rfl
    | succ n ih =>
      have hlen : (s.take n).length = n := List.length_take_of_le (Nat.le_of_succ_le hn)
      have hnext := hbody n hn
      rw [List.take_add_one, List.getElem?_eq_getElem hn, Option.toList_some,
        ← splice_splice hp, hlen, List.range_succ, List.forM_append,
        run_bind (ih (Nat.le_of_succ_le hn)), List.forM_cons, run_bind hnext]
      rfl
  rw [hloop _ le_rfl, List.take_length]

theorem memmove_eq {dest src : ℕ} (hsrc : src + n ≤ mem.length) (hdest : dest + n ≤ mem.length) :
    memmove dest src n mem = some ((), splice mem dest ((mem.drop src).take n)) := by
  have hfits := (Nat.add_le_add_left (List.length_take_le n (mem.drop src)) dest).trans hdest
  rw [memmove, run_bind (readRange_eq hsrc)]
  exact if_pos (.inr hfits)

theorem memmove_eq_none {dest src : ℕ} (hn : n ≠ 0) (h : mem.length < src + n) :
    memmove dest src n mem = none := run_bind_none (readRange_eq_none hn h)

/-- `memcpy` into a field, from one of its bytes on. -/
def copyTo (f : Field n) (i : ℕ) (s : List UInt8) : BufferM (Field n) := fun mem ↦
  if h : i + s.length ≤ n then some (f.memcpy i s h, mem) else none

theorem copyTo_eq (f : Field n) (h : i + s.length ≤ n) :
    copyTo f i s mem = some (f.memcpy i s h, mem) := dif_pos h

theorem copyTo_eq_none (f : Field n) (h : n < i + s.length) : copyTo f i s mem = none :=
  dif_neg (not_le.mpr h)

/-! ### Reading -/

/-- A program that leaves the buffer as it is, and does not depend on what lies behind it. -/
def Reads (m : BufferM α) : Prop := ∀ mem a mem', m mem = some (a, mem') →
  mem' = mem ∧ ∀ rest, m (mem ++ rest) = some (a, mem ++ rest)

namespace Reads

theorem pure (a : α) : Reads (pure a) := by
  rintro mem _ _ h
  cases h
  exact ⟨rfl, fun _ ↦ rfl⟩

theorem bind {m : BufferM α} {k : α → BufferM β} (hm : Reads m) (hk : ∀ a, Reads (k a)) :
    Reads (m >>= k) := by
  intro mem b mem' h
  obtain ⟨a, mem₁, hfirst, hrest⟩ := run_bind_eq_some h
  obtain ⟨rfl, hfirst'⟩ := hm _ _ _ hfirst
  obtain ⟨rfl, hrest'⟩ := hk a _ _ _ hrest
  exact ⟨rfl, fun rest ↦ (run_bind (hfirst' rest)).trans (hrest' rest)⟩

theorem ite {c : Prop} [Decidable c] {m m' : BufferM α} (hm : Reads m) (hm' : Reads m') :
    Reads (if c then m else m') := by
  split
  · exact hm
  · exact hm'

theorem read (p : ℕ) : Reads (read p) := by
  intro mem b mem' h
  obtain ⟨c, hc, hout⟩ := Option.map_eq_some_iff.mp h
  cases hout
  have hp := (List.getElem?_eq_some_iff.mp hc).1
  exact ⟨rfl, fun rest ↦ read_eq_some (by rw [List.getElem?_append_left hp, hc])⟩

theorem readRange (p n : ℕ) : Reads (readRange p n) := by
  intro mem s mem' h
  rw [Bytes.readRange] at h
  split at h
  · rename_i hfits
    cases h
    refine ⟨rfl, fun rest ↦ ?_⟩
    rcases hfits with rfl | hfits
    · exact if_pos (.inl rfl)
    · rw [readRange_eq (by rw [List.length_append]; omega),
        List.drop_append_of_le_length (by omega),
        List.take_append_of_le_length (by rw [List.length_drop]; omega)]
  · cases h

theorem copyTo (f : Field n) (i : ℕ) (s : List UInt8) : Reads (copyTo f i s) := by
  intro mem g mem' h
  rw [Bytes.copyTo] at h
  split at h
  · rename_i hfits
    cases h
    exact ⟨rfl, fun _ ↦ copyTo_eq f hfits⟩
  · cases h

end Reads

end Bytes
