import DuoFirmware.System.SimplePoolAllocator

/-!
# The heap invariant of the pool allocator

The used part of a pool is a row of blocks, each with its size in its header; the free ones among
them are the elements of the list of free blocks, in the same order. Every operation changes the row
in one place: a block is added at the end, marked or removed.
-/

namespace DuoFirmware.System

open LinkedList

/-- A block, with the size that was requested if it is in use. -/
structure Block where
  addr : ℕ
  size : ℕ
  request : Option ℕ
  deriving DecidableEq, Repr

namespace Block

/-- The address behind a block. -/
def stop (b : Block) : ℕ := b.addr + b.size

end Block

namespace SimpleBasePool

/-- A row of blocks from one address to another. -/
def Tiles (mem : ℕ → ℕ) : ℕ → List Block → ℕ → Prop
  | a, [], e => a = e
  | a, b :: bs, e => b.addr = a ∧ headerSize < b.size ∧ mem (a + 4) = b.size ∧
      (∀ n ∈ b.request, headerSize + n ≤ b.size) ∧ Tiles mem (a + b.size) bs e

/-- The addresses of the free blocks. -/
def free (bs : List Block) : List ℕ := (bs.filter fun b ↦ b.request = none).map Block.addr

/-- The pointers in use, with the sizes that were requested. -/
def live (bs : List Block) : List (ℕ × ℕ) :=
  bs.filterMap fun b ↦ b.request.map fun n ↦ (data b.addr, n)

/-- A pool that consists of some blocks. -/
structure Holds (s : SimpleBasePool) (bs : List Block) : Prop where
  tiles : Tiles s.mem s.begin bs s.ptr
  begin_pos : 0 < s.begin
  ptr_le : s.ptr ≤ s.begin + s.size
  chain : Chain toPtr s.cells s.freeList (free bs)
  freeListEnd : s.freeListEnd = (free bs).getLast?

/-- The last block is in use. -/
def Tight (bs : List Block) : Prop := ∀ b ∈ bs.getLast?, b.request ≠ none

/-! ## Rows of blocks -/

variable {mem mem' : ℕ → ℕ} {a e : ℕ} {b x y : Block} {bs bs' : List Block}

theorem tiles_append : Tiles mem a (bs ++ bs') e ↔ ∃ m, Tiles mem a bs m ∧ Tiles mem m bs' e := by
  induction bs generalizing a with
  | nil =>
    constructor
    · exact fun h ↦ ⟨a, rfl, h⟩
    · rintro ⟨_, rfl, h⟩
      exact h
  | cons b bs ih =>
    constructor
    · rintro ⟨haddr, hsize, hmem, hreq, h⟩
      obtain ⟨m, h₁, h₂⟩ := ih.mp h
      exact ⟨m, ⟨haddr, hsize, hmem, hreq, h₁⟩, h₂⟩
    · rintro ⟨m, ⟨haddr, hsize, hmem, hreq, h₁⟩, h₂⟩
      exact ⟨haddr, hsize, hmem, hreq, ih.mpr ⟨m, h₁, h₂⟩⟩

theorem Tiles.length_le (h : Tiles mem a bs e) : a + bs.length ≤ e := by
  induction bs generalizing a with
  | nil => exact h.le
  | cons b bs ih =>
    obtain ⟨-, hsize, -, -, h⟩ := h
    have hle := ih h
    rw [List.length_cons]
    omega

/-- A block lies in its row, and has its size in its header. -/
structure InRow (mem : ℕ → ℕ) (a e : ℕ) (b : Block) : Prop where
  le_addr : a ≤ b.addr
  stop_le : b.stop ≤ e
  header_lt : headerSize < b.size
  blockSize : mem (b.addr + 4) = b.size
  request_le : ∀ n ∈ b.request, headerSize + n ≤ b.size

theorem Tiles.inRow (h : Tiles mem a bs e) (hb : b ∈ bs) : InRow mem a e b := by
  induction bs generalizing a with
  | nil => cases hb
  | cons x bs ih =>
    obtain ⟨rfl, hsize, hmem, hreq, h⟩ := h
    rcases List.mem_cons.mp hb with rfl | hb
    · exact ⟨le_rfl, (Nat.le_add_right _ _).trans h.length_le, hsize, hmem, hreq⟩
    · have hrow := ih h hb
      exact { hrow with le_addr := (Nat.le_add_right _ _).trans hrow.le_addr }

/-- **The blocks lie one behind the other.** -/
theorem Tiles.pairwise (h : Tiles mem a bs e) : bs.Pairwise fun x y ↦ x.stop ≤ y.addr := by
  induction bs generalizing a with
  | nil => exact List.Pairwise.nil
  | cons x bs ih =>
    obtain ⟨rfl, -, -, -, h⟩ := h
    exact List.pairwise_cons.mpr ⟨fun y hy ↦ (h.inRow hy).le_addr, ih h⟩

/-- Two blocks of a row are apart. -/
theorem Tiles.apart (h : Tiles mem a bs e) (hx : x ∈ bs) (hy : y ∈ bs) :
    x = y ∨ x.stop ≤ y.addr ∨ y.stop ≤ x.addr := by
  have hpairwise := List.pairwise_iff_getElem.mp h.pairwise
  obtain ⟨i, hi, rfl⟩ := List.getElem_of_mem hx
  obtain ⟨j, hj, rfl⟩ := List.getElem_of_mem hy
  rcases lt_trichotomy i j with hlt | rfl | hlt
  · exact .inr (.inl (hpairwise i j hi hj hlt))
  · exact .inl rfl
  · exact .inr (.inr (hpairwise j i hj hi hlt))

/-- A row only depends on the sizes in the headers. -/
theorem Tiles.congr (h : Tiles mem a bs e)
    (hmem : ∀ b ∈ bs, mem' (b.addr + 4) = mem (b.addr + 4)) : Tiles mem' a bs e := by
  induction bs generalizing a with
  | nil => exact h
  | cons b bs ih =>
    obtain ⟨rfl, hsize, hb, hreq, h⟩ := h
    exact ⟨rfl, hsize, (hmem b List.mem_cons_self).trans hb, hreq,
      ih h fun x hx ↦ hmem x (List.mem_cons_of_mem _ hx)⟩

/-- The link of a block is not the size of another one. -/
theorem Tiles.addr_ne (h : Tiles mem a bs e) (hx : x ∈ bs) (hy : y ∈ bs) : x.addr ≠ y.addr + 4 := by
  have hapart := h.apart hx hy
  have hxs := (h.inRow hx).header_lt
  have hys := (h.inRow hy).header_lt
  rw [headerSize] at hxs hys
  rw [Block.stop, Block.stop] at hapart
  rcases hapart with rfl | hapart
  · omega
  · omega

/-! ## Free blocks -/

theorem free_append : free (bs ++ bs') = free bs ++ free bs' := by
  rw [free, List.filter_append, List.map_append]
  rfl

theorem live_append : live (bs ++ bs') = live bs ++ live bs' := List.filterMap_append

theorem mem_free {p : ℕ} : p ∈ free bs ↔ ∃ b ∈ bs, b.request = none ∧ b.addr = p := by
  rw [free, List.mem_map]
  constructor
  · rintro ⟨b, hb, rfl⟩
    obtain ⟨hb, hnone⟩ := List.mem_filter.mp hb
    exact ⟨b, hb, of_decide_eq_true hnone, rfl⟩
  · rintro ⟨b, hb, hnone, rfl⟩
    exact ⟨b, List.mem_filter.mpr ⟨hb, decide_eq_true hnone⟩, rfl⟩

theorem mem_live {p n : ℕ} : (p, n) ∈ live bs ↔ ∃ b ∈ bs, b.request = some n ∧ data b.addr = p := by
  rw [live, List.mem_filterMap]
  constructor
  · rintro ⟨b, hb, heq⟩
    obtain ⟨m, hm, heq⟩ := Option.map_eq_some_iff.mp heq
    obtain ⟨rfl, rfl⟩ := Prod.mk.inj heq
    exact ⟨b, hb, hm, rfl⟩
  · rintro ⟨b, hb, hm, rfl⟩
    exact ⟨b, hb, by rw [hm]; rfl⟩

/-- The free blocks are sorted. -/
theorem Tiles.free_pairwise (h : Tiles mem a bs e) : (free bs).Pairwise (· < ·) := by
  rw [free, List.pairwise_map]
  refine (h.pairwise.filter _).imp_of_mem fun {x y} hx _ hxy ↦ ?_
  have hsize := (h.inRow (List.mem_filter.mp hx).1).header_lt
  rw [Block.stop] at hxy
  omega

theorem length_free_le (bs : List Block) : (free bs).length ≤ bs.length := by
  rw [free, List.length_map]
  exact List.length_filter_le _ _

variable {s : SimpleBasePool}

/-- The loops over the free blocks do not run out of steps. -/
theorem Holds.length_le (h : Holds s bs) : bs.length ≤ s.size := by
  have hle := h.tiles.length_le
  have hptr := h.ptr_le
  omega

theorem Holds.length_free_le (h : Holds s bs) : (free bs).length ≤ s.size :=
  (SimpleBasePool.length_free_le bs).trans h.length_le

theorem Holds.forFree_eq {α : Type} (h : Holds s bs) (f : α → ℕ → α) (x : α) :
    s.forFree f x = some ((free bs).foldl f x) := h.chain.walk_eq h.length_free_le f x

theorem Holds.pos (h : Holds s bs) (hb : b ∈ bs) : 0 < b.addr :=
  h.begin_pos.trans_le (h.tiles.inRow hb).le_addr

theorem Holds.freeList_pos (h : Holds s bs) : ∀ a ∈ s.freeList, 0 < a := by
  intro a ha
  rw [h.chain.head] at ha
  obtain ⟨b, hb, -, rfl⟩ := mem_free.mp (List.mem_of_head? ha)
  exact h.pos hb

theorem toPtr_ofPtr {p : Option ℕ} (h : ∀ a ∈ p, 0 < a) : toPtr (ofPtr p) = p := by
  cases p with
  | none => rfl
  | some a => exact if_neg (h a rfl).ne'

/-! ## Changing a row -/

variable {us vs : List Block} {n w : ℕ} {p : Option ℕ}

/-- A block is marked. -/
theorem Tiles.mark (h : Tiles mem a (us ++ b :: vs) e) (request : Option ℕ)
    (hreq : ∀ n ∈ request, headerSize + n ≤ b.size) :
    Tiles mem a (us ++ { b with request := request } :: vs) e := by
  obtain ⟨m, hus, haddr, hsize, hmem, -, hvs⟩ := tiles_append.mp h
  exact tiles_append.mpr ⟨m, hus, haddr, hsize, hmem, hreq, hvs⟩

section setNext

variable (s) (c : ℕ) (p : Option ℕ)

@[simp] theorem setNext_begin : (s.setNext c p).begin = s.begin := rfl
@[simp] theorem setNext_size : (s.setNext c p).size = s.size := rfl
@[simp] theorem setNext_freeListEnd : (s.setNext c p).freeListEnd = s.freeListEnd := rfl

end setNext

/-- The link of a block is written. -/
theorem Tiles.setNext (h : Tiles s.mem a bs e) (hb : b ∈ bs) :
    Tiles (s.setNext b.addr p).mem a bs e :=
  h.congr fun _ hx ↦ Function.update_of_ne (h.addr_ne hb hx).symm _ _

theorem cells_setNext (c : ℕ) : (s.setNext c p).cells =
    Function.update s.cells c (some (ofPtr p)) := by
  funext x
  by_cases hx : x = c
  · rw [hx, Function.update_self]
    exact congrArg some (Function.update_self _ _ _)
  · rw [Function.update_of_ne hx]
    exact congrArg some (Function.update_of_ne hx _ _)

/-- The link of a block that is read is written back. -/
theorem toPtr_ofPtr_next (c : ℕ) : toPtr (ofPtr (s.next c)) = s.next c := by
  apply toPtr_ofPtr
  intro a ha
  rw [next, toPtr] at ha
  split at ha
  · cases ha
  · rename_i hne
    exact Option.some.inj ha ▸ Nat.pos_of_ne_zero hne

theorem free_cons_of_free (h : b.request = none) : free (b :: bs) = b.addr :: free bs := by
  rw [free, List.filter_cons_of_pos (by simp [h]), List.map_cons]
  rfl

theorem free_cons_of_live (h : b.request = some n) : free (b :: bs) = free bs := by
  rw [free, List.filter_cons_of_neg (by simp [h])]
  rfl

theorem live_cons_of_free (h : b.request = none) : live (b :: bs) = live bs := by
  rw [live, List.filterMap_cons_none (by rw [h]; rfl)]
  rfl

theorem live_cons_of_live (h : b.request = some n) :
    live (b :: bs) = (data b.addr, n) :: live bs := by
  rw [live, List.filterMap_cons_some (by rw [h]; rfl)]
  rfl

/-- A free block is in the list of free blocks once. -/
theorem Holds.free_split (h : Holds s (us ++ b :: vs)) (hnone : b.request = none) :
    free (us ++ b :: vs) = free us ++ b.addr :: free vs ∧ b.addr ∉ free us ∧
      b.addr ∉ free vs := by
  have hfree : free (us ++ b :: vs) = free us ++ b.addr :: free vs := by
    rw [free_append, free_cons_of_free hnone]
  have hnodup := h.chain.nodup
  rw [hfree] at hnodup
  obtain ⟨-, hcons, hdisjoint⟩ := List.nodup_append.mp hnodup
  have hus : b.addr ∉ free us := fun hc ↦ hdisjoint _ hc _ List.mem_cons_self rfl
  exact ⟨hfree, hus, (List.nodup_cons.mp hcons).1⟩

/-- It divides that list as it divides the row. -/
theorem Holds.split_free (h : Holds s bs) {xs ys : List ℕ} {q : ℕ}
    (hfree : free bs = xs ++ q :: ys) : ∃ us b vs, bs = us ++ b :: vs ∧ b.request = none ∧
      b.addr = q ∧ free us = xs ∧ free vs = ys := by
  have hq : q ∈ free bs := hfree ▸ List.mem_append_right _ List.mem_cons_self
  obtain ⟨b, hb, hnone, rfl⟩ := mem_free.mp hq
  obtain ⟨us, vs, rfl⟩ := List.append_of_mem hb
  obtain ⟨hsplit, hus, hvs⟩ := h.free_split hnone
  rw [hsplit] at hfree
  obtain ⟨rfl, -, rfl⟩ := (List.append_cons_inj_of_notMem hus hvs).mp hfree
  exact ⟨us, b, vs, rfl, hnone, rfl, rfl, rfl⟩

/-! ## Allocation -/

/-- The size of a block for a request, with its header and the padding. -/
def Representable (n : ℕ) : Prop := headerSize + n + (4 - (headerSize + n) % 4) < sizeMax

theorem lt_aligned (h : Representable n) :
    headerSize + n < aligned ((headerSize + n) % sizeMax) := by
  have hlt : headerSize + n < sizeMax := (Nat.le_add_right _ _).trans_lt h
  rw [Nat.mod_eq_of_lt hlt, aligned, Nat.mod_eq_of_lt h]
  omega

/-- **The loop of an allocation** finds a block that is large enough, and the one before it. -/
theorem foldl_visit (s : SimpleBasePool) (alignedSize : ℕ) (ps : List ℕ) :
    (ps.foldl (Search.visit s alignedSize) ⟨none, none, none⟩).pr = ps.getLast? ∧
    ((ps.foldl (Search.visit s alignedSize) ⟨none, none, none⟩).candidate = none ∨
      ∃ xs q ys, ps = xs ++ q :: ys ∧ alignedSize ≤ s.blockSize q ∧
        (ps.foldl (Search.visit s alignedSize) ⟨none, none, none⟩).candidate = some q ∧
        (ps.foldl (Search.visit s alignedSize) ⟨none, none, none⟩).prev = xs.getLast?) := by
  induction ps using List.reverseRecOn with
  | nil => exact ⟨rfl, .inl rfl⟩
  | append_singleton ps b ih =>
    obtain ⟨hpr, hcandidate⟩ := ih
    rw [List.foldl_append, List.foldl_cons, List.foldl_nil, List.getLast?_concat]
    generalize ps.foldl (Search.visit s alignedSize) ⟨none, none, none⟩ = x at hpr hcandidate
    -- the candidate so far is kept
    have hkeep : ∀ q, x.candidate = some q → ∃ xs q' ys, ps ++ [b] = xs ++ q' :: ys ∧
        alignedSize ≤ s.blockSize q' ∧ x.candidate = some q' ∧ x.prev = xs.getLast? := by
      intro q hq
      rw [hq] at hcandidate
      obtain ⟨xs, q', ys, rfl, hsize, hq', hprev⟩ := hcandidate.resolve_left (Option.some_ne_none q)
      exact ⟨xs, q', ys ++ [b], by simp, hsize, hq.trans hq', hprev⟩
    have htake : alignedSize ≤ s.blockSize b → ∃ xs q' ys, ps ++ [b] = xs ++ q' :: ys ∧
        alignedSize ≤ s.blockSize q' ∧ some b = some q' ∧ x.pr = xs.getLast? :=
      fun hsize ↦ ⟨ps, b, [], rfl, hsize, rfl, hpr⟩
    rw [Search.visit]
    split
    · rename_i hsize
      split
      · exact ⟨rfl, .inr (htake hsize)⟩
      · rename_i candidate hsome
        split
        · exact ⟨rfl, .inr (htake hsize)⟩
        · exact ⟨rfl, .inr (hkeep candidate hsome)⟩
    · refine ⟨rfl, ?_⟩
      rcases Option.eq_none_or_eq_some x.candidate with hnone | ⟨candidate, hsome⟩
      · exact .inl hnone
      · exact .inr (hkeep candidate hsome)

/-- The end of the list after a block is taken out. -/
theorem getLast?_append_cons (xs : List ℕ) (q : ℕ) {ys : List ℕ} (h : ys ≠ []) :
    (xs ++ q :: ys).getLast? = (xs ++ ys).getLast? := by
  rw [List.getLast?_append_of_ne_nil _ (List.cons_ne_nil _ _), List.getLast?_append_of_ne_nil _ h,
    List.getLast?_cons_of_ne_nil h]

/-- A member is the last one if nothing follows it. -/
theorem eq_getLast?_iff {xs ys : List ℕ} {q : ℕ} (h : (xs ++ q :: ys).Nodup) :
    some q = (xs ++ q :: ys).getLast? ↔ ys = [] := by
  obtain ⟨-, hcons, hdisjoint⟩ := List.nodup_append.mp h
  constructor
  · intro heq
    by_contra hne
    rw [getLast?_append_cons _ _ hne] at heq
    rcases List.mem_append.mp (List.mem_of_getLast? heq.symm) with hc | hc
    · exact hdisjoint _ hc _ List.mem_cons_self rfl
    · exact (List.nodup_cons.mp hcons).1 hc
  · intro hnil
    rw [hnil, List.getLast?_concat]

theorem takeFree_first (s : SimpleBasePool) (c : ℕ) : s.takeFree c none =
    ({ s with
        freeList := s.next c
        freeListEnd := if some c = s.freeListEnd then s.next c else s.freeListEnd } :
      SimpleBasePool).setNext c none := by
  rw [SimpleBasePool.takeFree]
  dsimp only
  split <;> rfl

theorem takeFree_behind (s : SimpleBasePool) (c x : ℕ) : s.takeFree c (some x) =
    ({ s.setNext x (s.next c) with
        freeListEnd := if some c = s.freeListEnd then some x else s.freeListEnd } :
      SimpleBasePool).setNext c none := by
  rw [SimpleBasePool.takeFree]
  dsimp only
  by_cases heq : some c = (s.setNext x (s.next c)).freeListEnd
  · rw [if_pos heq, if_pos (heq.trans (setNext_freeListEnd ..))]
  · rw [if_neg heq, if_neg (heq ∘ (·.trans (setNext_freeListEnd ..).symm))]
    rfl

/-- **Taking a free block**: it is marked, and is no longer in the list. -/
theorem Holds.takeFree (h : Holds s (us ++ b :: vs)) (hnone : b.request = none)
    (hn : headerSize + n ≤ b.size) :
    Holds (s.takeFree b.addr (free us).getLast?) (us ++ { b with request := some n } :: vs) := by
  obtain ⟨hfree, hus, hvs⟩ := h.free_split hnone
  have hfree' : free (us ++ { b with request := some n } :: vs) = free us ++ free vs := by
    rw [free_append, free_cons_of_live rfl]
  have hchain := h.chain
  have hend := h.freeListEnd
  have hnodup := h.chain.nodup
  rw [hfree] at hchain hend hnodup
  have hmark := h.tiles.mark (some n) (by rintro _ ⟨⟩; exact hn)
  have hb' : { b with request := some n } ∈ us ++ { b with request := some n } :: vs :=
    List.mem_append_right _ List.mem_cons_self
  -- the block is the last one if nothing follows it in the list
  have hlast : some b.addr = s.freeListEnd ↔ free vs = [] := hend ▸ eq_getLast?_iff hnodup
  rcases List.eq_nil_or_concat (free us) with hnil | ⟨xs, x, hxs⟩
  · rw [hnil, List.nil_append] at hchain hend hfree'
    obtain ⟨-, c, hc, hrest⟩ := hchain
    obtain rfl := Option.some.inj hc
    rw [hnil, List.getLast?_nil, takeFree_first]
    refine ⟨Tiles.setNext (b := { b with request := some n }) hmark hb', h.begin_pos, h.ptr_le,
      ?_, ?_⟩
    · rw [hfree', cells_setNext]
      exact hrest.update_of_not_mem hvs _
    · rw [hfree']
      change (if _ then _ else _) = _
      by_cases hvs' : free vs = []
      · rw [if_pos (hlast.mpr hvs'), hvs']
        rw [hvs'] at hrest
        exact hrest
      · rw [if_neg fun hc ↦ hvs' (hlast.mp hc), hend, List.getLast?_cons_of_ne_nil hvs']
  · rw [List.concat_eq_append] at hxs
    have hx : x ∈ free us := by simp [hxs]
    obtain ⟨c, hc, hcnone, hcx⟩ := mem_free.mp hx
    have hc' : c ∈ us ++ { b with request := some n } :: vs := List.mem_append_left _ hc
    have hunlink := hxs ▸ hchain
    rw [List.append_assoc, List.singleton_append] at hunlink
    have hunlink := hunlink.unlink (b := ofPtr (s.next b.addr)) rfl (toPtr_ofPtr_next b.addr)
    rw [hxs, List.getLast?_concat, takeFree_behind]
    refine ⟨Tiles.setNext (b := { b with request := some n }) (hcx ▸ hmark.setNext hc') hb',
      h.begin_pos, h.ptr_le, ?_, ?_⟩
    · have hmem : b.addr ∉ xs ++ x :: free vs := by
        rw [List.append_cons, List.mem_append, not_or, ← hxs]
        exact ⟨hus, hvs⟩
      rw [hfree', cells_setNext, hxs, List.append_assoc]
      exact (cells_setNext (s := s) x ▸ hunlink).update_of_not_mem hmem _
    · rw [hfree']
      change (if _ then _ else _) = _
      by_cases hvs' : free vs = []
      · rw [if_pos (hlast.mpr hvs'), hvs', List.append_nil, hxs, List.getLast?_concat]
      · rw [if_neg fun hc ↦ hvs' (hlast.mp hc), hend, getLast?_append_cons _ _ hvs']

/-- The pool stays where it is. -/
theorem takeFree_place (s : SimpleBasePool) (candidate : ℕ) (prev : Option ℕ) :
    (s.takeFree candidate prev).begin = s.begin ∧ (s.takeFree candidate prev).size = s.size := by
  cases prev with
  | none =>
    rw [SimpleBasePool.takeFree, setNext_begin, setNext_size]
    split <;> exact ⟨rfl, rfl⟩
  | some b =>
    rw [SimpleBasePool.takeFree, setNext_begin, setNext_size]
    split <;> exact ⟨rfl, rfl⟩

/-- The invariant only depends on the headers. -/
theorem Holds.congr_mem (h : Holds s bs) (hnext : ∀ b ∈ bs, mem' b.addr = s.mem b.addr)
    (hsize : ∀ b ∈ bs, mem' (b.addr + 4) = s.mem (b.addr + 4)) :
    Holds { s with mem := mem' } bs := by
  refine ⟨h.tiles.congr hsize, h.begin_pos, h.ptr_le, h.chain.congr fun q hq ↦ ?_, h.freeListEnd⟩
  obtain ⟨b, hb, -, rfl⟩ := mem_free.mp hq
  exact congrArg (fun w ↦ some (toPtr w)) (hnext b hb)

/-- A block is added at the end. -/
theorem Holds.concat (h : Holds s bs) (hsize : headerSize < w) (hn : headerSize + n ≤ w)
    (hmem : s.mem (s.ptr + 4) = w) (hroom : s.ptr + w ≤ s.begin + s.size) :
    Holds { s with ptr := s.ptr + w } (bs ++ [⟨s.ptr, w, some n⟩]) := by
  have hfree : free (bs ++ [⟨s.ptr, w, some n⟩]) = free bs := by
    rw [free_append, free_cons_of_live rfl]
    exact List.append_nil _
  refine ⟨tiles_append.mpr ⟨s.ptr, h.tiles, rfl, hsize, hmem, ?_, rfl⟩, h.begin_pos, hroom, ?_, ?_⟩
  · rintro _ ⟨⟩
    exact hn
  · rw [hfree]
    exact h.chain
  · rw [hfree]
    exact h.freeListEnd

theorem tight_concat (h : b.request = some n) : Tight (bs ++ [b]) := by
  rw [Tight, List.getLast?_concat]
  rintro _ ⟨⟩
  rw [h]
  exact Option.some_ne_none n

theorem Tight.mark (h : Tight (us ++ b :: vs)) (hx : x.request = some n) :
    Tight (us ++ x :: vs) := by
  rcases List.eq_nil_or_concat vs with rfl | ⟨vs, y, rfl⟩
  · exact tight_concat hx
  · rw [Tight, List.concat_eq_append, List.append_cons, ← List.append_assoc,
      List.getLast?_concat] at h ⊢
    exact h

/-- **Allocation.** It fails, or gives a block that was not in use. -/
theorem Holds.allocate (h : Holds s bs) (hn : Representable n) :
    ∃ p s', s.allocate n = some (p, s') ∧ s'.begin = s.begin ∧ s'.size = s.size ∧
      ((p = none ∧ s' = s) ∨ ∃ q bs', p = some q ∧ Holds s' bs' ∧
        (live bs').Perm ((q, n) :: live bs) ∧ (Tight bs → Tight bs')) := by
  have haligned := lt_aligned hn
  rw [SimpleBasePool.allocate]
  generalize aligned ((headerSize + n) % sizeMax) = w at haligned
  dsimp only
  split
  · rename_i hroom
    have hptr := h.tiles.length_le
    have hle := h.ptr_le
    have hsize : headerSize < w := (Nat.le_add_right _ _).trans_lt haligned
    -- the header is written behind the blocks
    have hmem : ∀ b ∈ bs, b.addr ≠ s.ptr ∧ b.addr ≠ s.ptr + 4 ∧ b.addr + 4 ≠ s.ptr ∧
        b.addr + 4 ≠ s.ptr + 4 := by
      intro b hb
      obtain ⟨-, hstop, hheader, -, -⟩ := h.tiles.inRow hb
      rw [Block.stop] at hstop
      rw [headerSize] at hheader
      omega
    have hwrite : Holds ((s.setBlockSize s.ptr w).setNext s.ptr none) bs := by
      refine h.congr_mem (fun b hb ↦ ?_) fun b hb ↦ ?_
      · obtain ⟨h₁, h₂, -, -⟩ := hmem b hb
        exact (Function.update_of_ne h₁ _ _).trans (Function.update_of_ne h₂ _ _)
      · obtain ⟨-, -, h₁, h₂⟩ := hmem b hb
        exact (Function.update_of_ne h₁ _ _).trans (Function.update_of_ne h₂ _ _)
    refine ⟨_, _, rfl, rfl, rfl, .inr ⟨_, _, rfl, hwrite.concat hsize haligned.le ?_ ?_, ?_, ?_⟩⟩
    · refine (Function.update_of_ne ?_ _ _).trans (Function.update_self _ _ _)
      exact (Nat.lt_add_of_pos_right (by decide)).ne'
    · change s.ptr + w ≤ s.begin + s.size
      omega
    · rw [live_append, live_cons_of_live rfl]
      exact List.perm_append_singleton _ _
    · exact fun _ ↦ tight_concat rfl
  · rw [h.forFree_eq, Option.bind_eq_bind, Option.bind_some]
    obtain ⟨-, hnone | ⟨xs, q, ys, hfree, hsize, hq, hprev⟩⟩ := foldl_visit s w (free bs)
    · rw [hnone]
      exact ⟨none, s, rfl, rfl, rfl, .inl ⟨rfl, rfl⟩⟩
    · rw [hq, hprev]
      obtain ⟨us, b, vs, rfl, hbnone, rfl, rfl, -⟩ := h.split_free hfree
      have hblock := (h.tiles.inRow (List.mem_append_right us List.mem_cons_self)).blockSize
      rw [blockSize, hblock] at hsize
      obtain ⟨hbegin, hlength⟩ := takeFree_place s b.addr (free us).getLast?
      refine ⟨_, _, rfl, hbegin, hlength, .inr ⟨_, _, rfl,
        h.takeFree hbnone (haligned.le.trans hsize), ?_, fun htight ↦ htight.mark rfl⟩⟩
      · rw [live_append, live_append, live_cons_of_live rfl, live_cons_of_free hbnone]
        exact List.perm_middle

/-! ## Deallocation -/

/-- **The loop of a deallocation** finds the last free block in front of a block. -/
theorem foldl_lt {q : ℕ} {xs ys : List ℕ} (hxs : ∀ x ∈ xs, x < q) (hys : ∀ y ∈ ys, q < y) :
    (xs ++ ys).foldl (fun ins b ↦ if q > b then some b else ins) none = xs.getLast? := by
  have hafter : ∀ zs : List ℕ, (∀ z ∈ zs, q < z) → ∀ o : Option ℕ,
      zs.foldl (fun ins b ↦ if q > b then some b else ins) o = o := by
    intro zs
    induction zs with
    | nil => exact fun _ _ ↦ rfl
    | cons z zs ih =>
      intro hzs o
      rw [List.foldl_cons, if_neg (hzs z List.mem_cons_self).asymm]
      exact ih (fun x hx ↦ hzs x (List.mem_cons_of_mem _ hx)) o
  rw [List.foldl_append, hafter ys hys]
  rcases List.eq_nil_or_concat xs with rfl | ⟨xs, x, rfl⟩
  · rfl
  · rw [List.concat_eq_append, List.foldl_append, List.getLast?_concat]
    exact if_pos (hxs x (by simp))

/-- The pool with a block in front of the list of free blocks, -/
def pushFree (s : SimpleBasePool) (c : ℕ) : SimpleBasePool :=
  { ({ s with freeListEnd := if s.freeList = none then some c else s.freeListEnd } :
      SimpleBasePool).setNext c s.freeList with
    freeList := some c }

/-- or behind one that is there. -/
def linkFree (s : SimpleBasePool) (x c : ℕ) : SimpleBasePool :=
  { (s.setNext c (s.next x)).setNext x (some c) with
    freeListEnd := if some x = s.freeListEnd then some c else s.freeListEnd }

/-- Where a block is put, among those in front of it and behind it. -/
theorem Holds.insertFree_eq (h : Holds s bs) {q : ℕ} {xs ys : List ℕ} (hfree : free bs = xs ++ ys)
    (hxs : ∀ x ∈ xs, x < q) (hys : ∀ y ∈ ys, q < y) :
    s.insertFree q = some (xs.getLast?.elim (s.pushFree q) fun x ↦ s.linkFree x q) := by
  rw [SimpleBasePool.insertFree, h.forFree_eq, hfree, foldl_lt hxs hys]
  cases xs.getLast? with
  | none =>
    refine congrArg some ?_
    rw [Option.elim_none, SimpleBasePool.pushFree]
    split <;> rfl
  | some x =>
    refine congrArg some ?_
    rw [Option.elim_some, SimpleBasePool.linkFree]
    change (if some x = s.freeListEnd then _ else _) = _
    split <;> rfl

/-- A block divides the free blocks by their addresses. -/
theorem Holds.free_lt (h : Holds s (us ++ b :: vs)) :
    (∀ x ∈ free us, x < b.addr) ∧ ∀ y ∈ free vs, b.addr < y := by
  have hmark := h.tiles.mark none (by rintro _ ⟨⟩)
  have hsorted := hmark.free_pairwise
  rw [free_append, free_cons_of_free rfl] at hsorted
  obtain ⟨-, hcons, hbefore⟩ := List.pairwise_append.mp hsorted
  exact ⟨fun x hx ↦ hbefore x hx _ List.mem_cons_self, (List.pairwise_cons.mp hcons).1⟩

/-- A block becomes the first one of the list. -/
theorem Holds.pushFree (h : Holds s (us ++ b :: vs)) (hb : b.request = some n)
    (hus : free us = []) : Holds (s.pushFree b.addr) (us ++ { b with request := none } :: vs) := by
  have hfree : free (us ++ b :: vs) = free vs := by
    rw [free_append, free_cons_of_live hb, hus, List.nil_append]
  have hfree' : free (us ++ { b with request := none } :: vs) = b.addr :: free vs := by
    rw [free_append, free_cons_of_free rfl, hus, List.nil_append]
  have hmark := h.tiles.mark none (by rintro _ ⟨⟩)
  have hb' : { b with request := none } ∈ us ++ { b with request := none } :: vs :=
    List.mem_append_right _ List.mem_cons_self
  have hmem : b.addr ∉ free vs := fun hc ↦ (h.free_lt.2 _ hc).ne rfl
  have hchain := h.chain
  have hend := h.freeListEnd
  rw [hfree] at hchain hend
  refine ⟨Tiles.setNext (b := { b with request := none }) hmark hb', h.begin_pos, h.ptr_le, ?_, ?_⟩
  · rw [hfree']
    change Chain toPtr (SimpleBasePool.cells (setNext _ _ _)) _ _
    rw [cells_setNext]
    exact hchain.push hmem (toPtr_ofPtr h.freeList_pos)
  · rw [hfree']
    change (if _ then _ else _) = _
    by_cases hvs : free vs = []
    · rw [hvs] at hchain ⊢
      exact if_pos hchain
    · have hne : s.freeList ≠ none := by
        rw [hchain.head]
        exact hvs ∘ List.head?_eq_none_iff.mp
      rw [if_neg hne, hend, List.getLast?_cons_of_ne_nil hvs]

/-- A block is put behind the last free one in front of it. -/
theorem Holds.linkFree (h : Holds s (us ++ b :: vs)) (hb : b.request = some n) {xs : List ℕ}
    {x : ℕ} (hus : free us = xs ++ [x]) :
    Holds (s.linkFree x b.addr) (us ++ { b with request := none } :: vs) := by
  have hfree : free (us ++ b :: vs) = xs ++ x :: free vs := by
    rw [free_append, free_cons_of_live hb, hus, List.append_assoc, List.singleton_append]
  have hfree' : free (us ++ { b with request := none } :: vs) =
      xs ++ x :: b.addr :: free vs := by
    rw [free_append, free_cons_of_free rfl, hus, List.append_assoc, List.singleton_append]
  have hmark := h.tiles.mark none (by rintro _ ⟨⟩)
  have hb' : { b with request := none } ∈ us ++ { b with request := none } :: vs :=
    List.mem_append_right _ List.mem_cons_self
  have hpos : 0 < b.addr := h.pos (List.mem_append_right _ List.mem_cons_self)
  obtain ⟨hbefore, hbehind⟩ := h.free_lt
  have hx : x ∈ free us := by simp [hus]
  have hne : b.addr ≠ x := (hbefore x hx).ne'
  have hmem : b.addr ∉ xs ++ x :: free vs := by
    rw [List.append_cons, ← hus, List.mem_append, not_or]
    exact ⟨fun hc ↦ (hbefore _ hc).ne rfl, fun hc ↦ (hbehind _ hc).ne rfl⟩
  obtain ⟨c, hc, -, hcx⟩ := mem_free.mp hx
  have hc' : c ∈ us ++ { b with request := none } :: vs := List.mem_append_left _ hc
  have hchain := h.chain
  have hend := h.freeListEnd
  rw [hfree] at hchain hend
  have htiles := Tiles.setNext (b := { b with request := none }) (p := s.next x) hmark hb'
  refine ⟨hcx ▸ htiles.setNext hc', h.begin_pos, h.ptr_le, ?_, ?_⟩
  · have hcells : SimpleBasePool.cells ((s.setNext b.addr (s.next x)).setNext x (some b.addr)) =
        Function.update (Function.update s.cells b.addr (some (ofPtr (s.next x)))) x
          (some (ofPtr (some b.addr))) := by
      rw [cells_setNext, cells_setNext]
    rw [hfree']
    refine hchain.insert hmem rfl (toPtr_ofPtr fun a ha ↦ Option.some.inj ha ▸ hpos)
      (toPtr_ofPtr_next x) ?_ ?_ ?_
    · intro y hyx hyb
      exact congrArg _ ((congrFun hcells y).trans ((Function.update_of_ne hyx _ _).trans
        (Function.update_of_ne hyb _ _)))
    · exact (congrFun hcells x).trans (Function.update_self _ _ _)
    · exact (congrFun hcells b.addr).trans ((Function.update_of_ne hne _ _).trans
        (Function.update_self _ _ _))
  · have hlast : some x = s.freeListEnd ↔ free vs = [] := hend ▸ eq_getLast?_iff hchain.nodup
    rw [hfree']
    change (if _ then _ else _) = _
    by_cases hvs : free vs = []
    · rw [if_pos (hlast.mpr hvs), hvs, List.append_cons, List.getLast?_concat]
    · rw [if_neg fun hc ↦ hvs (hlast.mp hc), hend, List.append_cons,
        List.append_cons xs x (b.addr :: _), getLast?_append_cons _ _ hvs]

/-- **Putting a block into the list** of free blocks. -/
theorem Holds.insertFree (h : Holds s (us ++ b :: vs)) (hb : b.request = some n) :
    ∃ s', s.insertFree b.addr = some s' ∧ s'.begin = s.begin ∧ s'.size = s.size ∧
      Holds s' (us ++ { b with request := none } :: vs) := by
  have hfree : free (us ++ b :: vs) = free us ++ free vs := by
    rw [free_append, free_cons_of_live hb]
  obtain ⟨hbefore, hbehind⟩ := h.free_lt
  rw [h.insertFree_eq hfree hbefore hbehind]
  rcases List.eq_nil_or_concat (free us) with hnil | ⟨xs, x, hconcat⟩
  · rw [hnil]
    exact ⟨_, rfl, rfl, rfl, h.pushFree hb hnil⟩
  · rw [List.concat_eq_append] at hconcat
    rw [hconcat, List.getLast?_concat]
    exact ⟨_, rfl, rfl, rfl, h.linkFree hb hconcat⟩

/-- The last block of a row ends where the row ends. -/
theorem Tiles.last (h : Tiles mem a (bs ++ [b]) e) : Tiles mem a bs b.addr ∧ b.stop = e := by
  obtain ⟨m, hbs, rfl, -, -, -, hstop⟩ := tiles_append.mp h
  exact ⟨hbs, hstop⟩

/-- A block that ends where the row ends is the last one. -/
theorem Tiles.eq_last (h : Tiles mem a (us ++ b :: vs) e) (hb : b.stop = e) : vs = [] := by
  obtain ⟨m, -, rfl, -, -, -, hvs⟩ := tiles_append.mp h
  have hle := hvs.length_le
  rw [← hb, Block.stop] at hle
  exact List.eq_nil_of_length_eq_zero (by omega)

theorem Holds.getPrevFree {q : ℕ} {ps : List ℕ} (h : Holds s bs) (hfree : free bs = ps ++ [q]) :
    s.getPrevFree q = some ps.getLast? := by
  have hchain := h.chain
  have hlength := h.length_free_le
  rw [hfree] at hchain hlength
  exact hchain.search_before hlength

/-- A block at the end is given back to the rest of the pool. -/
theorem Holds.dropLast (h : Holds s (bs ++ [b])) (hb : b.request = some n) :
    Holds { s with ptr := s.ptr - b.size } bs := by
  obtain ⟨htiles, hstop⟩ := h.tiles.last
  have hptr : s.ptr - b.size = b.addr := by rw [← hstop, Block.stop, Nat.add_sub_cancel]
  have hfree : free (bs ++ [b]) = free bs := by
    rw [free_append, free_cons_of_live hb]
    exact List.append_nil _
  refine ⟨hptr ▸ htiles, h.begin_pos, ?_, hfree ▸ h.chain, hfree ▸ h.freeListEnd⟩
  exact (Nat.sub_le _ _).trans h.ptr_le

theorem shrinkLoop_stop (rounds : ℕ) (h : ∀ b ∈ s.freeListEnd, b + s.blockSize b ≠ s.ptr) :
    shrinkLoop rounds s = some s := by
  cases hend : s.freeListEnd with
  | none => cases rounds <;> simp [SimpleBasePool.shrinkLoop, hend]
  | some b =>
    have hne := h b hend
    cases rounds <;> simp [SimpleBasePool.shrinkLoop, hend, hne]

/-- The pool after a round of `shrink`. -/
def dropFree (s : SimpleBasePool) (b : ℕ) : Option ℕ → SimpleBasePool
  | none => { s with ptr := s.ptr - s.blockSize b, freeListEnd := none, freeList := none }
  | some c => ({ s with ptr := s.ptr - s.blockSize b, freeListEnd := some c } :
      SimpleBasePool).setNext c none

theorem shrinkLoop_succ {rounds c : ℕ} (hend : s.freeListEnd = some c)
    (hc : c + s.blockSize c = s.ptr) (hprev : s.getPrevFree c = some p) :
    shrinkLoop (rounds + 1) s = shrinkLoop rounds (s.dropFree c p) := by
  have hprev' : SimpleBasePool.getPrevFree
      { s with ptr := s.ptr - s.blockSize c, freeListEnd := some c } c = some p := hprev
  rw [SimpleBasePool.shrinkLoop, hend]
  dsimp only
  rw [if_pos hc, hprev', Option.bind_eq_bind, Option.bind_some]
  cases p <;> rfl

/-- A free block at the end is given back. -/
theorem Holds.dropFree (h : Holds s (bs ++ [b])) (hb : b.request = none) :
    Holds (s.dropFree b.addr (free bs).getLast?) bs := by
  obtain ⟨htiles, hstop⟩ := h.tiles.last
  have hblock : s.blockSize b.addr = b.size :=
    (h.tiles.inRow (List.mem_append_right bs List.mem_cons_self)).blockSize
  have hptr : s.ptr - s.blockSize b.addr = b.addr := by
    rw [hblock, ← hstop, Block.stop, Nat.add_sub_cancel]
  have hle : s.ptr - s.blockSize b.addr ≤ s.begin + s.size := (Nat.sub_le _ _).trans h.ptr_le
  have hfree : free (bs ++ [b]) = free bs ++ [b.addr] := by
    rw [free_append, free_cons_of_free hb]
    rfl
  have hchain := h.chain
  rw [hfree] at hchain
  rcases List.eq_nil_or_concat (free bs) with hnil | ⟨xs, x, hxs⟩
  · rw [hnil, List.getLast?_nil]
    refine ⟨?_, h.begin_pos, hle, ?_, ?_⟩
    · change Tiles s.mem s.begin bs (s.ptr - s.blockSize b.addr)
      rw [hptr]
      exact htiles
    · rw [hnil]
      rfl
    · rw [hnil]
      rfl
  · rw [List.concat_eq_append] at hxs
    have hx : x ∈ free bs := by simp [hxs]
    obtain ⟨c, hc, -, hcx⟩ := mem_free.mp hx
    rw [hxs, List.append_assoc, List.singleton_append] at hchain
    have hlast : toPtr (ofPtr none) = toPtr (s.mem b.addr) := by
      rw [List.append_cons] at hchain
      obtain ⟨-, d, hd, hnone⟩ := hchain.suffix
      obtain rfl := Option.some.inj hd
      exact hnone.symm
    rw [hxs, List.getLast?_concat]
    refine ⟨?_, h.begin_pos, hle, ?_, ?_⟩
    · change Tiles (s.setNext x none).mem s.begin bs (s.ptr - s.blockSize b.addr)
      rw [hptr]
      exact hcx ▸ htiles.setNext hc
    · rw [hxs, SimpleBasePool.dropFree, cells_setNext]
      exact hchain.unlink rfl hlast
    · rw [hxs, List.getLast?_concat]
      rfl

theorem dropFree_place (s : SimpleBasePool) (b : ℕ) (p : Option ℕ) :
    (s.dropFree b p).begin = s.begin ∧ (s.dropFree b p).size = s.size := by
  cases p <;> exact ⟨rfl, rfl⟩

/-- **Giving back** free blocks until the last block is in use. -/
theorem Holds.shrinkLoop {rounds : ℕ} (h : Holds s bs) (hrounds : bs.length ≤ rounds) :
    ∃ s' bs', shrinkLoop rounds s = some s' ∧ s'.begin = s.begin ∧ s'.size = s.size ∧
      Holds s' bs' ∧ live bs' = live bs ∧ Tight bs' := by
  induction bs using List.reverseRecOn generalizing s rounds with
  | nil =>
    have hend : s.freeListEnd = none := h.freeListEnd
    refine ⟨s, [], shrinkLoop_stop rounds ?_, rfl, rfl, h, rfl, by rintro _ ⟨⟩⟩
    rw [hend]
    rintro _ ⟨⟩
  | append_singleton bs b ih =>
    obtain ⟨htiles, hstop⟩ := h.tiles.last
    have hblock := (h.tiles.inRow (List.mem_append_right bs List.mem_cons_self)).blockSize
    have hend := h.freeListEnd
    rcases Option.eq_none_or_eq_some b.request with hnone | ⟨n, hsome⟩
    · have hfree : free (bs ++ [b]) = free bs ++ [b.addr] := by
        rw [free_append, free_cons_of_free hnone]
        rfl
      have hlive : live (bs ++ [b]) = live bs := by
        rw [live_append, live_cons_of_free hnone]
        exact List.append_nil _
      rw [hfree, List.getLast?_concat] at hend
      obtain ⟨rounds, rfl⟩ : ∃ k, rounds = k + 1 := by
        rw [List.length_append] at hrounds
        exact Nat.exists_eq_add_one.mpr ((Nat.succ_pos _).trans_le hrounds)
      have hstop' : b.addr + s.blockSize b.addr = s.ptr := by
        rw [blockSize, hblock, ← hstop, Block.stop]
      rw [shrinkLoop_succ hend hstop' (h.getPrevFree hfree), hlive]
      rw [List.length_append] at hrounds
      obtain ⟨s', bs', hrun, hbegin, hsize, hrest⟩ := ih (h.dropFree hnone)
        (Nat.le_of_succ_le_succ hrounds)
      obtain ⟨hbegin₀, hsize₀⟩ := dropFree_place s b.addr (free bs).getLast?
      exact ⟨s', bs', hrun, hbegin.trans hbegin₀, hsize.trans hsize₀, hrest⟩
    · -- the last block is in use, the last free one ends before it
      refine ⟨s, bs ++ [b], ?_, rfl, rfl, h, rfl, ?_⟩
      · apply shrinkLoop_stop rounds
        intro q hq hc
        rw [hend, free_append, free_cons_of_live hsome] at hq
        rw [show free ([] : List Block) = [] from rfl, List.append_nil] at hq
        obtain ⟨c, hc', -, rfl⟩ := mem_free.mp (List.mem_of_getLast? hq)
        have hrow := htiles.inRow hc'
        have hc'' := hrow.stop_le
        have hheader := (h.tiles.inRow (List.mem_append_right bs List.mem_cons_self)).header_lt
        rw [blockSize, hrow.blockSize] at hc
        rw [Block.stop] at hc'' hstop
        omega
      · exact tight_concat hsome

/-- **Deallocation** of a pointer in use. -/
theorem Holds.deallocate (h : Holds s bs) {q : ℕ} (hq : (q, n) ∈ live bs) :
    ∃ s' bs', s.deallocate (some q) = some s' ∧ s'.begin = s.begin ∧ s'.size = s.size ∧
      Holds s' bs' ∧ (live bs).Perm ((q, n) :: live bs') ∧
      Tight bs' := by
  obtain ⟨b, hb, hsome, rfl⟩ := mem_live.mp hq
  obtain ⟨us, vs, rfl⟩ := List.append_of_mem hb
  have hblock : s.blockSize b.addr = b.size := (h.tiles.inRow hb).blockSize
  have hlive : (live (us ++ b :: vs)).Perm ((data b.addr, n) :: (live us ++ live vs)) := by
    rw [live_append, live_cons_of_live hsome]
    exact List.perm_middle
  rw [SimpleBasePool.deallocate, data, Nat.add_sub_cancel]
  by_cases hstop : b.addr + s.blockSize b.addr = s.ptr
  · -- the last block
    rw [hblock] at hstop
    obtain rfl := h.tiles.eq_last hstop
    have hdrop := h.dropLast hsome
    obtain ⟨s', bs', hrun, hbegin, hsize, hs', hlive', hlast⟩ := hdrop.shrinkLoop hdrop.length_le
    refine ⟨s', bs', ?_, hbegin, hsize, hs', ?_, hlast⟩
    · rw [← hblock] at hrun hstop
      rw [if_pos hstop, Option.bind_eq_bind, Option.bind_some]
      exact hrun
    · rw [hlive']
      rw [show live ([] : List Block) = [] from rfl, List.append_nil] at hlive
      exact hlive
  · obtain ⟨s₁, hinsert, hbegin₁, hsize₁, hs₁⟩ := h.insertFree hsome
    obtain ⟨s', bs', hrun, hbegin, hsize, hs', hlive', hlast⟩ := hs₁.shrinkLoop hs₁.length_le
    refine ⟨s', bs', ?_, hbegin.trans hbegin₁, hsize.trans hsize₁, hs', ?_, hlast⟩
    · rw [if_neg hstop, hinsert, Option.bind_eq_bind, Option.bind_some]
      exact hrun
    · have hfreed : live (us ++ { b with request := none } :: vs) = live us ++ live vs := by
        rw [live_append, live_cons_of_free rfl]
      rw [hlive', hfreed]
      exact hlive

end SimpleBasePool

end DuoFirmware.System
