import DuoFirmware.System.PoolRuns

/-!
# Empty pools and requests that do not fit

Free blocks are never merged. They do not have to be: when the last block in use is given back, all
blocks are free, and `shrink` gives them back one after the other.

A request is rounded up before it is compared with the room that is left. The sums wrap around for
the largest sizes, and then a request for almost all of the address space is taken for one of a few
bytes.
-/

namespace DuoFirmware.System

open LinkedList

namespace SimpleBasePool

variable {s : SimpleBasePool} {bs : List Block} {n w : ℕ}

/-! ## Empty pools -/

/-- A row without blocks in use whose last block is in use is empty. -/
theorem eq_nil_of_live (hlive : live bs = []) (htight : Tight bs) : bs = [] := by
  rcases List.eq_nil_or_concat bs with rfl | ⟨us, b, rfl⟩
  · rfl
  · rw [List.concat_eq_append] at hlive htight
    rw [Tight, List.getLast?_concat] at htight
    obtain ⟨n, hn⟩ := Option.ne_none_iff_exists'.mp (htight b rfl)
    rw [live_append, live_cons_of_live hn] at hlive
    cases List.append_eq_nil_iff.mp hlive |>.2

/-- What the constructor leaves: nothing is in use, and nothing is in the list of free blocks. -/
structure Initial (location size : ℕ) (s : SimpleBasePool) : Prop where
  begin_eq : s.begin = location
  size_eq : s.size = size
  ptr_eq : s.ptr = s.begin
  freeList_eq : s.freeList = none
  freeListEnd_eq : s.freeListEnd = none

theorem initial_new (location size : ℕ) (mem : ℕ → ℕ) :
    Initial location size (new location size mem) := ⟨rfl, rfl, rfl, rfl, rfl⟩

theorem Holds.initial (h : Holds s []) : Initial s.begin s.size s :=
  ⟨rfl, rfl, h.tiles.symm, h.chain, h.freeListEnd⟩

/-- The list of free blocks is empty and there is no room. -/
def Refused (s : SimpleBasePool) (n : ℕ) : Prop :=
  s.size - (s.ptr - s.begin) < aligned ((headerSize + n) % sizeMax) ∧ s.freeList = none

theorem forFree_nil {α : Type} (h : s.freeList = none) (f : α → ℕ → α) (x : α) :
    s.forFree f x = some x := by
  rw [forFree, h]
  cases s.size <;> rfl

/-- A request that is refused changes nothing. -/
theorem allocate_of_refused (h : Refused s n) : s.allocate n = some (none, s) := by
  obtain ⟨hroom, hfree⟩ := h
  rw [allocate]
  dsimp only
  rw [if_neg (not_le.mpr hroom), forFree_nil hfree]
  rfl

/-- There is room for a request. -/
theorem allocate_of_room (h : ¬ s.size - (s.ptr - s.begin) < aligned ((headerSize + n) % sizeMax)) :
    ∃ s', s.allocate n = some (some (data s.ptr), s') := by
  rw [allocate]
  dsimp only
  rw [if_pos (not_lt.mp h)]
  exact ⟨_, rfl⟩

/-- **Empty pools** answer every request in the same way. -/
theorem Initial.allocate_fst {location size : ℕ} {t : SimpleBasePool}
    (hs : Initial location size s) (ht : Initial location size t) (n : ℕ) :
    (s.allocate n).map Prod.fst = (t.allocate n).map Prod.fst := by
  have hroom : ∀ {u : SimpleBasePool}, Initial location size u →
      u.size - (u.ptr - u.begin) = size := fun hu ↦ by
    rw [hu.size_eq, hu.ptr_eq, Nat.sub_self, Nat.sub_zero]
  by_cases hfits : size < aligned ((headerSize + n) % sizeMax)
  · rw [allocate_of_refused ⟨(hroom hs).trans_lt hfits, hs.freeList_eq⟩,
      allocate_of_refused ⟨(hroom ht).trans_lt hfits, ht.freeList_eq⟩]
    rfl
  · obtain ⟨s', hs'⟩ := allocate_of_room (s := s) (n := n) (by rwa [hroom hs])
    obtain ⟨t', ht'⟩ := allocate_of_room (s := t) (n := n) (by rwa [hroom ht])
    rw [hs', ht', hs.ptr_eq, hs.begin_eq, ht.ptr_eq, ht.begin_eq]
    rfl

/-! ## Requests that do not fit -/

/-- The loop of an allocation finds nothing if every block is too small. -/
theorem foldl_visit_eq_none_iff (ps : List ℕ) (x : Search) :
    (ps.foldl (Search.visit s w) x).candidate = none ↔
      x.candidate = none ∧ ∀ q ∈ ps, s.blockSize q < w := by
  induction ps generalizing x with
  | nil => exact ⟨fun h ↦ ⟨h, by rintro _ ⟨⟩⟩, fun h ↦ h.1⟩
  | cons q ps ih =>
    rw [List.foldl_cons, ih, List.forall_mem_cons, ← and_assoc]
    refine and_congr_left fun _ ↦ ?_
    rw [Search.visit]
    by_cases hsize : s.blockSize q ≥ w
    · -- there is a candidate after this round
      rw [if_pos hsize]
      refine ⟨fun hnone ↦ ?_, fun hnone ↦ absurd hnone.2 (not_lt.mpr hsize)⟩
      rcases hx : x.candidate with _ | candidate
      · rw [hx] at hnone
        cases hnone
      · rw [hx] at hnone
        dsimp only at hnone
        split at hnone <;> cases hnone
    · rw [if_neg hsize, and_iff_left (not_le.mp hsize)]

/-- **A request fails** if there is no room for it and no free block is large enough. -/
theorem Holds.allocate_eq_none_iff (h : Holds s bs) (n : ℕ) :
    s.allocate n = some (none, s) ↔
      s.size - (s.ptr - s.begin) < aligned ((headerSize + n) % sizeMax) ∧
        ∀ b ∈ bs, b.request = none → b.size < aligned ((headerSize + n) % sizeMax) := by
  have hfree : (∀ q ∈ free bs, s.blockSize q < aligned ((headerSize + n) % sizeMax)) ↔
      ∀ b ∈ bs, b.request = none → b.size < aligned ((headerSize + n) % sizeMax) := by
    constructor
    · intro hall b hb hnone
      have := hall b.addr (mem_free.mpr ⟨b, hb, hnone, rfl⟩)
      rwa [blockSize, (h.tiles.inRow hb).blockSize] at this
    · intro hall q hq
      obtain ⟨b, hb, hnone, rfl⟩ := mem_free.mp hq
      rw [blockSize, (h.tiles.inRow hb).blockSize]
      exact hall b hb hnone
  by_cases hroom : s.size - (s.ptr - s.begin) < aligned ((headerSize + n) % sizeMax)
  · rw [and_iff_right hroom, ← hfree]
    have hcandidate := foldl_visit_eq_none_iff (s := s)
      (w := aligned ((headerSize + n) % sizeMax)) (free bs) ⟨none, none, none⟩
    rw [and_iff_right rfl] at hcandidate
    rw [← hcandidate, SimpleBasePool.allocate]
    dsimp only
    rw [if_neg (not_le.mpr hroom), h.forFree_eq, Option.bind_eq_bind, Option.bind_some]
    generalize (free bs).foldl (Search.visit s _) ⟨none, none, none⟩ = x
    rcases x.candidate with _ | q
    · exact ⟨fun _ ↦ rfl, fun _ ↦ rfl⟩
    · refine ⟨fun hc ↦ ?_, fun hc ↦ by cases hc⟩
      cases hc
  · obtain ⟨s', hrun⟩ := allocate_of_room hroom
    rw [hrun]
    refine ⟨fun hc ↦ ?_, fun hc ↦ absurd hc.1 hroom⟩
    cases hc

/-- The sizes for which a sum wraps around are taken for a few bytes. -/
theorem aligned_le (hn : ¬ Representable n) (hlt : n < sizeMax) :
    aligned ((headerSize + n) % sizeMax) ≤ headerSize := by
  rw [Representable, headerSize, sizeMax] at hn
  rw [sizeMax] at hlt
  rw [aligned, headerSize, sizeMax]
  omega

/-- **A request for more than the pool** fails if its size is representable, or if it is refused for
the few bytes that it is taken for. -/
theorem Holds.allocate_oversized_iff (h : Holds s bs) (hn : s.size < n) (hlt : n < sizeMax) :
    s.allocate n = some (none, s) ↔ Representable n ∨ Refused s n := by
  rw [h.allocate_eq_none_iff]
  by_cases hrep : Representable n
  · have haligned := lt_aligned hrep
    refine ⟨fun _ ↦ .inl hrep, fun _ ↦ ⟨by omega, fun b hb _ ↦ ?_⟩⟩
    have hrow := h.tiles.inRow hb
    have hle := hrow.le_addr
    have hstop := hrow.stop_le
    have hptr := h.ptr_le
    rw [Block.stop] at hstop
    omega
  · -- every free block is larger than a header
    have hsmall := aligned_le hrep hlt
    have hblocks : (∀ b ∈ bs, b.request = none → b.size < aligned ((headerSize + n) % sizeMax)) ↔
        s.freeList = none := by
      rw [h.chain.head, List.head?_eq_none_iff]
      constructor
      · intro hall
        refine List.eq_nil_iff_forall_not_mem.mpr fun q hq ↦ ?_
        obtain ⟨b, hb, hnone, -⟩ := mem_free.mp hq
        have hheader := (h.tiles.inRow hb).header_lt
        exact absurd (hall b hb hnone) (not_lt.mpr (hsmall.trans hheader.le))
      · intro hnil b hb hnone
        have hq : b.addr ∈ free bs := mem_free.mpr ⟨b, hb, hnone, rfl⟩
        rw [hnil] at hq
        cases hq
    rw [hblocks, Refused, or_iff_right hrep]

end SimpleBasePool

/-! ## Runs -/

open SimpleBasePool

namespace Heap

variable {location size : ℕ} {h : Heap} {bs : List Block}

theorem Intact.initial (hi : Intact location size h bs) (hnone : h.inUse = []) :
    Initial location size h.pool := by
  have hlive : live bs = [] := List.perm_nil.mp (hnone ▸ hi.inUse.symm)
  obtain rfl := eq_nil_of_live hlive hi.tight
  have hinitial := hi.holds.initial
  rwa [hi.begin_eq, hi.size_eq] at hinitial

/-- **The pool is recovered** whenever nothing is in use: it is as the constructor left it, and
answers every request as it would have done then. -/
theorem recovered (location size : ℕ) (mem : ℕ → ℕ) (hlocation : 0 < location) (ops : List Op)
    (hops : (new location size mem).AllowedRun ops) :
    ∃ h, (new location size mem).run ops = some h ∧ (h.inUse = [] →
      Initial location size h.pool ∧ ∀ n, (h.pool.allocate n).map Prod.fst =
        ((SimpleBasePool.new location size mem).allocate n).map Prod.fst) := by
  obtain ⟨h, bs, hrun, hi⟩ := (intact_new location size mem hlocation).run hops
  refine ⟨h, hrun, fun hnone ↦ ?_⟩
  have hinitial := hi.initial hnone
  exact ⟨hinitial, hinitial.allocate_fst (initial_new location size mem)⟩

/-- Three blocks that are given back out of order. -/
theorem recovered_three : ∃ h, (new 100 80 fun _ ↦ 0).run [.allocate 4, .allocate 8, .allocate 1,
    .deallocate (some 124), .deallocate (some 108), .deallocate (some 144)] = some h ∧
      (h.inUse = [] → Initial 100 80 h.pool ∧ ∀ n, (h.pool.allocate n).map Prod.fst =
        ((SimpleBasePool.new 100 80 fun _ ↦ 0).allocate n).map Prod.fst) :=
  recovered 100 80 (fun _ ↦ 0) (by decide) _ (by decide +kernel)

/-- A use of the pool that is allowed, or a request that is refused. -/
def Harmless (h : Heap) : Op → Prop
  | .allocate n => h.Allowed (.allocate n) ∨ Refused h.pool n
  | .deallocate p => h.Allowed (.deallocate p)
  | .store a w => h.Allowed (.store a w)

def HarmlessRun : Heap → List Op → Prop
  | _, [] => True
  | h, op :: ops => h.Harmless op ∧ ∀ h' ∈ h.step op, h'.HarmlessRun ops

instance (s : SimpleBasePool) (n : ℕ) : Decidable (Refused s n) :=
  inferInstanceAs (Decidable (_ ∧ _))

instance (h : Heap) : ∀ op, Decidable (h.Harmless op)
  | .allocate _ => inferInstanceAs (Decidable (_ ∨ _))
  | .deallocate p => inferInstanceAs (Decidable (h.Allowed (.deallocate p)))
  | .store a w => inferInstanceAs (Decidable (h.Allowed (.store a w)))

instance decidableHarmlessRun : ∀ (ops : List Op) (h : Heap), Decidable (h.HarmlessRun ops)
  | [], _ => .isTrue trivial
  | op :: ops, h =>
    have := decidableHarmlessRun ops
    inferInstanceAs (Decidable (h.Harmless op ∧ ∀ h' ∈ h.step op, h'.HarmlessRun ops))

theorem Intact.step_harmless (hi : Intact location size h bs) {op : Op} (hop : h.Harmless op) :
    ∃ h' bs', h.step op = some h' ∧ Intact location size h' bs' := by
  cases op with
  | allocate n =>
    rcases hop with hop | hop
    · exact hi.step hop
    · refine ⟨h, bs, ?_, hi⟩
      rw [Heap.step, allocate_of_refused hop]
      rfl
  | deallocate p => exact hi.step hop
  | store a w => exact hi.step hop

theorem Intact.run_harmless {ops : List Op} (hi : Intact location size h bs)
    (hops : h.HarmlessRun ops) : ∃ h' bs', h.run ops = some h' ∧ Intact location size h' bs' :=
  hi.run_of (fun _ _ _ hrun ↦ hrun) (fun _ _ _ hi hop ↦ hi.step_harmless hop) hops

/-- **Oversized requests.** In every state that is reached with requests that are representable or
refused, a request for more than the pool fails without a change if and only if it is one of
these. -/
theorem oversized_iff (location size : ℕ) (mem : ℕ → ℕ) (hlocation : 0 < location) (ops : List Op)
    (hops : (new location size mem).HarmlessRun ops) (n : ℕ) (hn : size < n) (hlt : n < sizeMax) :
    ∃ h, (new location size mem).run ops = some h ∧
      (h.pool.allocate n = some (none, h.pool) ↔ Representable n ∨ Refused h.pool n) := by
  obtain ⟨h, bs, hrun, hi⟩ := (intact_new location size mem hlocation).run_harmless hops
  exact ⟨h, hrun, hi.holds.allocate_oversized_iff (by rwa [hi.size_eq]) hlt⟩

/-- A full pool refuses the largest sizes too. -/
theorem oversized_iff_full : ∃ h, (new 100 40 fun _ ↦ 0).run [.allocate 28, .allocate 4294967292,
    .allocate 4] = some h ∧ (h.pool.allocate 4294967294 = some (none, h.pool) ↔
      Representable 4294967294 ∨ Refused h.pool 4294967294) :=
  oversized_iff 100 40 (fun _ ↦ 0) (by decide) _ (by decide +kernel) 4294967294 (by decide)
    (by decide)

/-- A request for almost all of the address space gets a block of eight bytes. -/
theorem not_oversized_wraps : (SimpleBasePool.new 100 40 fun _ ↦ 0).size < 4294967292 ∧
    ((SimpleBasePool.new 100 40 fun _ ↦ 0).allocate 4294967292).map Prod.fst =
      some (some 108) := by
  decide +kernel

end Heap

end DuoFirmware.System
