import DuoFirmware.System.PoolInvariant

/-!
# Runs of the pool allocator

A pool is used through `allocate` and `deallocate`, and its users write to the memory that they were
given. As long as they only return what they were given and stay inside of it, the blocks are
intact. -/

namespace DuoFirmware.System

open LinkedList SimpleBasePool

/-- A pool with the pointers in use and the sizes that were requested. -/
structure Heap where
  pool : SimpleBasePool
  inUse : List (ℕ × ℕ)

namespace Heap

inductive Op where
  | allocate (size : ℕ)
  | deallocate (p : Option ℕ)
  | store (a w : ℕ)

/-- A pool before its first use. -/
def new (location size : ℕ) (mem : ℕ → ℕ) : Heap := ⟨SimpleBasePool.new location size mem, []⟩

def step (h : Heap) : Op → Option Heap
  | .allocate size => do
    let (p, pool) ← h.pool.allocate size
    match p with
    | none => some ⟨pool, h.inUse⟩
    | some q => some ⟨pool, (q, size) :: h.inUse⟩
  | .deallocate p => do
    let pool ← h.pool.deallocate p
    some ⟨pool, h.inUse.filter fun x ↦ some x.1 ≠ p⟩
  | .store a w => some ⟨h.pool.write a w, h.inUse⟩

def run : Heap → List Op → Option Heap
  | h, [] => some h
  | h, op :: ops => do
    let h ← h.step op
    h.run ops

/-- A use of the pool that is allowed: a size that is not too large for `size_t`, a pointer that is
null or in use, and a store inside a piece of memory in use. -/
def Allowed (h : Heap) : Op → Prop
  | .allocate size => Representable size
  | .deallocate p => ∀ q ∈ p, q ∈ h.inUse.map Prod.fst
  | .store a _ => ∃ x ∈ h.inUse, x.1 ≤ a ∧ a < x.1 + x.2

def AllowedRun : Heap → List Op → Prop
  | _, [] => True
  | h, op :: ops => h.Allowed op ∧ ∀ h' ∈ h.step op, h'.AllowedRun ops

instance (h : Heap) : ∀ op, Decidable (h.Allowed op)
  | .allocate _ => inferInstanceAs (Decidable (_ < _))
  | .deallocate p => inferInstanceAs (Decidable (∀ q ∈ p, q ∈ h.inUse.map Prod.fst))
  | .store a _ => inferInstanceAs (Decidable (∃ x ∈ h.inUse, x.1 ≤ a ∧ a < x.1 + x.2))

instance decidableAllowedRun : ∀ (ops : List Op) (h : Heap), Decidable (h.AllowedRun ops)
  | [], _ => .isTrue trivial
  | op :: ops, h =>
    have := decidableAllowedRun ops
    inferInstanceAs (Decidable (h.Allowed op ∧ ∀ h' ∈ h.step op, h'.AllowedRun ops))

/-- A pool at a location whose blocks are intact. -/
structure Intact (location size : ℕ) (h : Heap) (bs : List Block) : Prop where
  begin_eq : h.pool.begin = location
  size_eq : h.pool.size = size
  holds : Holds h.pool bs
  inUse : h.inUse.Perm (live bs)
  tight : Tight bs

variable {location size : ℕ} {h : Heap} {bs : List Block}

theorem intact_new (location size : ℕ) (mem : ℕ → ℕ) (hlocation : 0 < location) :
    Intact location size (new location size mem) [] :=
  ⟨rfl, rfl, ⟨rfl, hlocation, Nat.le_add_right _ _, rfl, rfl⟩, List.Perm.nil, by rintro _ ⟨⟩⟩

/-- Pieces of memory in use are apart. -/
theorem Intact.apart (hi : Intact location size h bs) :
    h.inUse.Pairwise fun x y ↦ x.1 + x.2 < y.1 ∨ y.1 + y.2 < x.1 := by
  have hsymm : ∀ {x y : ℕ × ℕ}, (x.1 + x.2 < y.1 ∨ y.1 + y.2 < x.1) →
      (y.1 + y.2 < x.1 ∨ x.1 + x.2 < y.1) := Or.symm
  refine (hi.inUse.pairwise_iff hsymm).mpr (List.pairwise_filterMap.mpr ?_)
  refine hi.holds.tiles.pairwise.imp_of_mem fun {b c} hb hc hbc ↦ ?_
  intro x hx y hy
  obtain ⟨n, hn, rfl⟩ := Option.map_eq_some_iff.mp hx
  obtain ⟨m, -, rfl⟩ := Option.map_eq_some_iff.mp hy
  have hoffers := (hi.holds.tiles.inRow hb).request_le n hn
  refine .inl ?_
  rw [Block.stop] at hbc
  rw [data, data]
  rw [headerSize] at hoffers ⊢
  omega

/-- **A store** inside a piece of memory in use does not meet a header. -/
theorem Intact.store (hi : Intact location size h bs) {a w : ℕ} (ha : h.Allowed (.store a w)) :
    Intact location size ⟨h.pool.write a w, h.inUse⟩ bs := by
  obtain ⟨⟨q, n⟩, hx, hle, hlt⟩ := ha
  obtain ⟨b, hb, hn, rfl⟩ := mem_live.mp (hi.inUse.mem_iff.mp hx)
  have hoffers := (hi.holds.tiles.inRow hb).request_le n hn
  have hmem : ∀ c ∈ bs, c.addr ≠ a ∧ c.addr + 4 ≠ a := by
    intro c hc
    have hapart := hi.holds.tiles.apart hb hc
    have hheader := (hi.holds.tiles.inRow hc).header_lt
    rw [Block.stop, Block.stop] at hapart
    rw [data, headerSize] at hle hlt
    rw [headerSize] at hoffers hheader
    rcases hapart with rfl | hapart | hapart <;> omega
  refine ⟨hi.begin_eq, hi.size_eq, hi.holds.congr_mem ?_ ?_, hi.inUse, hi.tight⟩
  · exact fun c hc ↦ Function.update_of_ne (hmem c hc).1 _ _
  · exact fun c hc ↦ Function.update_of_ne (hmem c hc).2 _ _

/-- **Steps.** An allowed use of the pool ends, and keeps the blocks intact. -/
theorem Intact.step (hi : Intact location size h bs) {op : Op} (hop : h.Allowed op) :
    ∃ h' bs', h.step op = some h' ∧ Intact location size h' bs' := by
  cases op with
  | allocate n =>
    obtain ⟨p, s', hrun, hbegin, hsize, hcases⟩ := hi.holds.allocate hop
    rw [Heap.step, hrun, Option.bind_eq_bind, Option.bind_some]
    rcases hcases with ⟨rfl, rfl⟩ | ⟨q, bs', rfl, hs', hlive, htight⟩
    · exact ⟨_, bs, rfl, hi⟩
    · refine ⟨_, bs', rfl, hbegin.trans hi.begin_eq, hsize.trans hi.size_eq, hs', ?_,
        htight hi.tight⟩
      exact (hi.inUse.cons _).trans hlive.symm
  | deallocate p =>
    cases p with
    | none =>
      refine ⟨_, bs, rfl, ?_⟩
      have hfilter : (h.inUse.filter fun x ↦ some x.1 ≠ none) = h.inUse :=
        List.filter_eq_self.mpr fun _ _ ↦ rfl
      rw [hfilter]
      exact hi
    | some q =>
      obtain ⟨⟨q', n⟩, hx, rfl⟩ := List.mem_map.mp (hop q rfl)
      obtain ⟨s', bs', hrun, hbegin, hsize, hs', hlive, htight⟩ :=
        hi.holds.deallocate (hi.inUse.mem_iff.mp hx)
      rw [Heap.step, hrun, Option.bind_eq_bind, Option.bind_some]
      refine ⟨_, bs', rfl, hbegin.trans hi.begin_eq, hsize.trans hi.size_eq, hs', ?_, htight⟩
      have hperm := hi.inUse.trans hlive
      -- no other piece of memory in use starts at the pointer
      have hother : ∀ x ∈ live bs', x.1 ≠ q' := by
        have happart := (hperm.pairwise_iff Or.symm).mp hi.apart
        intro x hx' heq
        have hcons := (List.pairwise_cons.mp happart).1 x hx'
        rw [heq] at hcons
        omega
      have hkeep : (live bs').filter (fun x ↦ some x.1 ≠ some q') = live bs' :=
        List.filter_eq_self.mpr fun x hx' ↦
          decide_eq_true fun hc ↦ hother x hx' (Option.some.inj hc)
      have hfilter := hperm.filter fun x ↦ some x.1 ≠ some q'
      rw [List.filter_cons_of_neg (by simp), hkeep] at hfilter
      exact hfilter
  | store a w => exact ⟨_, bs, rfl, hi.store hop⟩

/-- Throughout a run whose steps keep the heap intact. -/
theorem Intact.run_of {Step : Heap → Op → Prop} {Run : Heap → List Op → Prop}
    (hcons : ∀ h op ops, Run h (op :: ops) → Step h op ∧ ∀ h' ∈ h.step op, Run h' ops)
    (hkeeps : ∀ h bs op, Intact location size h bs → Step h op →
      ∃ h' bs', h.step op = some h' ∧ Intact location size h' bs')
    {ops : List Op} (hi : Intact location size h bs) (hops : Run h ops) :
    ∃ h' bs', h.run ops = some h' ∧ Intact location size h' bs' := by
  induction ops generalizing h bs with
  | nil => exact ⟨h, bs, rfl, hi⟩
  | cons op ops ih =>
    obtain ⟨hop, hrest⟩ := hcons h op ops hops
    obtain ⟨h', bs', hstep, hi'⟩ := hkeeps h bs op hi hop
    rw [Heap.run, hstep, Option.bind_eq_bind, Option.bind_some]
    exact ih hi' (hrest h' hstep)

theorem Intact.run {ops : List Op} (hi : Intact location size h bs) (hops : h.AllowedRun ops) :
    ∃ h' bs', h.run ops = some h' ∧ Intact location size h' bs' :=
  hi.run_of (fun _ _ _ hrun ↦ hrun) (fun _ _ _ hi hop ↦ hi.step hop) hops

/-! ## The heap invariant -/

/-- What holds of a pool at a location and of the pieces of memory that are in use. -/
structure HeapInvariant (location size : ℕ) (h : Heap) (bs : List Block) : Prop where
  /-- The blocks, free or in use, tile the used part of the pool. -/
  tiles : Tiles h.pool.mem location bs h.pool.ptr
  inside : h.pool.ptr ≤ location + size
  disjoint : bs.Pairwise fun x y ↦ x.stop ≤ y.addr
  /-- The blocks in use are those that were handed out. -/
  inUse : h.inUse.Perm (live bs)
  /-- They offer as much as was requested. -/
  offers : ∀ x ∈ h.inUse, ∃ b ∈ bs, data b.addr = x.1 ∧ location ≤ b.addr ∧ x.1 + x.2 ≤ b.stop ∧
    b.stop ≤ location + size
  apart : h.inUse.Pairwise fun x y ↦ x.1 + x.2 < y.1 ∨ y.1 + y.2 < x.1
  /-- The list of free blocks consists of the free blocks. -/
  chain : Chain toPtr h.pool.cells h.pool.freeList (free bs)
  sorted : (free bs).Pairwise (· < ·)
  freeListEnd : h.pool.freeListEnd = (free bs).getLast?
  freeListEnd_eq_none : h.pool.freeListEnd = none ↔ h.pool.freeList = none

theorem Intact.heapInvariant (hi : Intact location size h bs) :
    HeapInvariant location size h bs := by
  have hptr : h.pool.ptr ≤ location + size := by
    rw [← hi.begin_eq, ← hi.size_eq]
    exact hi.holds.ptr_le
  have htiles : Tiles h.pool.mem location bs h.pool.ptr := hi.begin_eq ▸ hi.holds.tiles
  refine ⟨htiles, hptr, htiles.pairwise, hi.inUse, ?_, hi.apart, hi.holds.chain,
    htiles.free_pairwise, hi.holds.freeListEnd, ?_⟩
  · rintro ⟨q, n⟩ hx
    obtain ⟨b, hb, hn, rfl⟩ := mem_live.mp (hi.inUse.mem_iff.mp hx)
    have hrow := htiles.inRow hb
    have hoffers := hrow.request_le n hn
    refine ⟨b, hb, rfl, hrow.le_addr, ?_, hrow.stop_le.trans hptr⟩
    rw [data, Block.stop, Nat.add_assoc]
    exact Nat.add_le_add_left hoffers _
  · rw [hi.holds.freeListEnd, hi.holds.chain.head, List.getLast?_eq_none_iff,
      List.head?_eq_none_iff]

/-- **The heap invariant** holds after every allowed use of a pool. -/
theorem heap_invariant (location size : ℕ) (mem : ℕ → ℕ) (hlocation : 0 < location) (ops : List Op)
    (hops : (new location size mem).AllowedRun ops) :
    ∃ h bs, (new location size mem).run ops = some h ∧ HeapInvariant location size h bs := by
  obtain ⟨h, bs, hrun, hi⟩ := (intact_new location size mem hlocation).run hops
  exact ⟨h, bs, hrun, hi.heapInvariant⟩

/-- A run in which a free block is handed out again, and all blocks are given back at the end. -/
theorem heap_invariant_reuse : ∃ h bs, (new 100 40 fun _ ↦ 0).run [.allocate 4, .allocate 8,
    .store 108 7, .deallocate (some 108), .allocate 2, .deallocate none, .deallocate (some 108),
    .deallocate (some 124)] = some h ∧ HeapInvariant 100 40 h bs :=
  heap_invariant 100 40 (fun _ ↦ 0) (by decide) _ (by decide +kernel)

end Heap

end DuoFirmware.System
