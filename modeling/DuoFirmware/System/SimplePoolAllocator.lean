import Mathlib.Tactic
import DuoFirmware.Lib.LinkedList

/-!
# The pool allocator

`SimpleBasePool` hands out blocks of a piece of memory. Each block starts with a header of two
words, the link to the next free block and the size of the block. Blocks are taken from the rest of
the pool as long as it suffices, and then from the list of free blocks; free blocks at the end are
given back to the rest.

Addresses are natural numbers. Memory is read and written by words, at the addresses of these; a
null pointer is zero in memory.
-/

namespace DuoFirmware.System

open LinkedList

/-- The range of `size_t`. -/
def sizeMax : ℕ := 4294967296

/-- A word that is read as a pointer. -/
def toPtr (w : ℕ) : Option ℕ := if w = 0 then none else some w

/-- A pointer in memory. -/
def ofPtr (p : Option ℕ) : ℕ := p.getD 0

structure SimpleBasePool where
  begin : ℕ
  size : ℕ
  ptr : ℕ
  freeList : Option ℕ
  freeListEnd : Option ℕ
  mem : ℕ → ℕ

namespace SimpleBasePool

/-- The size of a `BlockHeader`. -/
def headerSize : ℕ := 8

variable (s : SimpleBasePool)

/-- The constructor. -/
def new (location size : ℕ) (mem : ℕ → ℕ) : SimpleBasePool :=
  ⟨location, size, location, none, none, mem⟩

/-- A word is written. -/
def write (a w : ℕ) : SimpleBasePool := { s with mem := Function.update s.mem a w }

/-- `next` of a block. -/
def next (b : ℕ) : Option ℕ := toPtr (s.mem b)

def setNext (b : ℕ) (next : Option ℕ) : SimpleBasePool := s.write b (ofPtr next)

/-- `size` of a block. -/
def blockSize (b : ℕ) : ℕ := s.mem (b + 4)

def setBlockSize (b size : ℕ) : SimpleBasePool := s.write (b + 4) size

/-- `data` of a block. -/
def data (b : ℕ) : ℕ := b + headerSize

def aligned (sz : ℕ) : ℕ := (sz + (4 - sz % 4)) % sizeMax

/-- The words of the memory as cells of the list of free blocks. -/
def cells : ℕ → Option ℕ := fun a ↦ some (s.mem a)

/-- A loop over the list of free blocks, which has fewer elements than the pool has bytes. -/
def forFree {α : Type} (f : α → ℕ → α) (x : α) : Option α :=
  walk toPtr s.cells f s.size x s.freeList

/-- The variables of the loop of `allocate`. -/
structure Search where
  candidate : Option ℕ
  prev : Option ℕ
  pr : Option ℕ

/-- The body of that loop: the smallest block is preferred. -/
def Search.visit (alignedSize : ℕ) (x : Search) (b : ℕ) : Search :=
  if s.blockSize b ≥ alignedSize then
    match x.candidate with
    | none => ⟨some b, x.pr, some b⟩
    | some candidate =>
      if s.blockSize candidate > s.blockSize b then ⟨some b, x.pr, some b⟩
      else { x with pr := some b }
  else { x with pr := some b }

/-- A block is removed from the list of free blocks. -/
def takeFree (candidate : ℕ) (prev : Option ℕ) : SimpleBasePool :=
  let (s, prev) := match prev with
    | some b => (s.setNext b (s.next candidate), prev)
    | none =>
      let s := { s with freeList := s.next candidate }
      (s, s.freeList)
  let s := if some candidate = s.freeListEnd then { s with freeListEnd := prev } else s
  s.setNext candidate none

/-- `allocate`. -/
def allocate (size : ℕ) : Option (Option ℕ × SimpleBasePool) :=
  let alignedSize := aligned ((headerSize + size) % sizeMax)
  if s.size - (s.ptr - s.begin) ≥ alignedSize then
    let b := s.ptr
    let s := (s.setBlockSize b alignedSize).setNext b none
    some (some (data b), { s with ptr := s.ptr + alignedSize })
  else do
    let x ← s.forFree (Search.visit s alignedSize) ⟨none, none, none⟩
    match x.candidate with
    | some candidate => some (some (data candidate), s.takeFree candidate x.prev)
    | none => some (none, s)

def getPrevFree (block : ℕ) : Option (Option ℕ) :=
  (search toPtr s.cells (fun w ↦ toPtr w = some block) s.size none s.freeList).map (·.1)

/-- The loop of `shrink`. -/
def shrinkLoop : ℕ → SimpleBasePool → Option SimpleBasePool
  | rounds, s =>
    match s.freeListEnd with
    | none => some s
    | some b =>
      if b + s.blockSize b = s.ptr then
        match rounds with
        | 0 => none
        | rounds + 1 => do
          let s := { s with ptr := s.ptr - s.blockSize b }
          let prev ← s.getPrevFree b
          let s := { s with freeListEnd := prev }
          match prev with
          | none => shrinkLoop rounds { s with freeList := none }
          | some b => shrinkLoop rounds (s.setNext b none)
      else some s

/-- `shrink`; each round removes a free block. -/
def shrink : Option SimpleBasePool := shrinkLoop s.size s

/-- A block is put into the list of free blocks, which is sorted. -/
def insertFree (block : ℕ) : Option SimpleBasePool := do
  let ins ← s.forFree (fun ins b ↦ if block > b then some b else ins) none
  match ins with
  | none =>
    let s := if s.freeList = none then { s with freeListEnd := some block } else s
    let s := s.setNext block s.freeList
    some { s with freeList := some block }
  | some ins =>
    let s := s.setNext block (s.next ins)
    let s := s.setNext ins (some block)
    some (if some ins = s.freeListEnd then { s with freeListEnd := some block } else s)

/-- `deallocate`. -/
def deallocate (p : Option ℕ) : Option SimpleBasePool :=
  match p with
  | none => some s
  | some p => do
    let block := p - headerSize
    let s ←
      if block + s.blockSize block = s.ptr then
        some { s with ptr := s.ptr - s.blockSize block }
      else s.insertFree block
    s.shrink

end SimpleBasePool

end DuoFirmware.System
