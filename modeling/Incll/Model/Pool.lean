import Incll.Lib.Machine
import Incll.Model.Kvthread

/-! # The pool allocator (`kvthread.hh`, `kvthread.cc`, `mtcounters.hh`)

Both builds, without `HAVE_MEMDEBUG` and with `use_pool()`. A limbo group is a block like any other:
where `record_rcu` allocates one, that is a step of its own. `hard_rcu_quiesce` calls `free_rcu` for
the blocks of a thread in the order in which they were recorded; each call is a step. -/

namespace Incll.Model.Pool
open Incll.Lib Incll.Model.Kvthread

inductive Memtag where
  | none | value | limbo | masstreeLeaf | masstreeInternode | masstreeKsuffixes | masstreeGc
  deriving DecidableEq

def Memtag.toNat : Memtag → Nat
  | .none => 0x000
  | .value => 0x100
  | .limbo => 0x500
  | .masstreeLeaf => 0x1000
  | .masstreeInternode => 0x1100
  | .masstreeKsuffixes => 0x1200
  | .masstreeGc => 0x1300

def memtagPoolMask : Nat := 0xFF

inductive Build where
  | pallocator | plain
  deriving DecidableEq

/-- `PPP_HEADER_SIZE`, where blocks have a header. -/
def Build.headerSize : Build → Nat
  | .pallocator => 8
  | .plain => 0

/-- `nl`. -/
def nlines (build : Build) (sz : Nat) : Nat :=
  (build.headerSize + sz + cacheLineSize - 1) / cacheLineSize

/-- A block that a caller has: the pointer that it was given, and how it was allocated. -/
structure Used where
  ptr : Nat
  sz : Nat
  tag : Memtag
  deriving DecidableEq

/-- `initialize_pool`. The first block of a page is there whether or not the page has room for it. -/
def initializePool (superpageSize page nl : Nat) : List (Nat × Nat) :=
  if nl * cacheLineSize ≤ superpageSize then Kvthread.initializePool superpageSize page nl
  else [(nl, page)]

variable {n : Nat}

/-- `free` holds the free lists, with the thread and the class, and `limbo` the recorded blocks, with
the thread and the tag. `pages` are the superpages that the pools have got, and `carved` all blocks,
with the classes they were made for. -/
structure State (nthreads : Nat) where
  nvmFreeAddr : Nat
  pages : List Nat
  carved : List (Nat × Nat)
  free : List (Fin nthreads × Nat × Nat)
  limbo : List (Fin nthreads × Nat × Nat)
  used : List Used

namespace State

/-- `pool_[nl - 1]`. -/
def first (s : State n) (t : Fin n) (nl : Nat) : Option (Fin n × Nat × Nat) :=
  s.free.find? fun x => x.1 = t ∧ x.2.1 = nl

/-- `pool_[nl - 1] = p`, with the old first block behind it. -/
def push (s : State n) (t : Fin n) (nl p : Nat) : State n := { s with free := (t, nl, p) :: s.free }

/-- `refill_pool`, with the page that `malloc_nvm` or `posix_memalign` gives. The loop of
`initialize_pool` does not end for blocks of no size. -/
def refillPool (superpageSize : Nat) (s : State n) (t : Fin n) (nl page : Nat) : Option (State n) :=
  if nl = 0 then none
  else
    let blocks := Pool.initializePool superpageSize page nl
    some { s with
      nvmFreeAddr := s.nvmFreeAddr + superpageSize
      pages := page :: s.pages
      carved := blocks.map Prod.swap ++ s.carved
      free := blocks.map (t, ·) ++ s.free }

def poolAllocate (build : Build) (superpageSize : Nat) (s : State n) (t : Fin n) (sz : Nat)
    (tag : Memtag) (page : Nat) : Option (State n) :=
  let nl := nlines build sz
  if poolMaxNlines < nl then none
  else
    (if (s.first t nl).isNone then s.refillPool superpageSize t nl page else some s).bind fun s =>
      (s.first t nl).map fun x => { s with
        free := s.free.erase x
        used := ⟨x.2.2 + build.headerSize, sz, tag⟩ :: s.used }

def allocate := @poolAllocate

def poolDeallocate (build : Build) (s : State n) (t : Fin n) (u : Used) : State n :=
  let nl := nlines build u.sz
  s.push t nl (u.ptr - build.headerSize)

def deallocate := @poolDeallocate

def recordRcu (s : State n) (t : Fin n) (p tag : Nat) : State n :=
  { s with limbo := s.limbo ++ [(t, p, tag)] }

def deallocateRcu (build : Build) (s : State n) (t : Fin n) (u : Used) : State n :=
  match build with
  | .pallocator =>
      s.recordRcu t (u.ptr - build.headerSize) (u.tag.toNat + nlines build u.sz)
  | .plain => s.recordRcu t u.ptr u.tag.toNat

def poolDeallocateRcu (build : Build) (s : State n) (t : Fin n) (u : Used) : State n :=
  s.recordRcu t (u.ptr - build.headerSize) (u.tag.toNat + nlines build u.sz)

def freeRcu (s : State n) (t : Fin n) (p tag : Nat) : State n :=
  let nl := tag &&& memtagPoolMask
  s.push t nl p

end State

inductive Label (nthreads : Nat) where
  | allocate (t : Fin nthreads) (sz : Nat) (tag : Memtag) (page : Nat)
  | poolAllocate (t : Fin nthreads) (sz : Nat) (tag : Memtag) (page : Nat)
  | deallocate (t : Fin nthreads) (u : Used)
  | poolDeallocate (t : Fin nthreads) (u : Used)
  | deallocateRcu (t : Fin nthreads) (u : Used)
  | poolDeallocateRcu (t : Fin nthreads) (u : Used)
  | freeRcu (t : Fin nthreads)

/-- The page for a refill: the end of the data region, or memory that nobody has. -/
def offers (build : Build) (superpageSize : Nat) (s : State n) (page : Nat) : Bool :=
  match build with
  | .pallocator => page = s.nvmFreeAddr
  | .plain => 0 < page && s.pages.all fun p => p + superpageSize ≤ page ∨ page + superpageSize ≤ p

/-- A caller releases a block that it has. -/
def release (s : State n) (u : Used) (f : State n → State n) : Option (State n) :=
  if u ∈ s.used then some (f { s with used := s.used.erase u }) else none

def step (build : Build) (superpageSize : Nat) (s : State n) : Label n → Option (State n)
  | .allocate t sz tag page =>
      if offers build superpageSize s page then s.allocate build superpageSize t sz tag page else none
  | .poolAllocate t sz tag page =>
      if offers build superpageSize s page then s.poolAllocate build superpageSize t sz tag page
      else none
  | .deallocate t u => release s u fun s => s.deallocate build t u
  | .poolDeallocate t u => release s u fun s => s.poolDeallocate build t u
  | .deallocateRcu t u => release s u fun s => s.deallocateRcu build t u
  | .poolDeallocateRcu t u => release s u fun s => s.poolDeallocateRcu build t u
  | .freeRcu t =>
      (s.limbo.find? (·.1 = t)).map fun x =>
        { s with limbo := s.limbo.erase x }.freeRcu t x.2.1 x.2.2

def machine (n : Nat) (build : Build) (superpageSize : Nat) : Machine (State n) (Label n) where
  initial s := ∃ nvm, 0 < nvm ∧ s = ⟨nvm, [], [], [], [], []⟩
  step := step build superpageSize

end Incll.Model.Pool
