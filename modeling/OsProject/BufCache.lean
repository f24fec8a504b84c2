import OsProject.Bio
import OsProject.Ring
import OsProject.Runs

/-! The buffer cache with its ring of pointers, used by any number of processes. A `bread` takes
its reference, then the buffer's lock, and then reads the block if it has to; a `brelse` gives
back the lock and then the reference. Other processes run between these steps. -/

namespace OsProject

instance : NeZero NBUF := ⟨by decide⟩

/-- `next none` and `prev none` are the pointers of `bcache.head`. -/
structure BCache where
  buf : Fin NBUF → Buf := fun _ => {}
  next : Option (Fin NBUF) → Option (Fin NBUF) := fun _ => none
  prev : Option (Fin NBUF) → Option (Fin NBUF) := fun _ => none
  disk : Disk := fun _ _ => 0

namespace BCache

def setBuf (s : BCache) (i : Fin NBUF) (x : Buf) : BCache :=
  { s with buf := Function.update s.buf i x }

def link (s : BCache) (i : Fin NBUF) : BCache :=
  { s with next := (linkFirst s.next s.prev i).1, prev := (linkFirst s.next s.prev i).2 }

def relink (s : BCache) (i : Fin NBUF) : BCache :=
  let p := unlink s.next s.prev i
  { s with next := (linkFirst p.1 p.2 i).1, prev := (linkFirst p.1 p.2 i).2 }

/-- `binit` on the zeroed memory of the kernel, with any disk. -/
def binit (disk : Disk) : BCache := (List.finRange NBUF).foldl link { disk }

/-- What `bget` does with `bcache.lock` held. -/
def bget (s : BCache) (dev blockno : Nat) : Except BioPanic (BCache × Fin NBUF) :=
  match scan s.next (fun i => (s.buf i).IsBlock dev blockno) NBUF (s.next none) with
  | none => .error .stuck
  | some (some i) => .ok (s.setBuf i { s.buf i with refcnt := (s.buf i).refcnt + 1 }, i)
  | some none =>
    match scan s.prev (fun i => (s.buf i).refcnt = 0) NBUF (s.prev none) with
    | none => .error .stuck
    | some (some i) =>
      .ok (s.setBuf i
        { s.buf i with dev := dev, blockno := blockno, valid := false, refcnt := 1 }, i)
    | some none => .error .noBuffers

/-- What `bread` does with the lock of the buffer. -/
def fill (s : BCache) (i : Fin NBUF) : BCache :=
  if (s.buf i).valid then s
  else s.setBuf i { s.buf i with data := s.disk (s.buf i).blockno, valid := true }

def bwrite (s : BCache) (i : Fin NBUF) : BCache :=
  { s with disk := Function.update s.disk (s.buf i).blockno (s.buf i).data }

/-- What `brelse` does with `bcache.lock` held. -/
def brelse (s : BCache) (i : Fin NBUF) : BCache :=
  let s := s.setBuf i { s.buf i with refcnt := (s.buf i).refcnt - 1 }
  if (s.buf i).refcnt = 0 then s.relink i else s

def bpin (s : BCache) (i : Fin NBUF) : BCache :=
  s.setBuf i { s.buf i with refcnt := (s.buf i).refcnt + 1 }

def bunpin (s : BCache) (i : Fin NBUF) : BCache :=
  s.setBuf i { s.buf i with refcnt := (s.buf i).refcnt - 1 }

def setLocked (s : BCache) (i : Fin NBUF) (locked : Bool) : BCache :=
  s.setBuf i { s.buf i with locked := locked }

end BCache

/-- Who refers to a buffer: the calls of `bread` that wait for its lock, with their blocks, the
holder of the lock, with its block and whether its `bread` has returned, the calls of `brelse`
that have given back the lock, and the pins. -/
structure BufUse where
  waiting : List Nat := []
  holder : Option (Nat × Bool) := none
  leaving : Nat := 0
  pins : Nat := 0

def BufUse.refs (u : BufUse) : Nat := u.waiting.length + u.holder.toList.length + u.leaving + u.pins

/-- `stored i` is what was last stored in buffer `i` since it got its block. -/
structure CacheRun where
  cache : BCache
  use : Fin NBUF → BufUse := fun _ => {}
  stored : Fin NBUF → Option Block := fun _ => none
  panic : Option BioPanic := none

inductive BufEvent
  | bget (blockno : Nat)
  | acquire (i : Fin NBUF) (k : Nat)
  | fill (i : Fin NBUF)
  | store (i : Fin NBUF) (data : Block)
  | bwrite (i : Fin NBUF)
  | release (i : Fin NBUF)
  | brelse (i : Fin NBUF)
  | bpin (i : Fin NBUF)
  | bunpin (i : Fin NBUF)

def CacheRun.setUse (s : CacheRun) (i : Fin NBUF) (u : BufUse) : CacheRun :=
  { s with use := Function.update s.use i u }

/-- An event that is not possible in `s` changes nothing: only the holder of a buffer, after its
`bread`, stores in it, writes it to the disk and gives it back, and a pin is taken back only once. -/
def cacheStep (s : CacheRun) : BufEvent → CacheRun
  | .bget b =>
    match s.cache.bget ROOTDEV b with
    | .error p => { s with panic := some p }
    | .ok (c, i) =>
      { s.setUse i { s.use i with waiting := b :: (s.use i).waiting } with
        cache := c
        stored :=
          if (s.cache.buf i).IsBlock ROOTDEV b then s.stored
          else Function.update s.stored i none }
  | .acquire i k =>
    match (s.use i).waiting[k]? with
    | none => s
    | some b =>
      if (s.cache.buf i).locked then s
      else
        { s.setUse i
            { s.use i with waiting := (s.use i).waiting.eraseIdx k, holder := some (b, false) } with
          cache := s.cache.setLocked i true }
  | .fill i =>
    match (s.use i).holder with
    | some (b, false) =>
      { s.setUse i { s.use i with holder := some (b, true) } with cache := s.cache.fill i }
    | _ => s
  | .store i data =>
    match (s.use i).holder with
    | some (_, true) =>
      { s with
        cache := s.cache.setBuf i { s.cache.buf i with data := data }
        stored := Function.update s.stored i (some data) }
    | _ => s
  | .bwrite i =>
    match (s.use i).holder with
    | some (_, true) => { s with cache := s.cache.bwrite i }
    | _ => s
  | .release i =>
    match (s.use i).holder with
    | some (_, true) =>
      { s.setUse i { s.use i with holder := none, leaving := (s.use i).leaving + 1 } with
        cache := s.cache.setLocked i false }
    | _ => s
  | .brelse i =>
    if 0 < (s.use i).leaving then
      { s.setUse i { s.use i with leaving := (s.use i).leaving - 1 } with
        cache := s.cache.brelse i }
    else s
  | .bpin i =>
    { s.setUse i { s.use i with pins := (s.use i).pins + 1 } with cache := s.cache.bpin i }
  | .bunpin i =>
    if 0 < (s.use i).pins then
      { s.setUse i { s.use i with pins := (s.use i).pins - 1 } with cache := s.cache.bunpin i }
    else s

def CacheRun.referenced (s : CacheRun) : Finset (Fin NBUF) :=
  Finset.univ.filter fun i => 0 < (s.use i).refs

/-- At most `NBUF` buffers are referred to at once, each fewer than `2^32` times. -/
def WithinCache (s : CacheRun) : BufEvent → Prop
  | .bget b =>
    (∀ i, (s.cache.buf i).IsBlock ROOTDEV b → (s.use i).refs + 1 < 2 ^ 32) ∧
      ((∀ i, ¬ (s.cache.buf i).IsBlock ROOTDEV b) → s.referenced.card + 1 ≤ NBUF)
  | .bpin i => (s.use i).refs + 1 < 2 ^ 32
  | _ => True

instance (s : CacheRun) : ∀ e, Decidable (WithinCache s e)
  | .bget b => inferInstanceAs (Decidable
      ((∀ i, (s.cache.buf i).IsBlock ROOTDEV b → (s.use i).refs + 1 < 2 ^ 32) ∧
        ((∀ i, ¬ (s.cache.buf i).IsBlock ROOTDEV b) → s.referenced.card + 1 ≤ NBUF)))
  | .bpin i => inferInstanceAs (Decidable ((s.use i).refs + 1 < 2 ^ 32))
  | .acquire _ _ | .fill _ | .store _ _ | .bwrite _ | .release _ | .brelse _ | .bunpin _ =>
    inferInstanceAs (Decidable True)

/-- The pointers form one ring with every buffer in it, and no two buffers hold the same block of
the device. -/
structure RingOk (s : CacheRun) : Prop where
  ring : ∃ l, IsRing s.cache.next s.cache.prev l ∧ ∀ i, i ∈ l
  unique : ∀ i j b, (s.cache.buf i).IsBlock ROOTDEV b → (s.cache.buf j).IsBlock ROOTDEV b → i = j
  quiet : s.panic = none

/-- A buffer with references keeps its block, and a `bread` of `b` returns a buffer of `b` with
what was last stored in it, or else what is on the disk. -/
structure CacheLaw (s : CacheRun) (e : BufEvent) : Prop where
  kept : ∀ i, 0 < (s.cache.buf i).refcnt →
    ((cacheStep s e).cache.buf i).dev = (s.cache.buf i).dev ∧
      ((cacheStep s e).cache.buf i).blockno = (s.cache.buf i).blockno
  returned : ∀ i b, e = .fill i → (s.use i).holder = some (b, false) →
    ((cacheStep s e).cache.buf i).IsBlock ROOTDEV b ∧
      ((cacheStep s e).cache.buf i).data = (s.stored i).getD (s.cache.disk b)

end OsProject
