import Mathlib.Logic.Function.Basic
import Sdx.Base

/-! # Kernel heap (`mm/heap.c`)

The heap hands out runs of chunks of 32 bytes. The links of the free list are in the chunks
themselves, where a block in use has its magic value and its size. Memory is a chunk for
each address: the code reads and writes whole fields of chunks only, at addresses that are
multiples of 32 apart. Pointers are numbers and `NULL` is 0; the chunks lie below `2 ^ 64`, so
that moving a pointer from chunk to chunk does not wrap.
-/

namespace Sdx.Mm

/-- `struct heap_chunk`, with the data as two words. -/
structure HeapChunk where
  meta0 : Nat
  meta1 : Nat
  data0 : Nat
  data1 : Nat

/-- `sizeof(struct heap_chunk)`. -/
def heapChunkSize : Nat := 32

def heapChunkMagic : Nat := 0xa71e394b53a81759
def heapChunkDataSize : Nat := 16
def heapChunkMetaSize : Nat := heapChunkSize - heapChunkDataSize
def heapChunkPerPage : Nat := pageSize / heapChunkSize

/-- Memory and the globals of `heap.c`. `pages` is what `vmm_map(1, 0, 0)` returns from here on, and
    `NULL` behind them. -/
structure Heap where
  mem : Nat → HeapChunk
  first : Nat
  last : Nat
  pages : List Nat

namespace Heap

def setChunk (h : Heap) (chunk : Nat) (value : HeapChunk) : Heap :=
  { h with mem := Function.update h.mem chunk value }

def metaNext (h : Heap) (chunk : Nat) : Nat := (h.mem chunk).meta0

def metaNextSet (h : Heap) (chunk next : Nat) : Heap :=
  h.setChunk chunk { h.mem chunk with meta0 := next }

def metaPrev (h : Heap) (chunk : Nat) : Nat := (h.mem chunk).meta1

def metaPrevSet (h : Heap) (chunk prev : Nat) : Heap :=
  h.setChunk chunk { h.mem chunk with meta1 := prev }

def metaSize (h : Heap) (chunk : Nat) : Nat := (h.mem chunk).meta1

def metaSizeSet (h : Heap) (chunk size : Nat) : Heap :=
  h.setChunk chunk { h.mem chunk with meta1 := size }

def isMagical (h : Heap) (chunk : Nat) : Bool := (h.mem chunk).meta0 == heapChunkMagic

def magicSet (h : Heap) (chunk : Nat) : Heap :=
  h.setChunk chunk { h.mem chunk with meta0 := heapChunkMagic }

def dataClear (h : Heap) (chunk : Nat) : Heap :=
  h.setChunk chunk { h.mem chunk with data0 := 0, data1 := 0 }

end Heap

/-! ## Extending -/

/-- The loop of `__heap_extend` over the last `count` chunks of the page; `i` counts up. -/
def heapExtendLoop (h : Heap) (cur i : Nat) : Nat → Heap × Nat
  | 0 => (h, cur)
  | count + 1 =>
      let h := h.dataClear cur
      let h := if i ≠ 0 then h.metaPrevSet cur (cur - heapChunkSize) else h
      let h := h.metaNextSet cur (cur + heapChunkSize)
      heapExtendLoop h (cur + heapChunkSize) (i + 1) count

/-- `__heap_extend`. -/
def heapExtend (h : Heap) : Int × Heap :=
  match h.pages with
  | [] => (-eFAULT, h)
  | cur :: pages =>
      let h := { h with pages := pages }
      let h := if h.first = 0 then { h with first := cur } else h
      let h := if h.last ≠ 0 then h.metaNextSet h.last cur else h
      let h := h.metaPrevSet cur h.last
      let (h, cur) := heapExtendLoop h cur 0 heapChunkPerPage
      let h := { h with last := cur - heapChunkSize }
      (0, h.metaNextSet h.last 0)

/-- `__heap_chunk_next`: the next chunk and the heap. -/
def heapChunkNext (h : Heap) (cur : Nat) : Nat × Heap :=
  let h := if h.first = 0 ∨ h.last = 0 then (heapExtend h).2 else h
  if cur = 0 then (h.first, h)
  else
    let h := if h.metaNext cur = 0 then (heapExtend h).2 else h
    (h.metaNext cur, h)

/-! ## Allocating -/

/-- The variables of the loop of `heap_alloc`; `stop` is its `end`. -/
structure HeapScan where
  cur : Nat
  start : Nat
  stop : Nat
  totalSize : Nat

/-- The body of the loop of `heap_alloc`. -/
def HeapScan.visit (scan : HeapScan) : HeapScan :=
  if scan.start = 0 then
    { scan with totalSize := wrap64 (scan.totalSize + heapChunkDataSize), start := scan.cur }
  else if scan.stop + heapChunkSize ≠ scan.cur then { scan with totalSize := 0, start := 0 }
  else { scan with totalSize := wrap64 (scan.totalSize + heapChunkSize) }

/-- The loop of `heap_alloc`. -/
def heapAllocLoop (size : Nat) : Nat → Heap → HeapScan → Option (Heap × HeapScan)
  | 0, _, _ => none
  | fuel + 1, h, scan =>
      if scan.cur ≠ 0 ∧ scan.totalSize < size then
        let scan := scan.visit
        let (next, h) := heapChunkNext h scan.cur
        heapAllocLoop size fuel h { scan with stop := scan.cur, cur := next }
      else some (h, scan)

/-- The end of `heap_alloc`: the run from `start` to `stop` leaves the list. -/
def heapTake (h : Heap) (scan : HeapScan) : Heap :=
  let cur := h.metaPrev scan.start
  let h := if cur ≠ 0 then h.metaNextSet cur (h.metaNext scan.stop) else h
  let cur := h.metaNext scan.stop
  let h := if cur ≠ 0 then h.metaPrevSet cur (h.metaPrev scan.start) else h
  let h := if h.first = scan.start then { h with first := h.metaNext scan.stop } else h
  let h := if h.last = scan.stop then { h with last := h.metaPrev scan.start } else h
  (h.magicSet scan.start).metaSizeSet scan.start scan.totalSize

/-- `heap_alloc`: the block, or 0 for `NULL`, and the heap. -/
def heapAlloc (fuel : Nat) (h : Heap) (size : Nat) : Option (Nat × Heap) := do
  let (cur, h) := heapChunkNext h 0
  let (h, scan) ← heapAllocLoop size fuel h ⟨cur, 0, 0, 0⟩
  if scan.cur = 0 ∨ size > scan.totalSize then some (0, h)
  else some (scan.start + heapChunkMetaSize, heapTake h scan)

/-- The variables of the loop of `heap_realloc`. -/
structure HeapGrow where
  cur : Nat
  reallocStart : Nat
  reallocEnd : Nat
  totalSize : Nat

/-- The loop of `heap_realloc`, which looks for the chunks behind the block. -/
def heapReallocLoop (size : Nat) (h : Heap) : Nat → HeapGrow → Option HeapGrow
  | 0, _ => none
  | fuel + 1, grow =>
      if size > grow.totalSize ∧ grow.cur ≠ 0 then
        let next := h.metaNext grow.cur
        if grow.reallocEnd + heapChunkSize ≠ grow.cur then
          heapReallocLoop size h fuel { grow with cur := next }
        else
          heapReallocLoop size h fuel
            { cur := next
              reallocStart := if grow.reallocStart = 0 then grow.cur else grow.reallocStart
              reallocEnd := grow.cur
              totalSize := wrap64 (grow.totalSize + heapChunkSize) }
      else some grow

/-! ## Freeing -/

/-- The loop of `heap_free` that links the chunks of the block, over the last `count` of them. -/
def heapLinkLoop (h : Heap) (start cur : Nat) : Nat → Heap
  | 0 => h
  | count + 1 =>
      let h := if cur ≠ start then h.metaPrevSet cur (cur - heapChunkSize) else h
      let h := h.metaNextSet cur (cur + heapChunkSize)
      heapLinkLoop h start (cur + heapChunkSize) count

/-- The body of the loop of `heap_free` over the free list. -/
def heapSearch (h : Heap) (start stop cur : Nat) : Heap :=
  let h := if start > cur then h.metaPrevSet start cur else h
  if h.metaPrev start = h.metaPrev cur ∧ stop < cur then h.metaNextSet stop cur else h

/-- The loop of `heap_free` over the free list. -/
def heapSearchLoop (start stop : Nat) : Nat → Heap → Nat → Option Heap
  | 0, _, _ => none
  | fuel + 1, h, cur =>
      if cur ≠ 0 then
        let h := heapSearch h start stop cur
        heapSearchLoop start stop fuel h (h.metaNext cur)
      else some h

/-- The end of `heap_free`: the neighbours of the block are linked to it. -/
def heapGive (h : Heap) (start stop : Nat) : Heap :=
  let cur := h.metaPrev start
  let h := if cur ≠ 0 then h.metaNextSet cur start else { h with first := start }
  let cur := h.metaNext stop
  if cur ≠ 0 then h.metaPrevSet cur stop else { h with last := stop }

/-- `heap_free`, or `none` where it panics. -/
def heapFree (fuel : Nat) (h : Heap) (mem : Nat) : Option Heap :=
  if mem = 0 then some h
  else
    let start := mem - heapChunkMetaSize
    let stop := mem + h.metaSize start - heapChunkSize
    if heapChunkMetaSize > mem ∨ !h.isMagical start then none
    else do
      -- the chunks from `start` to `stop`
      let h := heapLinkLoop h start start ((stop + heapChunkSize - start) / heapChunkSize)
      let h := (h.metaPrevSet start 0).metaNextSet stop 0
      let h ← heapSearchLoop start stop fuel h h.first
      some (heapGive h start stop)

/-! ## Growing -/

/-- The chunks behind the first one of a block that `memcpy` copies. -/
def Heap.memcpyChunks (h : Heap) (dst src : Nat) : Nat → Heap
  | 0 => h
  | count + 1 =>
      (h.setChunk dst (h.mem src)).memcpyChunks (dst + heapChunkSize) (src + heapChunkSize) count

/-- `memcpy` from one block to another. `size` is the size of a block: the data of its first chunk
    and whole chunks. -/
def Heap.memcpy (h : Heap) (dst src size : Nat) : Heap :=
  -- `size` is an `int64_t` there
  if dst = 0 ∨ src = 0 ∨ size = 0 ∨ size ≥ 2 ^ 63 then h
  else
    let head := dst - heapChunkMetaSize
    let copied := h.mem (src - heapChunkMetaSize)
    let h := h.setChunk head { h.mem head with data0 := copied.data0, data1 := copied.data1 }
    h.memcpyChunks (dst + heapChunkDataSize) (src + heapChunkDataSize)
      ((size - heapChunkDataSize) / heapChunkSize)

/-- The end of `heap_realloc`: the run from `realloc_start` to `realloc_end` leaves the list. -/
def heapAbsorb (h : Heap) (grow : HeapGrow) : Heap :=
  let cur := h.metaPrev grow.reallocStart
  let h := if cur ≠ 0 then h.metaNextSet cur (h.metaNext grow.reallocEnd) else h
  let cur := h.metaNext grow.reallocEnd
  let h := if cur ≠ 0 then h.metaPrevSet cur (h.metaPrev grow.reallocStart) else h
  -- the first chunk is compared with the end of the run, and the last one with its start
  let h := if h.first = grow.reallocEnd then { h with first := h.metaNext grow.reallocEnd } else h
  if h.last = grow.reallocStart then { h with last := h.metaPrev grow.reallocStart } else h

/-- `heap_realloc`: the block, or 0 for `NULL`, and the heap; `none` where it panics. -/
def heapRealloc (fuel : Nat) (h : Heap) (mem size : Nat) : Option (Nat × Heap) :=
  let start := mem - heapChunkMetaSize
  let reallocEnd := mem + h.metaSize start - heapChunkSize
  if heapChunkMetaSize > mem ∨ !h.isMagical start then none
  else if h.metaSize start ≥ size then some (mem, h)
  else do
    let grow ← heapReallocLoop size h fuel ⟨h.first, 0, reallocEnd, h.metaSize start⟩
    if size > grow.totalSize then
      let (cur, h) ← heapAlloc fuel h size
      let h ← heapFree fuel (h.memcpy cur mem (h.metaSize start)) mem
      some (cur, h)
    else some (mem, (heapAbsorb h grow).metaSizeSet start grow.totalSize)

end Sdx.Mm
