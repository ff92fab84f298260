import Eterna.Library.ByteMemory
import Eterna.Library.SegmentChain
import Eterna.Memory.Virtual

/-!
# The heap

The functions of `memory/heap.cpp`.  The heap is the byte memory behind the virtual addresses from
`HEAP_VIRTUAL_BASE` on, together with the three globals and the machine whose page tables `map`
edits.  A page that has just been mapped shows what its frame held before, so the memory at the
start may hold anything.

`malloc` and `free` are modelled with the diagnostics of `DEBUG_HEAP` as a parameter.  What the
diagnostics print is left out; what they allocate and write is not.
-/

namespace Eterna

open ByteMemory SegmentChain

/-- `HEAP_VIRTUAL_BASE`. -/
def heapVirtualBase : ℕ := 0xffffffffff000000

/-- `HEAP_INITIAL_PAGES`. -/
def heapInitialPages : ℕ := 1

/-- The fields of `HeapSegmentHeader`. -/
inductive HeaderField where
  | last
  | next
  | length
  | free
deriving DecidableEq

namespace HeaderField

/-- The offset of a field in the packed structure. -/
def offset : HeaderField → ℕ
  | last => 0
  | next => 8
  | length => 16
  | free => 24

/-- The number of bytes of a field. -/
def bytes : HeaderField → ℕ
  | free => 1
  | _ => 8

end HeaderField

/-- `sizeof(HeapSegmentHeader)`. -/
def headerSize : ℕ := 25

/-- The state the heap works on. -/
structure Heap where
  /-- The page allocator, the page tables and the registers. -/
  machine : Machine
  /-- The bytes at virtual addresses. -/
  mem : Memory
  /-- `sHeapStart`. -/
  sHeapStart : ℕ
  /-- `sHeapEnd`. -/
  sHeapEnd : ℕ
  /-- `sLastHeader`. -/
  sLastHeader : ℕ

namespace Heap

/-- The value of a field of the header at `segment`. -/
def field (h : Heap) (f : HeaderField) (segment : ℕ) : ℕ :=
  load h.mem (segment + f.offset) f.bytes

/-- Assign to a field of the header at `segment`. -/
def setField (h : Heap) (f : HeaderField) (segment value : ℕ) : Heap :=
  { h with mem := store h.mem (segment + f.offset) f.bytes value }

/-- `segment->last`. -/
def last (h : Heap) (segment : ℕ) : ℕ := h.field .last segment

/-- `segment->next`. -/
def next (h : Heap) (segment : ℕ) : ℕ := h.field .next segment

/-- `segment->length`. -/
def length (h : Heap) (segment : ℕ) : ℕ := h.field .length segment

/-- `segment->free`. -/
def isFree (h : Heap) (segment : ℕ) : Bool := decide (h.field .free segment ≠ 0)

/-- `segment->last = value`. -/
def setLast (h : Heap) (segment value : ℕ) : Heap := h.setField .last segment value

/-- `segment->next = value`. -/
def setNext (h : Heap) (segment value : ℕ) : Heap := h.setField .next segment value

/-- `segment->length = value`. -/
def setLength (h : Heap) (segment value : ℕ) : Heap := h.setField .length segment value

/-- `segment->free = value`. -/
def setFree (h : Heap) (segment : ℕ) (value : Bool) : Heap := h.setField .free segment value.toNat

/-- `sLastHeader = segment`. -/
def setLastHeader (h : Heap) (segment : ℕ) : Heap := { h with sLastHeader := segment }

/-- `this->combine_forward()`. -/
def combineForward (h : Heap) (this : ℕ) : Heap :=
  if h.next this = 0 then h
  else if h.isFree (h.next this) = false then h
  else
    let h := if h.next this = h.sLastHeader then h.setLastHeader this else h
    let h := if h.next (h.next this) ≠ 0 then h.setLast (h.next (h.next this)) this else h
    let h := h.setLength this (add64 (add64 (h.length this) (h.length (h.next this))) headerSize)
    h.setNext this (h.next (h.next this))

/-- `this->combine_backward()`. -/
def combineBackward (h : Heap) (this : ℕ) : Heap :=
  if h.last this = 0 then h
  else if h.isFree (h.last this) = false then h
  else h.combineForward (h.last this)

/-- `this->split(splitLength)`, which returns `nullptr` when the segment is too short. -/
def split (h : Heap) (this splitLength : ℕ) : Heap × ℕ :=
  if h.length this < add64 splitLength headerSize then (h, 0)
  else if splitLength < 8 then (h, 0)
  else
    let splitSegmentLength := sub64 (sub64 (h.length this) splitLength) headerSize
    if splitSegmentLength < 8 then (h, 0)
    else
      let splitHeader := add64 (add64 this headerSize) splitLength
      let h :=
        if h.next this ≠ 0 then
          let h := h.setLast (h.next this) splitHeader
          h.setNext splitHeader (h.next this)
        else (h.setNext splitHeader 0).setLastHeader splitHeader
      let h := h.setNext this splitHeader
      let h := h.setLast splitHeader this
      let h := h.setLength this splitLength
      let h := h.setLength splitHeader splitSegmentLength
      (h.setFree splitHeader (h.isFree this), this)

/-- `map(address, request_page(), Present | ReadWrite | Global)`. -/
def mapPage (h : Heap) (address : ℕ) : Heap :=
  let r := h.machine.requestPage
  { h with machine := r.1.map r.1.activePageMap address r.2 Machine.presentWriteGlobal }

/-- `init_heap`. -/
def initHeap (h : Heap) : Heap :=
  let numBytes := heapInitialPages * pageSize
  let h := (List.range heapInitialPages).foldl
    (fun h i => h.mapPage (add64 heapVirtualBase (i * pageSize))) h
  let firstSegment := heapVirtualBase
  let h := { h with
    sHeapStart := heapVirtualBase
    sHeapEnd := add64 heapVirtualBase numBytes }
  let h := h.setLength firstSegment (sub64 numBytes headerSize)
  let h := h.setNext firstSegment 0
  let h := h.setLast firstSegment 0
  let h := h.setFree firstSegment true
  h.setLastHeader firstSegment

/-- The loop of `expand_heap`: map `numPages` pages behind the end of the heap. -/
def mapPages : ℕ → Heap → Heap
  | 0, h => h
  | n + 1, h =>
    let h := h.mapPage h.sHeapEnd
    mapPages n { h with sHeapEnd := add64 h.sHeapEnd pageSize }

/-- `expand_heap(numBytes)`. -/
def expandHeap (h : Heap) (numBytes : ℕ) : Heap :=
  let numPages := numBytes / pageSize + 1
  let numBytes := mul64 numPages pageSize
  let extension := h.sHeapEnd
  let h := mapPages numPages h
  let h := h.setFree extension true
  let h := h.setLast extension h.sLastHeader
  let h := h.setNext h.sLastHeader extension
  let h := h.setLastHeader extension
  let h := h.setNext extension 0
  let h := h.setLength extension (sub64 numBytes headerSize)
  h.combineBackward extension

/-- `free(address)`. -/
def free (h : Heap) (address : ℕ) : Heap :=
  let segment := sub64 address headerSize
  let h := h.setFree segment true
  let h := h.combineForward segment
  h.combineBackward segment

/-- The rounding at the start of `malloc`: up to a multiple of 8, modulo `2 ^ 64`. -/
def roundRequest (numBytes : ℕ) : ℕ :=
  if 0 < numBytes % 8 then add64 (numBytes - numBytes % 8) 8 else numBytes

/-- The search loop of `malloc` from the header `current` on, for at most `fuel` headers.  The
second component is the header whose payload is handed out, or `nullptr` when the chain has been
searched to its end. -/
def search (numBytes : ℕ) : ℕ → Heap → ℕ → Option (Heap × ℕ)
  | 0, _, _ => none
  | fuel + 1, h, current =>
    let onward (h : Heap) :=
      if h.next current = 0 then some (h, 0) else search numBytes fuel h (h.next current)
    if h.isFree current then
      if numBytes < h.length current then
        let split := h.split current numBytes
        if split.2 ≠ 0 then some (split.1.setFree split.2 false, split.2) else onward split.1
      else if h.length current = numBytes then some (h.setFree current false, current)
      else onward h
    else onward h

/-- The loop of `heap_print_debug` over the regions, for at most `fuel` of them.  It counts them. -/
def countRegions (h : Heap) : ℕ → ℕ → ℕ → Option ℕ
  | 0, _, _ => none
  | fuel + 1, i, it => if it = 0 then some i else countRegions h fuel (i + 1) (h.next it)

/-- The locals of the loop of `heap_print_debug_starchart`. -/
structure Chart where
  freeLeftover : ℕ
  usedLeftover : ℕ
  offset : ℕ

/-- `characterGranularity`. -/
def characterGranularity : ℕ := 64

/-- `'_'` for a free segment and `'*'` for a used one. -/
def segmentCharacter (free : Bool) : UInt8 := if free then 95 else 42

/-- `memset`. -/
def memset (h : Heap) (start : ℕ) (value : UInt8) (numBytes : ℕ) : Heap :=
  { h with mem := fill h.mem start numBytes value }

/-- The first half of the loop body of `heap_print_debug_starchart`: the leftover bytes of the
segment, and the character that a full 64 of them are worth. -/
def chartLeftover (h : Heap) (out : ℕ) (c : Chart) (free : Bool) (delta : ℕ) : Heap × Chart :=
  let leftover := add64 (if free then c.freeLeftover else c.usedLeftover) delta
  let full := decide (characterGranularity < leftover)
  let h := if full then h.memset (out + c.offset) (segmentCharacter free) 1 else h
  let leftover := if full then sub64 leftover characterGranularity else leftover
  let offset := if full then add64 c.offset 1 else c.offset
  (h, if free then ⟨leftover, c.usedLeftover, offset⟩ else ⟨c.freeLeftover, leftover, offset⟩)

/-- The loop of `heap_print_debug_starchart`, for at most `fuel` segments. -/
def chartLoop (out totalChars : ℕ) : ℕ → Heap → Chart → ℕ → Option Heap
  | 0, _, _, _ => none
  | fuel + 1, h, c, it =>
    if totalChars ≤ c.offset then some h
    else
      let segmentSize := add64 (h.length it) headerSize
      let delta := segmentSize % characterGranularity
      let numChars := segmentSize / characterGranularity
      let r := h.chartLeftover out c (h.isFree it) delta
      let h := r.1.memset (out + r.2.offset) (segmentCharacter (r.1.isFree it)) numChars
      let c := { r.2 with offset := add64 r.2.offset numChars }
      if h.next it = 0 then some h else chartLoop out totalChars fuel h c (h.next it)

/-- `strlen`, which counts the terminator, for strings of less than `fuel` bytes. -/
def strlen (h : Heap) : ℕ → ℕ → Option ℕ
  | 0, _ => none
  | fuel + 1, a => if h.mem a = 0 then some 1 else (h.strlen fuel (a + 1)).map (add64 · 1)

/-- The loop of `memcpy`. -/
def copyBytes (src dest : ℕ) : ℕ → Heap → Heap
  | 0, h => h
  | n + 1, h => copyBytes (src + 1) (dest + 1) n
    { h with mem := store h.mem dest 1 (h.mem src).toNat }

/-- `memcpy(src, dest, numBytes)`. -/
def memcpy (h : Heap) (src dest numBytes : ℕ) : Heap :=
  if dest ≠ 0 ∧ src ≠ 0 then copyBytes src dest numBytes h else h

/-- `heap_print_debug_starchart`.  `new` is `operator new[]`; the buffer `out` is not deleted, the
buffer of the string is. -/
def starchart (new : Heap → ℕ → Option (Heap × ℕ)) (fuel : ℕ) (h : Heap) : Option Heap := do
  let heapSize := sub64 h.sHeapEnd h.sHeapStart
  let totalChars := heapSize / characterGranularity + 1
  let (h, out) ← new h totalChars
  let h := h.memset out 0 totalChars
  let h ← chartLoop out totalChars fuel h ⟨0, 0, 0⟩ h.sHeapStart
  let length := sub64 (← h.strlen fuel out) 1
  let (h, buffer) ← new h (add64 length 1)
  let h := h.memcpy out buffer (add64 length 1)
  return h.free buffer

/-- `heap_print_debug`. -/
def printDebug (new : Heap → ℕ → Option (Heap × ℕ)) (fuel : ℕ) (h : Heap) : Option Heap := do
  let _ ← h.countRegions fuel 0 h.sHeapStart
  h.starchart new fuel

/-- `malloc(numBytes)`, with or without the diagnostics of `DEBUG_HEAP`.  The fuel bounds the depth
of the calls and the length of the loops; without enough of it there is no result. -/
def malloc (debugHeap : Bool) : ℕ → Heap → ℕ → Option (Heap × ℕ)
  | 0, _, _ => none
  | fuel + 1, h, numBytes =>
    if numBytes = 0 then some (h, 0)
    else do
      let numBytes := roundRequest numBytes
      let (h, segment) ← search numBytes fuel h h.sHeapStart
      if segment = 0 then malloc debugHeap fuel (h.expandHeap numBytes) numBytes
      else
        let h ← if debugHeap then h.printDebug (malloc debugHeap fuel) fuel else some h
        return (h, add64 segment headerSize)

end Heap

end Eterna
