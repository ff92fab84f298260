import Mathlib.Order.CompletePartialOrder
import Mathlib.Order.Interval.Set.Disjoint
import Eterna.Library.Runs
import Eterna.Memory.HeapSteps
import Eterna.Memory.PageMap

/-!
# Runs of the heap

A client calls `malloc`, `free` and `expand_heap` in any order after `init_heap`, and writes what it
likes into the blocks it has been given.  The diagnostics of `DEBUG_HEAP` are taken as no-ops.

* `HeapStep.sound` : every step keeps the segment chain, and a used segment behind every live block;
* `heap_chain_intact` : in every state that is reached, the headers form a doubly linked chain that
  tiles the heap;
* `malloc_blocks_exclusive` : blocks are disjoint from each other and from the headers, and nobody
  but the client writes to them.
-/

namespace Eterna

open ByteMemory SegmentChain Runs

namespace Heap

/-- The headers visited by following `next` from `a`, if there are at most `fuel`. -/
def walk (h : Heap) : ℕ → ℕ → Option (List ℕ)
  | 0, _ => none
  | fuel + 1, a => if h.next a = 0 then some [a] else (h.walk fuel (h.next a)).map (a :: ·)

/-- The headers `hs` form a doubly linked chain that tiles the heap. -/
structure Intact (h : Heap) (hs : List ℕ) : Prop where
  /-- Following `next` from `sHeapStart` visits `hs` and comes to an end. -/
  walk : ∃ fuel, h.walk fuel h.sHeapStart = some hs
  increasing : hs.Pairwise (· < ·)
  tiles : ∀ a ∈ hs, a + headerSize + h.length a = if h.next a = 0 then h.sHeapEnd else h.next a
  last_next : ∀ a ∈ hs, h.next a ≠ 0 → h.next a ∈ hs ∧ h.last (h.next a) = a
  next_last : ∀ a ∈ hs, h.last a ≠ 0 → h.last a ∈ hs ∧ h.next (h.last a) = a
  last_eq_zero_iff : ∀ a ∈ hs, h.last a = 0 ↔ a = h.sHeapStart
  sLastHeader : hs.getLast? = some h.sLastHeader

variable {h h' : Heap} {segs pre post : List Segment} {s t : Segment}

/-! ### The walk along a chain -/

theorem walk_eq_some {fuel : ℕ} {hs : List ℕ} (hc : h.Chain (pre ++ s :: post))
    (hw : h.walk fuel s.addr = some hs) : hs = (s :: post).map Segment.addr := by
  induction fuel generalizing pre s post hs with
  | zero => cases hw
  | succ fuel ih =>
    rw [walk, hc.next_eq] at hw
    cases post with
    | nil => exact (Option.some.inj hw).symm
    | cons t post =>
      have hpos := hc.addr_pos (s := t) (by simp)
      rw [headAddr_cons, if_neg (by omega)] at hw
      obtain ⟨rest, hrest, rfl⟩ := Option.map_eq_some_iff.mp hw
      rw [ih hc.shift hrest]
      rfl

theorem walk_isSome (hc : h.Chain (pre ++ s :: post)) :
    (h.walk (s :: post).length s.addr).isSome := by
  induction post generalizing pre s with
  | nil =>
    rw [List.length_singleton, walk, hc.next_eq]
    rfl
  | cons t post ih =>
    have hpos := hc.addr_pos (s := t) (by simp)
    rw [List.length_cons, walk, hc.next_eq, headAddr_cons, if_neg (by omega), Option.isSome_map]
    exact ih hc.shift

theorem Chain.walk (hc : h.Chain segs) {fuel : ℕ} {hs : List ℕ}
    (hw : h.walk fuel h.sHeapStart = some hs) : hs = segs.map Segment.addr := by
  obtain ⟨s, post, rfl⟩ := List.exists_cons_of_ne_nil hc.ne_nil
  have hc' : h.Chain ([] ++ s :: post) := hc
  exact walk_eq_some hc' (by rw [hc.tiles.1]; exact hw)

theorem getLast?_map_addr (segs : List Segment) (hne : segs ≠ []) :
    (segs.map Segment.addr).getLast? = some (lastAddr 0 segs) := by
  obtain ⟨pre, s, rfl⟩ : ∃ pre s, segs = pre ++ [s] :=
    ⟨_, _, (List.dropLast_append_getLast hne).symm⟩
  simp

theorem Chain.intact (hc : h.Chain segs) : h.Intact (segs.map Segment.addr) where
  walk := by
    obtain ⟨s, post, rfl⟩ := List.exists_cons_of_ne_nil hc.ne_nil
    have hc' : h.Chain ([] ++ s :: post) := hc
    have hstart : s.addr = h.sHeapStart := hc.tiles.1
    obtain ⟨hs, hw⟩ := Option.isSome_iff_exists.mp (walk_isSome hc')
    exact ⟨_, by rw [← hstart, hw, walk_eq_some hc' hw]⟩
  increasing := List.pairwise_map.mpr (hc.tiles.pairwise_lt (by decide))
  tiles := by
    simp only [List.forall_mem_map]
    intro s hs
    obtain ⟨pre, post, rfl⟩ := List.append_of_mem hs
    -- a segment stops at the next header, the last one at the end of the heap
    have hstop := hc.tiles.around.2.headAddr_eq
    rw [hc.next_eq, hc.length_eq]
    cases post with
    | nil => exact hstop.symm
    | cons t post =>
      have hpos := hc.addr_pos (s := t) (by simp)
      rw [headAddr_cons, if_neg (by omega)]
      exact hstop.symm
  last_next := by
    simp only [List.forall_mem_map]
    intro s hs hne
    obtain ⟨pre, post, rfl⟩ := List.append_of_mem hs
    rw [hc.next_eq] at hne ⊢
    cases post with
    | nil => exact absurd rfl hne
    | cons t post =>
      exact ⟨List.mem_map_of_mem (by simp), hc.last_succ⟩
  next_last := by
    simp only [List.forall_mem_map]
    intro s hs hne
    obtain ⟨pre, post, rfl⟩ := List.append_of_mem hs
    obtain rfl | ⟨pre, r, rfl⟩ := List.eq_nil_or_concat pre
    · exact absurd hc.prev_eq hne
    · have hr : h.Chain (pre ++ r :: s :: post) := by simpa using hc
      have hlast : h.last s.addr = r.addr := hr.last_succ
      rw [hlast]
      exact ⟨List.mem_map_of_mem (by simp), hr.next_eq⟩
  last_eq_zero_iff := by
    simp only [List.forall_mem_map]
    intro s hs
    obtain ⟨pre, post, rfl⟩ := List.append_of_mem hs
    rw [hc.prev_eq]
    obtain _ | ⟨r, pre⟩ := pre
    · exact iff_of_true rfl hc.tiles.1
    · -- a header behind another one has that as its last one, and is not at the start
      obtain ⟨u, hu, heq⟩ := exists_mem_lastAddr (List.cons_ne_nil r pre) 0
      have hpos := hc.addr_pos (s := u) (by simp at hu ⊢; tauto)
      have hlt := (hc.tiles.mem_le (s := r) (by simp)).1
      have hc' : h.Chain ([] ++ r :: (pre ++ s :: post)) := hc
      have hrs := hc'.stop_le (t := s) (by simp)
      rw [heq]
      refine iff_of_false (by omega) ?_
      unfold headerSize at hrs
      omega
  sLastHeader := by
    rw [hc.last_eq]
    exact getLast?_map_addr segs hc.ne_nil

/-- The payload of the block at `p`, as long as its header says. -/
def block (h : Heap) (p : ℕ) : Set ℕ := Set.Ico p (p + h.length (p - headerSize))

theorem Chain.block_eq (hc : h.Chain segs) (hs : s ∈ segs) :
    h.block (s.addr + headerSize) =
      Set.Ico (s.addr + headerSize) (s.addr + headerSize + s.length) := by
  obtain ⟨pre, post, rfl⟩ := List.append_of_mem hs
  rw [block, Nat.add_sub_cancel, hc.length_eq]

/-- A byte of a payload in use belongs to no header. -/
theorem Chain.write_payload (hc : h.Chain segs) (hs : s ∈ segs) {x : ℕ} (b : UInt8)
    (hlo : s.addr + headerSize ≤ x) (hhi : x < s.addr + headerSize + s.length) :
    Chain { h with mem := Function.update h.mem x b } segs := by
  refine ⟨hc.linked.congr fun t ht => ?_, hc.tiles, hc.ne_nil, hc.last_eq, hc.start_pos, hc.end_lt,
    hc.long⟩
  have hfield : ∀ f, Heap.field { h with mem := Function.update h.mem x b } f t.addr =
      h.field f t.addr := fun f => by
    refine load_congr fun i hi => Function.update_of_ne ?_ _ _
    have hin : f.offset + i < headerSize := by
      cases f <;> simp only [HeaderField.bytes, HeaderField.offset, headerSize] at hi ⊢ <;> omega
    obtain rfl | hapart := hc.tiles.eq_or_apart hs ht
    · omega
    · omega
  simp only [header, last, next, length, isFree, hfield]

end Heap

/-! ### Clients -/

/-- The heap and the blocks that its client holds: the pointers that `malloc` has returned and
`free` has not taken back, with the sizes that were asked for. -/
structure HeapClient where
  heap : Heap
  live : List (ℕ × ℕ)

/-- What a client does. -/
inductive HeapCall where
  /-- `malloc(numBytes)` returns `pointer`. -/
  | malloc (numBytes pointer : ℕ)
  /-- `free(pointer)`. -/
  | free (pointer : ℕ)
  /-- `expand_heap(numBytes)`. -/
  | expandHeap (numBytes : ℕ)
  /-- The client writes a byte. -/
  | write (address : ℕ) (value : UInt8)

/-- The calls a client may make: it frees only what it holds and writes only into what it has asked
for, and the heap stays below the top of the address space. -/
inductive HeapStep : HeapClient → HeapCall → HeapClient → Prop where
  | malloc {c : HeapClient} {n p fuel : ℕ} {h : Heap} (hn : n < 2 ^ 64)
      (hbelow : Heap.StaysBelow fuel c.heap n) (hm : c.heap.malloc false fuel n = some (h, p)) :
      HeapStep c (.malloc n p) ⟨h, if p = 0 then c.live else (p, n) :: c.live⟩
  | free {c : HeapClient} {p : ℕ} (hp : p ∈ c.live.map Prod.fst) :
      HeapStep c (.free p) ⟨c.heap.free p, c.live.filter fun b => b.1 ≠ p⟩
  | expandHeap {c : HeapClient} {n : ℕ} (hfit : c.heap.expandedEnd n < 2 ^ 64) :
      HeapStep c (.expandHeap n) ⟨c.heap.expandHeap n, c.live⟩
  | write {c : HeapClient} {b : ℕ × ℕ} {i : ℕ} {v : UInt8} (hb : b ∈ c.live) (hi : i < b.2) :
      HeapStep c (.write (b.1 + i) v)
        ⟨{ c.heap with mem := Function.update c.heap.mem (b.1 + i) v }, c.live⟩

namespace HeapClient

/-- The invariant of the runs: behind every live block there is a segment in use that is long
enough. -/
structure Sound (c : HeapClient) (segs : List Segment) : Prop where
  chain : c.heap.Chain segs
  live : ∀ b ∈ c.live, ∃ s ∈ segs, s.free = false ∧ b.1 = s.addr + headerSize ∧ b.2 ≤ s.length
  nodup : (c.live.map Prod.fst).Nodup

variable {c c' : HeapClient} {segs segs' : List Segment} {s : Segment}

theorem sound_init (h : Heap) : Sound ⟨h.initHeap, []⟩ [Heap.firstSegment] :=
  ⟨h.initHeap_chain, by simp, .nil⟩

theorem Sound.of_keeps {h : Heap} {live : List (ℕ × ℕ)} (hs : c.Sound segs) (hc : h.Chain segs')
    (hkeep : ∀ b ∈ live, b ∈ c.live ∧ ∀ s ∈ segs, s.free = false → b.1 = s.addr + headerSize →
      s ∈ segs') (hnodup : (live.map Prod.fst).Nodup) : Sound ⟨h, live⟩ segs' := by
  refine ⟨hc, fun b hb => ?_, hnodup⟩
  obtain ⟨s, hmem, hused, hptr, hlen⟩ := hs.live b (hkeep b hb).1
  exact ⟨s, (hkeep b hb).2 s hmem hused hptr, hused, hptr, hlen⟩

/-- What a call does to a segment in use, unless it frees it: the segment stays, and unless the
client itself writes there, so do the bytes of its payload. -/
def Spares (h : Heap) (segs : List Segment) (l : HeapCall) (h' : Heap) (segs' : List Segment) :
    Prop :=
  ∀ s ∈ segs, s.free = false → l ≠ .free (s.addr + headerSize) → s ∈ segs' ∧
    ((∀ a v, l ≠ .write a v) → ∀ x, s.addr + headerSize ≤ x →
      x < s.addr + headerSize + s.length → h'.mem x = h.mem x)

theorem spares_of_keeps {h h' : Heap} {l : HeapCall} (hk : Heap.Keeps h segs h' segs') :
    Spares h segs l h' segs' :=
  fun s hs hused _ => ⟨hk.segments s hs hused, fun _ => hk.bytes s hs hused⟩

/-- After `malloc` the new block is backed by a segment that no live block had. -/
theorem Sound.malloc {h : Heap} {n p : ℕ} (hs : c.Sound segs)
    (ha : Heap.Allocates c.heap segs n h p segs') :
    Sound ⟨h, if p = 0 then c.live else (p, n) :: c.live⟩ segs' := by
  have hkeep : Sound ⟨h, c.live⟩ segs' :=
    hs.of_keeps ha.chain (fun b hb => ⟨hb, fun s hs hused _ => ha.keeps.segments s hs hused⟩)
    hs.nodup
  split
  next => exact hkeep
  next hp =>
    obtain ⟨s, hmem, hused, hptr, hlen, hfresh⟩ := ha.block hp
    refine ⟨ha.chain, ?_, ?_⟩
    · rintro b hb
      obtain rfl | hb := List.mem_cons.mp hb
      · exact ⟨s, hmem, hused, hptr, hlen⟩
      · exact hkeep.live b hb
    · refine List.nodup_cons.mpr ⟨fun hold => ?_, hs.nodup⟩
      obtain ⟨b, hb, hbp⟩ := List.mem_map.mp hold
      obtain ⟨t, ht, htused, htptr, -⟩ := hs.live b hb
      refine hfresh t ht htused ?_
      have hbp : b.1 = p := hbp
      omega

/-- After `free` the other live blocks still have their segments. -/
theorem Sound.free {p : ℕ} (hs : c.Sound segs) (hp : p ∈ c.live.map Prod.fst) :
    ∃ segs', Sound ⟨c.heap.free p, c.live.filter fun b => b.1 ≠ p⟩ segs' ∧
      Spares c.heap segs (.free p) (c.heap.free p) segs' := by
  obtain ⟨b, hb, rfl⟩ := List.mem_map.mp hp
  obtain ⟨s, hmem, -, hptr, -⟩ := hs.live b hb
  obtain ⟨pre, post, rfl⟩ := List.append_of_mem hmem
  have hkeeps := hs.chain.keeps_free
  rw [hptr]
  have hother : ∀ t ∈ pre ++ s :: post, t.addr + headerSize ≠ s.addr + headerSize →
      t ∈ pre ++ post := fun t ht hne => by
    have hts : t ≠ s := by
      rintro rfl
      exact hne rfl
    simp only [List.mem_append, List.mem_cons] at ht ⊢
    tauto
  refine ⟨_, hs.of_keeps hs.chain.free (fun b hb => ?_) ?_, fun t ht hused hne => ?_⟩
  · obtain ⟨hlive, hbne⟩ := List.mem_filter.mp hb
    refine ⟨hlive, fun t ht hused htptr => hkeeps.segments t (hother t ht ?_) hused⟩
    rw [← htptr]
    exact of_decide_eq_true hbne
  · exact (hs.nodup.sublist (List.filter_sublist.map _))
  · have ht' := hother t ht fun heq => hne (by rw [heq])
    exact ⟨hkeeps.segments t ht' hused, fun _ => hkeeps.bytes t ht' hused⟩

end HeapClient

open HeapClient

/-- **One step** keeps the invariant and spares the segments in use. -/
theorem HeapStep.sound {c c' : HeapClient} {l : HeapCall} {segs : List Segment} (hs : c.Sound segs)
    (hstep : HeapStep c l c') : ∃ segs', c'.Sound segs' ∧ Spares c.heap segs l c'.heap segs' := by
  cases hstep with
  | malloc hn hbelow hm =>
    obtain ⟨segs', halloc⟩ := hs.chain.malloc hn hbelow hm
    exact ⟨segs', hs.malloc halloc, spares_of_keeps halloc.keeps⟩
  | free hp =>
    dsimp only
    exact hs.free hp
  | expandHeap hfit =>
    have hkeeps := hs.chain.keeps_expandHeap hfit
    dsimp only
    refine ⟨_, hs.of_keeps (hs.chain.expandHeap hfit) (fun b hb => ⟨hb, ?_⟩) hs.nodup,
      spares_of_keeps hkeeps⟩
    exact fun s hs hused _ => hkeeps.segments s hs hused
  | @write b i v hb hi =>
    obtain ⟨s, hmem, hused, hptr, hlen⟩ := hs.live b hb
    refine ⟨segs, ⟨hs.chain.write_payload hmem v (by omega) (by omega), hs.live, hs.nodup⟩, ?_⟩
    exact fun t ht _ _ => ⟨ht, fun hno => absurd rfl (hno _ _)⟩

/-- **The invariant holds in every run**: by induction on the calls. -/
theorem HeapClient.Sound.run {c c' : HeapClient} {calls : List HeapCall} {segs : List Segment}
    (hs : c.Sound segs) (hrun : Run HeapStep c calls c') : ∃ segs, c'.Sound segs :=
  hrun.invariant (I := fun c => ∃ segs, c.Sound segs) ⟨_, hs⟩
    fun _ _ _ ⟨_, hs⟩ hstep => let ⟨segs', hs', _⟩ := hstep.sound hs; ⟨segs', hs'⟩

theorem heapRun_sound {h : Heap} {calls : List HeapCall} {c : HeapClient}
    (hrun : Run HeapStep ⟨h.initHeap, []⟩ calls c) : ∃ segs, c.Sound segs :=
  (sound_init h).run hrun

/-- A block is written byte by byte: the first `k` bytes become those of `M`. -/
theorem HeapClient.write_block {c : HeapClient} {b : ℕ × ℕ} (hb : b ∈ c.live) (M : Memory) (k : ℕ)
    (hk : k ≤ b.2) :
    ∃ calls, Run HeapStep c calls ⟨{ c.heap with
      mem := fun x => if b.1 ≤ x ∧ x < b.1 + k then M x else c.heap.mem x }, c.live⟩ := by
  induction k with
  | zero =>
    have hsame : (fun x => if b.1 ≤ x ∧ x < b.1 + 0 then M x else c.heap.mem x) = c.heap.mem :=
      funext fun x => if_neg (by omega)
    rw [hsame]
    exact ⟨[], .nil⟩
  | succ k ih =>
    obtain ⟨calls, hrun⟩ := ih (Nat.le_of_succ_le hk)
    have hlast : (fun x => if b.1 ≤ x ∧ x < b.1 + (k + 1) then M x else c.heap.mem x) =
        Function.update (fun x => if b.1 ≤ x ∧ x < b.1 + k then M x else c.heap.mem x) (b.1 + k)
          (M (b.1 + k)) := by
      funext x
      by_cases hx : x = b.1 + k
      · rw [hx, Function.update_self, if_pos (by omega)]
      · rw [Function.update_of_ne hx]
        exact if_congr (by omega) rfl rfl
    rw [hlast]
    exact ⟨_, hrun.snoc (.write hb hk)⟩

/-- A block is written over: what it holds afterwards may be anything. -/
theorem HeapClient.write_into {c : HeapClient} {h : Heap} {b : ℕ × ℕ} (hb : b ∈ c.live)
    (harena : Heap.SameArena c.heap h) (hlast : h.sLastHeader = c.heap.sLastHeader)
    (hout : ∀ x, x < b.1 ∨ b.1 + b.2 ≤ x → h.mem x = c.heap.mem x) :
    ∃ calls, Run HeapStep c calls ⟨h, c.live⟩ := by
  obtain ⟨machine, mem, start, stop, last⟩ := h
  obtain ⟨rfl, rfl, rfl⟩ := harena
  obtain rfl : last = c.heap.sLastHeader := hlast
  have hmem : (fun x => if b.1 ≤ x ∧ x < b.1 + b.2 then mem x else c.heap.mem x) = mem := by
    funext x
    split
    next => rfl
    next hx => exact (hout x (by omega)).symm
  have hblock := write_block hb mem b.2 le_rfl
  rw [hmem] at hblock
  exact hblock

/-! ### The results -/

/-- A kernel before `init_heap`, with pages to hand out. -/
def Heap.unset : Heap := ⟨Machine.empty 2 20, fun _ => 0, 0, 0, 0⟩

/-- The client of the heap that `init_heap` has set up. -/
def HeapClient.first : HeapClient := ⟨Heap.unset.initHeap, []⟩

/-- The client after its first call, `malloc(24)`. -/
def HeapClient.second : HeapClient :=
  ⟨Heap.unset.initHeap.take 24 Heap.firstSegment, [(heapVirtualBase + headerSize, 24)]⟩

theorem HeapClient.sound_second : HeapClient.second.Sound
    [⟨heapVirtualBase, 24, false⟩, ⟨heapVirtualBase + headerSize + 24, 4022, true⟩] := by
  have hc : Heap.unset.initHeap.Chain ([] ++ Heap.firstSegment :: []) := Heap.unset.initHeap_chain
  have htaken : [] ++ Heap.taken 24 Heap.firstSegment ++ [] =
    [⟨heapVirtualBase, 24, false⟩, ⟨heapVirtualBase + headerSize + 24, 4022, true⟩] := by decide
  have hchain := (hc.take (n := 24) (by decide)).1
  rw [htaken] at hchain
  have hsound : HeapClient.Sound ⟨Heap.unset.initHeap.take 24 Heap.firstSegment,
      [(heapVirtualBase + headerSize, 24)]⟩ _ := ⟨hchain, by simp, by simp⟩
  exact hsound

theorem HeapStep.first_malloc :
    HeapStep .first (.malloc 24 (heapVirtualBase + headerSize)) .second := by
  have hround : Heap.roundRequest 24 = 24 := by decide
  have hptr : add64 Heap.firstSegment.addr headerSize = heapVirtualBase + headerSize := by decide
  obtain ⟨hm, hbelow⟩ := Heap.unset.initHeap_chain.malloc_of_find (n := 24) (t := Heap.firstSegment)
    (by decide) (Nat.le_refl 1) (by decide)
  rw [hround, hptr] at hm
  have hstep := HeapStep.malloc (c := .first) (by decide) hbelow hm
  rw [if_neg (by decide)] at hstep
  exact hstep

theorem HeapStep.second_malloc : ∃ c' : HeapClient,
    HeapStep .second (.malloc 8 (heapVirtualBase + 74)) c' ∧
      c'.live = (heapVirtualBase + 74, 8) :: HeapClient.second.live := by
  have hround : Heap.roundRequest 8 = 8 := by decide
  have hptr : add64 (heapVirtualBase + headerSize + 24) headerSize = heapVirtualBase + 74 := by
    decide
  obtain ⟨hm, hbelow⟩ := HeapClient.sound_second.chain.malloc_of_find (n := 8)
    (t := ⟨heapVirtualBase + headerSize + 24, 4022, true⟩) (by decide) (Nat.le_refl 2) (by decide)
  rw [hround, hptr] at hm
  have hstep := HeapStep.malloc (c := .second) (by decide) hbelow hm
  rw [if_neg (by decide)] at hstep
  exact ⟨_, hstep, rfl⟩

/-- **The segment chain is intact in every state that is reached**: the headers form a finite doubly
linked chain in address order that tiles the heap and ends at `sLastHeader`. -/
theorem heap_chain_intact {h : Heap} {calls : List HeapCall} {c : HeapClient}
    (hrun : Run HeapStep ⟨h.initHeap, []⟩ calls c) : ∃ hs, c.heap.Intact hs := by
  obtain ⟨segs, hs⟩ := heapRun_sound hrun
  exact ⟨_, hs.chain.intact⟩

theorem heap_chain_intact_three_calls :
    ∃ c, Run HeapStep .first [.malloc 24 (heapVirtualBase + headerSize), .expandHeap 5000,
        .free (heapVirtualBase + headerSize)] c ∧ ∃ hs, c.heap.Intact hs := by
  have hfit : HeapClient.second.heap.expandedEnd 5000 < 2 ^ 64 := by
    rw [Heap.expandedEnd, ← HeapClient.sound_second.chain.tiles.2.2]
    decide
  have hrun := ((Run.single HeapStep.first_malloc).snoc (.expandHeap hfit)).snoc
    (.free (p := heapVirtualBase + headerSize) (by simp [HeapClient.second]))
  exact ⟨_, hrun, heap_chain_intact hrun⟩

namespace HeapClient

variable {c c' : HeapClient} {segs : List Segment} {s t : Segment} {l : HeapCall}

theorem Sound.block_eq (hs : c.Sound segs) {b : ℕ × ℕ} (hb : b ∈ c.live) :
    ∃ s ∈ segs, s.free = false ∧ b.1 = s.addr + headerSize ∧ b.2 ≤ s.length ∧
      c.heap.block b.1 = Set.Ico b.1 (b.1 + s.length) := by
  obtain ⟨s, hmem, hused, hptr, hlen⟩ := hs.live b hb
  refine ⟨s, hmem, hused, hptr, hlen, ?_⟩
  rw [hptr]
  exact hs.chain.block_eq hmem

theorem Sound.blocks_disjoint (hs : c.Sound segs) {b d : ℕ × ℕ} (hb : b ∈ c.live) (hd : d ∈ c.live)
    (hne : b.1 ≠ d.1) : Disjoint (c.heap.block b.1) (c.heap.block d.1) := by
  obtain ⟨s, hmem, -, hptr, -, hblock⟩ := hs.block_eq hb
  obtain ⟨t, hmem', -, hptr', -, hblock'⟩ := hs.block_eq hd
  rw [hblock, hblock']
  refine Set.Ico_disjoint_Ico.mpr ?_
  obtain rfl | hapart := hs.chain.tiles.eq_or_apart hmem hmem'
  · omega
  · omega

theorem Sound.block_subset (hs : c.Sound segs) {b : ℕ × ℕ} (hb : b ∈ c.live) :
    c.heap.block b.1 ⊆ Set.Ico c.heap.sHeapStart c.heap.sHeapEnd := by
  obtain ⟨s, hmem, -, hptr, -, hblock⟩ := hs.block_eq hb
  obtain ⟨hlo, hhi⟩ := hs.chain.tiles.mem_le hmem
  rw [hblock]
  exact Set.Ico_subset_Ico (by omega) (by omega)

theorem Sound.block_disjoint_header (hs : c.Sound segs) {b : ℕ × ℕ} (hb : b ∈ c.live)
    (ht : t ∈ segs) : Disjoint (c.heap.block b.1) (Set.Ico t.addr (t.addr + headerSize)) := by
  obtain ⟨s, hmem, -, hptr, -, hblock⟩ := hs.block_eq hb
  rw [hblock]
  refine Set.Ico_disjoint_Ico.mpr ?_
  obtain rfl | hapart := hs.chain.tiles.eq_or_apart hmem ht
  · omega
  · omega

end HeapClient

theorem HeapStep.not_freed {c c' : HeapClient} {l : HeapCall} (hstep : HeapStep c l c') {b : ℕ × ℕ}
    (hb : b ∈ c'.live) : l ≠ .free b.1 := by
  rintro rfl
  cases hstep with
  | free hp => exact absurd rfl (of_decide_eq_true (List.mem_filter.mp hb).2)

/-- **What `malloc` promises its callers.**  In every run, a pointer that `malloc(n)` returns heads
at least `n` bytes inside the heap, apart from every other live block and from every header of the
chain; and no call of `malloc`, `free` or `expand_heap` moves or changes a block that stays live. -/
theorem malloc_blocks_exclusive {h : Heap} {calls : List HeapCall} {c c' : HeapClient}
    {l : HeapCall}
    (hrun : Run HeapStep ⟨h.initHeap, []⟩ calls c) (hstep : HeapStep c l c') :
    (∀ n p, l = .malloc n p → p ≠ 0 →
      Set.Ico p (p + n) ⊆ c'.heap.block p ∧
      c'.heap.block p ⊆ Set.Ico c'.heap.sHeapStart c'.heap.sHeapEnd ∧
      (∀ b ∈ c.live, Disjoint (c'.heap.block p) (c'.heap.block b.1)) ∧
      ∀ fuel hs, c'.heap.walk fuel c'.heap.sHeapStart = some hs → ∀ a ∈ hs,
        Disjoint (c'.heap.block p) (Set.Ico a (a + headerSize))) ∧
    ((∀ a v, l ≠ .write a v) → ∀ b ∈ c.live, b ∈ c'.live →
      c'.heap.block b.1 = c.heap.block b.1 ∧
        ∀ x ∈ c.heap.block b.1, c'.heap.mem x = c.heap.mem x) := by
  obtain ⟨segs, hs⟩ := heapRun_sound hrun
  obtain ⟨segs', hs', hspares⟩ := hstep.sound hs
  refine ⟨?_, fun hno b hb hb' => ?_⟩
  · rintro n p rfl hp
    -- the block that `malloc` returns is live now
    have hlive : c'.live = (p, n) :: c.live := by
      cases hstep with
      | malloc => exact if_neg hp
    have hmem : (p, n) ∈ c'.live := by simp [hlive]
    have hnodup := hs'.nodup
    rw [hlive] at hnodup
    refine ⟨?_, hs'.block_subset hmem, fun b hb => ?_, fun fuel hs hwalk a ha => ?_⟩
    · obtain ⟨s, -, -, -, hlen, hblock⟩ := hs'.block_eq hmem
      rw [hblock]
      exact Set.Ico_subset_Ico_right (Nat.add_le_add_left hlen p)
    · refine hs'.blocks_disjoint hmem (by simp [hlive, hb]) fun heq => ?_
      have hold : b.1 ∈ c.live.map Prod.fst := List.mem_map_of_mem hb
      exact (List.nodup_cons.mp hnodup).1 (heq ▸ hold)
    · rw [hs'.chain.walk hwalk] at ha
      obtain ⟨t, ht, rfl⟩ := List.mem_map.mp ha
      exact hs'.block_disjoint_header hmem ht
  · obtain ⟨s, hmem, hused, hptr, -, hblock⟩ := hs.block_eq hb
    obtain ⟨hmem', hbytes⟩ := hspares s hmem hused (hptr ▸ hstep.not_freed hb')
    rw [hblock, hptr]
    refine ⟨hs'.chain.block_eq hmem', fun x hx => hbytes hno x hx.1 ?_⟩
    exact hx.2

theorem malloc_blocks_exclusive_second_call : ∃ c' : HeapClient,
    HeapStep .second (.malloc 8 (heapVirtualBase + 74)) c' ∧
      Disjoint (c'.heap.block (heapVirtualBase + 74))
        (c'.heap.block (heapVirtualBase + headerSize)) ∧
      ∀ x ∈ HeapClient.second.heap.block (heapVirtualBase + headerSize),
        c'.heap.mem x = HeapClient.second.heap.mem x := by
  obtain ⟨c', hstep, hlive'⟩ := HeapStep.second_malloc
  have hlive : (heapVirtualBase + headerSize, 24) ∈ HeapClient.second.live := .head _
  obtain ⟨hnew, hold⟩ := malloc_blocks_exclusive (Run.single HeapStep.first_malloc) hstep
  refine ⟨_, hstep, (hnew _ _ rfl (by decide)).2.2.1 _ hlive, ?_⟩
  exact (hold (by simp) _ hlive (by simp [hlive', hlive])).2

end Eterna
