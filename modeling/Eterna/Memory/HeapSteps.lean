import Eterna.Memory.HeapChain

/-!
# What the heap operations do to the chain

For each of `init_heap`, `expand_heap`, `free`, the search of `malloc` and `malloc` itself: the
chain of segments afterwards, and that nothing happens to the segments in use (`Keeps`).
-/

namespace Eterna

open ByteMemory SegmentChain

namespace Heap

variable {h h' h'' : Heap} {segs segs' segs'' pre post : List Segment} {s t : Segment}
  {A : List ℕ} {n : ℕ}

/-! ### Keeping what is in use -/

/-- Segments in use stay in the chain, and the bytes of their payloads stay what they are. -/
structure Keeps (h : Heap) (segs : List Segment) (h' : Heap) (segs' : List Segment) : Prop where
  segments : ∀ s ∈ segs, s.free = false → s ∈ segs'
  bytes : ∀ s ∈ segs, s.free = false → ∀ x, s.addr + headerSize ≤ x →
    x < s.addr + headerSize + s.length → h'.mem x = h.mem x

theorem Keeps.refl (h : Heap) (segs : List Segment) : Keeps h segs h segs :=
  ⟨fun _ hs _ => hs, fun _ _ _ _ _ _ => rfl⟩

theorem Keeps.trans (h₁ : Keeps h segs h' segs') (h₂ : Keeps h' segs' h'' segs'') :
    Keeps h segs h'' segs'' where
  segments s hs hused := h₂.segments s (h₁.segments s hs hused) hused
  bytes s hs hused x hlo hhi :=
    (h₂.bytes s (h₁.segments s hs hused) hused x hlo hhi).trans (h₁.bytes s hs hused x hlo hhi)

/-- A header may be written at `a` without touching a payload in use: there is one already, or `a`
lies in a free segment or behind the heap. -/
def Writable (h : Heap) (segs : List Segment) (a : ℕ) : Prop :=
  h.sHeapEnd ≤ a ∨ (∃ t ∈ segs, a = t.addr) ∨
    ∃ t ∈ segs, t.free = true ∧ t.addr ≤ a ∧ a + headerSize ≤ t.stop headerSize

/-- Payloads in use lie apart from every header that may be written. -/
theorem Chain.apart_of_writable (hc : h.Chain segs) (hs : s ∈ segs) (hused : s.free = false) {a : ℕ}
    (ha : Writable h segs a) :
    s.addr + headerSize + s.length ≤ a ∨ a + headerSize ≤ s.addr + headerSize := by
  obtain hend | ⟨t, ht, rfl⟩ | ⟨t, ht, hfree, hlo, hhi⟩ := ha
  · exact .inl ((hc.tiles.mem_le hs).2.trans hend)
  · obtain rfl | hst | hts := hc.tiles.eq_or_apart hs ht
    · exact .inr (Nat.le_refl _)
    · exact .inl hst
    · exact .inr (by omega)
  · obtain rfl | hst | hts := hc.tiles.eq_or_apart hs ht
    · exact absurd hused (by rw [hfree]; decide)
    · exact .inl (hst.trans hlo)
    · exact .inr (hhi.trans (Nat.le_add_right_of_le hts))

theorem Chain.bytes_of_writes (hc : h.Chain segs) (hw : Writes A h h')
    (hA : ∀ a ∈ A, Writable h segs a) (hs : s ∈ segs) (hused : s.free = false) {x : ℕ}
    (hlo : s.addr + headerSize ≤ x) (hhi : x < s.addr + headerSize + s.length) :
    h'.mem x = h.mem x := by
  refine hw x fun a ha => ?_
  have hapart := hc.apart_of_writable hs hused (hA a ha)
  omega

/-! ### `init_heap` -/

/-- The segment `init_heap` sets up. -/
def firstSegment : Segment := ⟨heapVirtualBase, heapInitialPages * pageSize - headerSize, true⟩

theorem initHeap_chain (h : Heap) : h.initHeap.Chain [firstSegment] := by
  have hheader : h.initHeap.header heapVirtualBase =
      ⟨0, 0, heapInitialPages * pageSize - headerSize, true⟩ := by
    rw [initHeap, setLastHeader_header, header_setFree_self, header_setLast_self (by decide),
      header_setNext_self (by decide), header_setLength_self (by decide)]
    rfl
  have hstart : h.initHeap.sHeapStart = heapVirtualBase := rfl
  have hend : h.initHeap.sHeapEnd = heapVirtualBase + pageSize := rfl
  refine ⟨⟨hheader, trivial⟩, ?_, by simp, rfl, ?_, ?_, ?_⟩
  · rw [hstart, hend]
    exact ⟨rfl, (by decide : firstSegment.stop headerSize = heapVirtualBase + pageSize)⟩
  · rw [hstart]
    decide
  · rw [hend]
    decide
  · simp only [List.mem_singleton, forall_eq]
    decide

/-! ### `expand_heap` -/

/-- The new pages leave the bytes and the chain alone. -/
theorem mapPages_spec (h : Heap) (hn : h.sHeapEnd + n * pageSize < 2 ^ 64) :
    (mapPages n h).mem = h.mem ∧ (mapPages n h).sHeapStart = h.sHeapStart ∧
      (mapPages n h).sLastHeader = h.sLastHeader ∧
      (mapPages n h).sHeapEnd = h.sHeapEnd + n * pageSize := by
  induction n generalizing h with
  | zero => exact ⟨rfl, rfl, rfl, by rw [Nat.zero_mul]; rfl⟩
  | succ n ih =>
    rw [Nat.succ_mul] at hn
    have hend : add64 h.sHeapEnd pageSize = h.sHeapEnd + pageSize := add64_of_lt (by omega)
    obtain ⟨hmem, hstart, hlast, hstop⟩ :=
      ih { h.mapPage h.sHeapEnd with sHeapEnd := h.sHeapEnd + pageSize }
        (by show h.sHeapEnd + pageSize + n * pageSize < 2 ^ 64; omega)
    have hmapped : (h.mapPage h.sHeapEnd).sHeapEnd = h.sHeapEnd := rfl
    rw [mapPages, hmapped, hend]
    refine ⟨hmem, hstart, hlast, hstop.trans ?_⟩
    show h.sHeapEnd + pageSize + n * pageSize = h.sHeapEnd + (n + 1) * pageSize
    rw [Nat.succ_mul]
    omega

/-- The end of the heap after `expand_heap(numBytes)`, if that is below the top of the address
space. -/
def expandedEnd (h : Heap) (numBytes : ℕ) : ℕ := h.sHeapEnd + (numBytes / pageSize + 1) * pageSize

/-- The segment that `expand_heap(numBytes)` adds. -/
def extension (h : Heap) (numBytes : ℕ) : Segment :=
  ⟨h.sHeapEnd, (numBytes / pageSize + 1) * pageSize - headerSize, true⟩

/-- `expand_heap` before it combines. -/
def extend (h : Heap) (numBytes : ℕ) : Heap :=
  ((((((mapPages (numBytes / pageSize + 1) h).setFree h.sHeapEnd true).setLast h.sHeapEnd
    h.sLastHeader).setNext h.sLastHeader h.sHeapEnd).setLastHeader h.sHeapEnd).setNext
    h.sHeapEnd 0).setLength h.sHeapEnd (extension h numBytes).length

theorem headerSize_lt_extension (n : ℕ) : headerSize + 8 ≤ (n / pageSize + 1) * pageSize := by
  unfold headerSize pageSize
  omega

theorem expandHeap_eq (hfit : expandedEnd h n < 2 ^ 64) :
    h.expandHeap n = (h.extend n).combineBackward (extension h n).addr := by
  obtain ⟨-, -, hlast, -⟩ := mapPages_spec h hfit
  unfold expandedEnd at hfit
  have hbytes : mul64 (n / pageSize + 1) pageSize = (n / pageSize + 1) * pageSize :=
    mul64_of_lt (by omega)
  have hheader := headerSize_lt_extension n
  simp only [expandHeap, extend, extension, hbytes,
    sub64_of_le (a := (n / pageSize + 1) * pageSize) (b := headerSize) (by omega) (by omega),
    setFree,
    setLast, setNext, setField_sLastHeader, hlast]

/-- What `expand_heap` writes before it combines: the header of the extension, and the link to it.
-/
theorem extend_spec (hfit : expandedEnd h n < 2 ^ 64)
    (hinside : h.sLastHeader + headerSize ≤ h.sHeapEnd) :
    Writes [h.sLastHeader, h.sHeapEnd] h (h.extend n) ∧
      (h.extend n).sHeapStart = h.sHeapStart ∧ (h.extend n).sHeapEnd = expandedEnd h n ∧
      (h.extend n).header h.sLastHeader = { h.header h.sLastHeader with next := h.sHeapEnd } ∧
      (h.extend n).header h.sHeapEnd = ⟨h.sLastHeader, 0, (extension h n).length, true⟩ := by
  obtain ⟨hmem, hstart, hlast, hend⟩ := mapPages_spec h hfit
  have hpages : Writes [] h (mapPages (n / pageSize + 1) h) := fun x _ => congrFun hmem x
  unfold expandedEnd at hfit
  have hlen : (extension h n).length < 2 ^ 64 := by
    have hle : (extension h n).length ≤ (n / pageSize + 1) * pageSize := Nat.sub_le _ _
    omega
  have hapart : h.sHeapEnd + headerSize ≤ h.sLastHeader ∨
      h.sLastHeader + headerSize ≤ h.sHeapEnd := .inr hinside
  unfold extend
  refine ⟨?_, hstart, hend, ?_, ?_⟩
  · exact (((((hpages.mono (by simp)).trans (.setField _ _ _ (by simp))).trans
      (.setField _ _ _ (by simp))).trans (.setField _ _ _ (by simp))).trans
      (.setField (Heap.setLastHeader _ _) _ _ (by simp))).trans (.setField _ _ _ (by simp))
  · rw [setLength, header_setField_of_apart hapart, setNext, header_setField_of_apart hapart,
      setLastHeader_header, header_setNext_self (by omega), setLast,
      header_setField_of_apart hapart, setFree, header_setField_of_apart hapart,
      hpages.header_eq (by simp)]
  · rw [header_setLength_self hlen, header_setNext_self (by decide), setLastHeader_header, setNext,
      header_setField_of_apart hapart.symm, header_setLast_self (by omega), header_setFree_self]

theorem extend_effect (hc : h.Chain (pre ++ [s])) (hfit : expandedEnd h n < 2 ^ 64) :
    Writes [s.addr, h.sHeapEnd] h (h.extend n) ∧
      (h.extend n).sHeapStart = h.sHeapStart ∧ (h.extend n).sHeapEnd = expandedEnd h n ∧
      (h.extend n).header s.addr = ⟨lastAddr 0 pre, h.sHeapEnd, s.length, s.free⟩ ∧
      (h.extend n).header h.sHeapEnd = ⟨s.addr, 0, (extension h n).length, true⟩ := by
  have hlast : h.sLastHeader = s.addr := hc.lastHeader_eq
  have hle := (hc.tiles.mem_le (s := s) (by simp)).2
  have hspec := extend_spec hfit (by omega)
  rwa [hlast, hc.header_eq] at hspec

theorem Chain.extend (hc : h.Chain (pre ++ [s])) (hfit : expandedEnd h n < 2 ^ 64) :
    (h.extend n).Chain (pre ++ [s, extension h n]) := by
  obtain ⟨hw, hstart, hend, hs, hext⟩ := extend_effect hc hfit
  have hheader := headerSize_lt_extension n
  have hmid : h.Chain (pre ++ [s] ++ []) := by simpa using hc
  suffices hedit : (h.extend n).Chain (pre ++ [s, extension h n] ++ []) by simpa using hedit
  refine hmid.edit (A := [s.addr, h.sHeapEnd]) (by simpa using hw) (by simp) (by simp) rfl ?_
    ⟨hs, hext, trivial⟩ (by simp) rfl hstart ?_ (hend ▸ hfit) ?_
  · intro a ha
    have hle := (hc.tiles.mem_le (s := s) (by simp)).2
    simp only [List.mem_cons, List.not_mem_nil, or_false] at ha
    refine ⟨?_, by simp⟩
    rw [headAddr_cons]
    omega
  · rw [hend, show pre ++ [s, extension h n] ++ [] = (pre ++ [s]) ++ [extension h n] by simp]
    refine Tiles.append_iff.mpr ⟨_, hc.tiles, rfl, ?_⟩
    simp only [tiles_nil, Segment.stop, extension, expandedEnd]
    omega
  · have hlong := hc.long s (by simp)
    simp only [List.mem_cons, List.not_mem_nil, or_false, forall_eq_or_imp, forall_eq, extension]
    omega

theorem Chain.exists_concat (hc : h.Chain segs) : ∃ pre s, segs = pre ++ [s] := by
  obtain rfl | ⟨pre, s, rfl⟩ := List.eq_nil_or_concat segs
  · exact absurd rfl hc.ne_nil
  · exact ⟨pre, s, List.concat_eq_append⟩

/-- **`expand_heap`** adds a free segment behind the chain, or lengthens the last one if it is
free. -/
theorem Chain.expandHeap (hc : h.Chain segs) (hfit : expandedEnd h n < 2 ^ 64) :
    (h.expandHeap n).Chain (absorbBack segs [extension h n]) := by
  obtain ⟨pre, s, rfl⟩ := hc.exists_concat
  rw [expandHeap_eq hfit]
  have hextend : (h.extend n).Chain (pre ++ [s] ++ [extension h n]) := by
    simpa using hc.extend hfit
  exact hextend.combineBackward

theorem expandHeap_bounds (hc : h.Chain segs) (hfit : expandedEnd h n < 2 ^ 64) :
    (h.expandHeap n).sHeapStart = h.sHeapStart ∧ (h.expandHeap n).sHeapEnd = expandedEnd h n := by
  obtain ⟨pre, s, rfl⟩ := hc.exists_concat
  obtain ⟨-, hstart, hend, -⟩ := extend_effect hc hfit
  have hsame := combineBackward_sameArena (h.extend n) (extension h n).addr
  rw [expandHeap_eq hfit]
  exact ⟨hsame.start.trans hstart, hsame.stop.trans hend⟩

/-! ### What combining keeps -/

theorem absorb_eq (s : Segment) (post : List Segment) :
    ∃ l rest, absorb s post = ⟨s.addr, l, s.free⟩ :: rest := by
  cases post with
  | nil => exact ⟨_, _, rfl⟩
  | cons t post =>
    rw [absorb]
    split
    · exact ⟨_, _, rfl⟩
    · exact ⟨_, _, rfl⟩

theorem mem_absorb (hs : s.free = true) (ht : t ∈ s :: post) (hused : t.free = false) :
    t ∈ absorb s post := by
  have hne : ∀ r : Segment, r.free = true → t ≠ r := by
    rintro r hr rfl
    exact absurd hused (by rw [hr]; decide)
  cases post with
  | nil => exact ht
  | cons u post =>
    rw [absorb]
    split
    next hu =>
      have hmem := List.mem_of_ne_of_mem (hne u hu) (List.mem_of_ne_of_mem (hne s hs) ht)
      exact .tail _ hmem
    next => exact ht

theorem Chain.combineForward_writes (hc : h.Chain (pre ++ s :: post)) :
    ∃ A, Writes A h (h.combineForward s.addr) ∧ ∀ a ∈ A, ∃ t ∈ pre ++ s :: post, a = t.addr := by
  cases post with
  | nil =>
    rw [combineForward_of_next_eq_zero hc.next_eq]
    exact ⟨[], .refl [] h, by simp⟩
  | cons t post =>
    cases ht : t.free with
    | true =>
      refine ⟨_, (combineForward_effect hc ht).1, fun a ha => ?_⟩
      obtain rfl | ha := List.mem_cons.mp ha
      · exact ⟨s, by simp, rfl⟩
      · obtain ⟨u, hu, rfl⟩ := List.mem_map.mp ha
        exact ⟨u, by simp [List.mem_of_mem_take hu], rfl⟩
    | false =>
      rw [combineForward_of_used]
      · exact ⟨[], .refl [] h, by simp⟩
      · rw [hc.next_eq]
        exact hc.shift.isFree_eq.trans ht

theorem Chain.keeps_combineForward (hc : h.Chain (pre ++ s :: post)) (hs : s.free = true) :
    Keeps h (pre ++ s :: post) (h.combineForward s.addr) (pre ++ absorb s post) := by
  obtain ⟨A, hw, hA⟩ := hc.combineForward_writes
  refine ⟨fun t ht hused => ?_, fun t ht hused x hlo hhi => ?_⟩
  · obtain ht | ht := List.mem_append.mp ht
    · exact List.mem_append_left _ ht
    · exact List.mem_append_right _ (mem_absorb hs ht hused)
  · exact hc.bytes_of_writes hw (fun a ha => .inr (.inl (hA a ha))) ht hused hlo hhi

theorem Chain.keeps_combineBackward (hc : h.Chain (pre ++ t :: post)) :
    Keeps h (pre ++ t :: post) (h.combineBackward t.addr) (absorbBack pre (t :: post)) := by
  obtain rfl | ⟨pre, s, rfl⟩ := List.eq_nil_or_concat pre
  · rw [combineBackward_first hc]
    exact .refl h _
  · have hc' : h.Chain (pre ++ s :: t :: post) := by simpa using hc
    rw [List.concat_eq_append, absorbBack_concat, combineBackward_eq hc', List.append_assoc]
    split
    next hs => exact hc'.keeps_combineForward hs
    next => exact .refl h _

theorem Chain.keeps_expandHeap (hc : h.Chain segs) (hfit : expandedEnd h n < 2 ^ 64) :
    Keeps h segs (h.expandHeap n) (absorbBack segs [extension h n]) := by
  obtain ⟨pre, s, rfl⟩ := hc.exists_concat
  have hw := (extend_effect hc hfit).1
  have hextend : Keeps h (pre ++ [s]) (h.extend n) (pre ++ [s] ++ [extension h n]) := by
    refine ⟨fun t ht _ => List.mem_append_left _ ht, fun t ht hused x hlo hhi => ?_⟩
    refine hc.bytes_of_writes hw (fun a ha => ?_) ht hused hlo hhi
    simp only [List.mem_cons, List.not_mem_nil, or_false] at ha
    obtain rfl | rfl := ha
    · exact .inr (.inl ⟨s, by simp, rfl⟩)
    · exact .inl (Nat.le_refl _)
  rw [expandHeap_eq hfit]
  exact hextend.trans (Chain.keeps_combineBackward (by simpa using hc.extend hfit))

/-! ### `free` -/

/-- The chain after `free`. -/
def released (pre : List Segment) (s : Segment) (post : List Segment) : List Segment :=
  absorbBack pre (absorb { s with free := true } post)

theorem free_eq (hc : h.Chain (pre ++ s :: post)) : h.free (s.addr + headerSize) =
    ((h.setFree s.addr true).combineForward s.addr).combineBackward s.addr := by
  have hstop := hc.stop_lt (s := s) (by simp)
  have hsegment : sub64 (s.addr + headerSize) headerSize = s.addr := by
    rw [sub64_of_le (by omega) (by omega), Nat.add_sub_cancel]
  simp only [Heap.free, hsegment]

/-- **`free`** marks the segment and combines it with its free neighbours. -/
theorem Chain.free (hc : h.Chain (pre ++ s :: post)) :
    (h.free (s.addr + headerSize)).Chain (released pre s post) := by
  have hforward := (hc.setFree true).combineForward
  obtain ⟨l, rest, heq⟩ := absorb_eq { s with free := true } post
  rw [free_eq hc, released, heq]
  rw [heq] at hforward
  exact hforward.combineBackward

theorem Chain.keeps_free (hc : h.Chain (pre ++ s :: post)) :
    Keeps h (pre ++ post) (h.free (s.addr + headerSize)) (released pre s post) := by
  have hmark : Keeps h (pre ++ post) (h.setFree s.addr true)
      (pre ++ { s with free := true } :: post) := by
    refine ⟨fun t ht _ => ?_, fun t ht hused x hlo hhi => ?_⟩
    · obtain ht | ht := List.mem_append.mp ht <;> simp [ht]
    · refine hc.bytes_of_writes (setFree_writes h s.addr true) (fun a ha => .inr (.inl ?_))
        (s := t) ?_ hused hlo hhi
      · exact ⟨s, by simp, List.mem_singleton.mp ha⟩
      · obtain ht | ht := List.mem_append.mp ht <;> simp [ht]
  have hforward := (hc.setFree true).combineForward
  have hkeep := (hc.setFree true).keeps_combineForward rfl
  obtain ⟨l, rest, heq⟩ := absorb_eq { s with free := true } post
  rw [free_eq hc, released, heq]
  rw [heq] at hforward hkeep
  exact (hmark.trans hkeep).trans hforward.keeps_combineBackward

/-! ### The search of `malloc` -/

/-- `malloc` takes the segment for a request of `n` bytes: it is free, and just as long or long
enough to be split. -/
def Fits (n : ℕ) (s : Segment) : Prop :=
  s.free = true ∧ (s.length = n ∨ 8 ≤ n ∧ n + headerSize + 8 ≤ s.length)

instance (n : ℕ) (s : Segment) : Decidable (Fits n s) :=
  inferInstanceAs (Decidable (_ ∧ _))

/-- The heap after the segment has been taken. -/
def take (h : Heap) (n : ℕ) (s : Segment) : Heap :=
  if s.length = n then h.setFree s.addr false else (h.split s.addr n).1.setFree s.addr false

/-- The segments that take the place of the one that has been taken. -/
def taken (n : ℕ) (s : Segment) : List Segment :=
  if s.length = n then [{ s with free := false }]
  else [⟨s.addr, n, false⟩, ⟨s.addr + headerSize + n, s.length - n - headerSize, s.free⟩]

/-- One iteration of the search. -/
theorem search_succ (hc : h.Chain (pre ++ s :: post)) (n fuel : ℕ) :
    search n (fuel + 1) h s.addr =
      if Fits n s then some (h.take n s, s.addr)
      else if post = [] then some (h, 0) else search n fuel h (headAddr post 0) := by
  have hpos := hc.addr_pos (s := s) (by simp)
  have honward : (if h.next s.addr = 0 then some (h, 0) else search n fuel h (h.next s.addr)) =
      if post = [] then some (h, 0) else search n fuel h (headAddr post 0) := by
    rw [hc.next_eq]
    cases post with
    | nil => rfl
    | cons u post =>
      have hu := hc.addr_pos (s := u) (by simp)
      rw [headAddr_cons, if_neg (by omega), if_neg (by simp)]
  rw [search]
  simp only [hc.isFree_eq, hc.length_eq]
  cases hfree : s.free with
  | false =>
    have hno : ¬Fits n s := fun hfits => absurd hfits.1 (by rw [hfree]; decide)
    rw [if_neg (by decide), if_neg hno, honward]
  | true =>
    rw [if_pos rfl]
    obtain hlt | heq | hgt := Nat.lt_trichotomy n s.length
    · rw [if_pos hlt]
      by_cases hroom : 8 ≤ n ∧ n + headerSize + 8 ≤ s.length
      · obtain ⟨-, -, -, -, -, -, hthis⟩ := split_effect hc hroom.1 hroom.2
        rw [if_pos (by rw [hthis]; omega), if_pos ⟨hfree, .inr hroom⟩, take, if_neg (by omega),
          hthis]
      · have hno : ¬Fits n s := fun hfits => hfits.2.elim (by omega) hroom
        rw [split_of_short hc hlt (by omega), if_neg (by simp), if_neg hno, honward]
    · rw [if_neg (by omega), if_pos heq.symm, if_pos ⟨hfree, .inl heq.symm⟩, take, if_pos heq.symm]
    · have hno : ¬Fits n s := fun hfits => hfits.2.elim (by omega) (by omega)
      rw [if_neg (by omega), if_neg (by omega), if_neg hno, honward]

/-- The search finds the first segment that fits, if it gets through. -/
theorem search_eq {fuel : ℕ} {r : Heap × ℕ} (hc : h.Chain (pre ++ s :: post))
    (hr : search n fuel h s.addr = some r) :
    r = match (s :: post).find? (Fits n ·) with
      | some t => (h.take n t, t.addr)
      | none => (h, 0) := by
  -- along the chain: the segments before `s` have been looked at and do not matter any more
  induction fuel generalizing pre s post with
  | zero => cases hr
  | succ fuel ih =>
    rw [search_succ hc] at hr
    rw [List.find?_cons]
    by_cases hfits : Fits n s
    · rw [if_pos hfits] at hr
      simp only [hfits, decide_true]
      exact (Option.some.inj hr).symm
    · rw [if_neg hfits] at hr
      simp only [hfits, decide_false]
      cases post with
      | nil => exact (Option.some.inj hr).symm
      | cons u post =>
        rw [if_neg (by simp)] at hr
        exact ih hc.shift hr

theorem search_isSome {fuel : ℕ} (hc : h.Chain (pre ++ s :: post))
    (hfuel : (s :: post).length ≤ fuel) : (search n fuel h s.addr).isSome := by
  induction fuel generalizing pre s post with
  | zero => simp at hfuel
  | succ fuel ih =>
    rw [search_succ hc]
    split
    · rfl
    · cases post with
      | nil => rfl
      | cons u post =>
        rw [if_neg (by simp)]
        exact ih hc.shift (by simpa using hfuel)

/-- The search from the start of the heap, if it gets through. -/
theorem Chain.search_start_eq {fuel : ℕ} {r : Heap × ℕ} (hc : h.Chain segs)
    (hr : search n fuel h h.sHeapStart = some r) :
    r = match segs.find? (Fits n ·) with
      | some t => (h.take n t, t.addr)
      | none => (h, 0) := by
  obtain ⟨s, post, rfl⟩ := List.exists_cons_of_ne_nil hc.ne_nil
  have hc' : h.Chain ([] ++ s :: post) := hc
  have hstart : s.addr = h.sHeapStart := hc.tiles.1
  exact search_eq hc' (hstart ▸ hr)

/-- The search from the start of the heap, with enough fuel. -/
theorem Chain.search_start {fuel : ℕ} (hc : h.Chain segs) (hfuel : segs.length ≤ fuel) :
    search n fuel h h.sHeapStart = some (match segs.find? (Fits n ·) with
      | some t => (h.take n t, t.addr)
      | none => (h, 0)) := by
  obtain ⟨s, post, rfl⟩ := List.exists_cons_of_ne_nil hc.ne_nil
  have hc' : h.Chain ([] ++ s :: post) := hc
  have hstart : s.addr = h.sHeapStart := hc.tiles.1
  obtain ⟨r, hr⟩ := Option.isSome_iff_exists.mp (search_isSome (n := n) hc' hfuel)
  rw [hstart] at hr
  rw [hr, hc.search_start_eq hr]

theorem fits_of_find (hfind : segs.find? (Fits n ·) = some t) :
    Fits n t ∧ ∃ pre post, segs = pre ++ t :: post :=
  ⟨by simpa using List.find?_some hfind, List.append_of_mem (List.mem_of_find?_eq_some hfind)⟩

/-! ### `malloc` -/

theorem taken_eq (n : ℕ) (s : Segment) :
    ∃ rest, taken n s = ⟨s.addr, n, false⟩ :: rest := by
  rw [taken]
  split
  next heq => exact ⟨[], by rw [heq]⟩
  next => exact ⟨_, rfl⟩

theorem Chain.take (hc : h.Chain (pre ++ s :: post)) (hfits : Fits n s) :
    (h.take n s).Chain (pre ++ taken n s ++ post) ∧ SameArena h (h.take n s) := by
  rw [Heap.take, taken]
  split
  next heq =>
    rw [List.append_assoc]
    exact ⟨hc.setFree false, .setField h _ _ _⟩
  next hne =>
    obtain ⟨hn, hlen⟩ := hfits.2.resolve_left hne
    rw [List.append_assoc]
    exact ⟨(hc.split hn hlen).setFree false,
      (split_effect hc hn hlen).2.1.trans (.setField _ _ _ _)⟩

theorem Chain.keeps_take (hc : h.Chain (pre ++ s :: post)) (hfits : Fits n s) :
    Keeps h (pre ++ s :: post) (h.take n s) (pre ++ taken n s ++ post) := by
  refine ⟨fun t ht hused => ?_, fun t ht hused x hlo hhi => ?_⟩
  · have hne : t ≠ s := by
      rintro rfl
      exact absurd hused (by rw [hfits.1]; decide)
    simp only [List.mem_append, List.mem_cons] at ht ⊢
    tauto
  · rw [Heap.take]
    split
    next =>
      refine hc.bytes_of_writes (setFree_writes h s.addr false)
        (fun a ha => .inr (.inl ?_)) ht hused
        hlo hhi
      exact ⟨s, by simp, List.mem_singleton.mp ha⟩
    next hne =>
      obtain ⟨hn, hlen⟩ := hfits.2.resolve_left hne
      refine hc.bytes_of_writes ((split_effect hc hn hlen).1.trans
        ((setFree_writes _ s.addr false).mono (by simp))) (fun a ha => ?_) ht hused hlo hhi
      simp only [List.mem_cons, List.mem_map] at ha
      obtain rfl | rfl | ⟨u, hu, rfl⟩ := ha
      · exact .inr (.inl ⟨s, by simp, rfl⟩)
      · refine .inr (.inr ⟨s, by simp, hfits.1, by omega, ?_⟩)
        unfold Segment.stop
        omega
      · exact .inr (.inl ⟨u, by simp [List.mem_of_mem_take hu], rfl⟩)

theorem roundRequest_le (hn : n < 2 ^ 64) : roundRequest n = 0 ∨ n ≤ roundRequest n := by
  unfold roundRequest add64
  split <;> omega

theorem roundRequest_lt (hn : n < 2 ^ 64) : roundRequest n < 2 ^ 64 := by
  unfold roundRequest
  split
  · exact add64_lt _ _
  · exact hn

theorem Chain.not_fits_zero (hc : h.Chain segs) (hs : s ∈ segs) : ¬Fits 0 s := by
  have hlong := hc.long s hs
  exact fun hfits => hfits.2.elim (by omega) (by omega)

/-- Every `expand_heap` that `malloc(numBytes)` calls, down to the depth `fuel`, leaves the heap
below the top of the address space. -/
def StaysBelow : ℕ → Heap → ℕ → Prop
  | 0, _, _ => True
  | fuel + 1, h, numBytes =>
    numBytes ≠ 0 → ∀ r, search (roundRequest numBytes) fuel h h.sHeapStart = some r → r.2 = 0 →
      expandedEnd r.1 (roundRequest numBytes) < 2 ^ 64 ∧
        StaysBelow fuel (r.1.expandHeap (roundRequest numBytes)) (roundRequest numBytes)

/-- What `malloc(n)`, which has led from `h` to `h'`, has done to a chain: it has kept what is in
use, and a pointer it returns is the payload of a segment of at least `n` bytes that was not. -/
structure Allocates (h : Heap) (segs : List Segment) (n : ℕ) (h' : Heap) (p : ℕ)
    (segs' : List Segment) : Prop where
  chain : h'.Chain segs'
  start : h'.sHeapStart = h.sHeapStart
  keeps : Keeps h segs h' segs'
  block : p ≠ 0 → ∃ s ∈ segs', s.free = false ∧ p = s.addr + headerSize ∧ n ≤ s.length ∧
    ∀ t ∈ segs, t.free = false → t.addr ≠ s.addr

/-- `malloc` hands out a segment that fits. -/
theorem Chain.allocates_take {m : ℕ} (hc : h.Chain segs) (ht : t ∈ segs) (hfits : Fits m t)
    (hnm : m = 0 ∨ n ≤ m) :
    ∃ segs', Allocates h segs n (h.take m t) (add64 t.addr headerSize) segs' := by
  obtain ⟨pre, post, rfl⟩ := List.append_of_mem ht
  obtain ⟨rest, htaken⟩ := taken_eq m t
  have hstop := hc.stop_lt ht
  have hle : n ≤ m := hnm.resolve_left fun h0 => hc.not_fits_zero ht (h0 ▸ hfits)
  refine ⟨_, (hc.take hfits).1, (hc.take hfits).2.start, hc.keeps_take hfits, fun _ => ?_⟩
  refine ⟨⟨t.addr, m, false⟩, by simp [htaken], rfl, add64_of_lt (by omega), hle, ?_⟩
  intro u hu hused haddr
  obtain rfl := hc.tiles.eq_of_addr_eq (by decide) hu ht haddr
  exact absurd hused (by rw [hfits.1]; decide)

/-- One level of `malloc`: it takes the first segment that fits, or expands the heap and starts
over. -/
theorem Chain.malloc_cases {fuel p : ℕ} (hc : h.Chain segs) (hn : n ≠ 0)
    (hm : h.malloc false (fuel + 1) n = some (h', p)) :
    (∃ t, segs.find? (Fits (roundRequest n) ·) = some t ∧
      h' = h.take (roundRequest n) t ∧ p = add64 t.addr headerSize) ∨
    search (roundRequest n) fuel h h.sHeapStart = some (h, 0) ∧
      (h.expandHeap (roundRequest n)).malloc false fuel (roundRequest n) = some (h', p) := by
  rw [malloc, if_neg hn] at hm
  obtain ⟨⟨g, segment⟩, hsearch, hm⟩ := Option.bind_eq_some_iff.mp hm
  have hr := hc.search_start_eq hsearch
  cases hfind : segs.find? (Fits (roundRequest n) ·) with
  | none =>
    rw [hfind] at hr
    obtain ⟨rfl, rfl⟩ := Prod.mk.inj hr
    exact .inr ⟨hsearch, hm⟩
  | some t =>
    rw [hfind] at hr
    obtain ⟨rfl, rfl⟩ := Prod.mk.inj hr
    have hpos := hc.addr_pos (List.mem_of_find?_eq_some hfind)
    simp only [if_neg (Nat.ne_of_gt hpos)] at hm
    obtain ⟨rfl, rfl⟩ := Prod.mk.inj (Option.some.inj hm)
    exact .inl ⟨t, rfl, rfl, rfl⟩

theorem malloc_zero {fuel p : ℕ} (hm : h.malloc false fuel 0 = some (h', p)) : h' = h ∧ p = 0 := by
  cases fuel with
  | zero => cases hm
  | succ fuel =>
    rw [Heap.malloc, if_pos rfl] at hm
    obtain ⟨rfl, rfl⟩ := Prod.mk.inj (Option.some.inj hm)
    exact ⟨rfl, rfl⟩

/-- **`malloc` on the list of segments**: induction on the depth of its calls, each of which expands
the heap before the next. -/
theorem Chain.malloc {fuel p : ℕ} (hc : h.Chain segs) (hn : n < 2 ^ 64)
    (hbelow : StaysBelow fuel h n) (hm : h.malloc false fuel n = some (h', p)) :
    ∃ segs', Allocates h segs n h' p segs' := by
  induction fuel generalizing h segs n with
  | zero => cases hm
  | succ fuel ih =>
    by_cases hzero : n = 0
    · subst hzero
      obtain ⟨rfl, rfl⟩ := malloc_zero hm
      exact ⟨segs, hc, rfl, .refl _ segs, fun hne => absurd rfl hne⟩
    · obtain ⟨t, hfind, rfl, rfl⟩ | ⟨hsearch, hm⟩ := hc.malloc_cases hzero hm
      · exact hc.allocates_take (List.mem_of_find?_eq_some hfind) (fits_of_find hfind).1
          (roundRequest_le hn)
      · -- nothing fits: what the inner call promises for the longer chain, it promises for this one
        obtain ⟨hfit, hbelow⟩ := hbelow hzero _ hsearch rfl
        obtain ⟨segs', halloc⟩ := ih (hc.expandHeap hfit) (roundRequest_lt hn) hbelow hm
        have hkeeps := hc.keeps_expandHeap hfit
        refine ⟨segs', halloc.chain, halloc.start.trans (expandHeap_bounds hc hfit).1,
          hkeeps.trans halloc.keeps, fun hp => ?_⟩
        obtain ⟨s, hs, hused, rfl, hlen, hfresh⟩ := halloc.block hp
        refine ⟨s, hs, hused, rfl, ?_, fun t ht hused =>
          hfresh t (hkeeps.segments t ht hused) hused⟩
        obtain h0 | hle := roundRequest_le hn
        · -- a request within 7 bytes of `2 ^ 64` is rounded to zero, and `malloc(0)` returns null
          rw [h0] at hm
          exact absurd (malloc_zero hm).2 hp
        · exact hle.trans hlen

/-- When a segment fits, `malloc` takes the first one and returns, without expanding the heap. -/
theorem Chain.malloc_of_find {fuel : ℕ} (hc : h.Chain segs) (hn : n ≠ 0)
    (hfuel : segs.length ≤ fuel)
    (hfind : segs.find? (Fits (roundRequest n) ·) = some t) :
    h.malloc false (fuel + 1) n =
        some (h.take (roundRequest n) t, add64 t.addr headerSize) ∧ StaysBelow (fuel + 1) h n := by
  have hpos := hc.addr_pos (List.mem_of_find?_eq_some hfind)
  have hr := hc.search_start (n := roundRequest n) hfuel
  rw [hfind] at hr
  refine ⟨?_, fun _ r hr' h0 => ?_⟩
  · rw [Heap.malloc, if_neg hn]
    simp only [hr, Option.bind_eq_bind, Option.bind_some, if_neg (Nat.ne_of_gt hpos)]
    rfl
  · rw [hr] at hr'
    obtain rfl := Option.some.inj hr'
    exact absurd h0 (Nat.ne_of_gt hpos)

end Heap

end Eterna
