import Eterna.Memory.HeapFit

/-!
# The star chart of the heap

`heap_print_debug_starchart` sizes its buffer by the heap as it is before the buffer is allocated,
and draws one character for every 64 bytes of the heap as it is afterwards.

* `Chart.Counts` : the characters drawn and the two leftovers add up to the bytes of the segments
  that have been passed;
* `chartLoop_spec` : so the loop comes to its end, after as many characters as the heap has room
  for, or as soon as the buffer is full;
* `starchart_fits_iff` : the drawing stays in the buffer and is terminated exactly if the buffer's
  allocation does not expand the heap.
-/

namespace Eterna

open ByteMemory SegmentChain

namespace Heap

variable {h h' g : Heap} {segs pre post : List Segment} {s t : Segment} {out T k n : ℕ} {c : Chart}

/-! ### The buffer -/

/-- What is in the buffer of `T` bytes at `out` after `k` characters have been drawn. -/
structure Drawn (g : Heap) (out T : ℕ) (h : Heap) (k : ℕ) : Prop where
  arena : SameArena g h
  lastHeader : h.sLastHeader = g.sLastHeader
  outside : ∀ x, x < out ∨ out + max T k ≤ x → h.mem x = g.mem x
  chars : ∀ x, out ≤ x → x < out + k → h.mem x ≠ 0
  rest : ∀ x, out + k ≤ x → x < out + T → h.mem x = 0

theorem Drawn.init (g : Heap) (out T : ℕ) : Drawn g out T (g.memset out 0 T) 0 where
  arena := ⟨rfl, rfl, rfl⟩
  lastHeader := rfl
  outside x hx := fill_of_notMem (by omega)
  chars x hlo hhi := absurd hhi (by omega)
  rest x hlo hhi := if_pos ⟨by omega, hhi⟩

theorem Drawn.memset (hd : Drawn g out T h k) {b : UInt8} (hb : b ≠ 0) (n : ℕ) :
    Drawn g out T (h.memset (out + k) b n) (k + n) where
  arena := hd.arena.trans ⟨rfl, rfl, rfl⟩
  lastHeader := hd.lastHeader
  outside x hx := (fill_of_notMem (by omega)).trans (hd.outside x (by omega))
  chars x hlo hhi := by
    by_cases hx : out + k ≤ x
    · exact ne_of_eq_of_ne (if_pos ⟨hx, by omega⟩) hb
    · exact ne_of_eq_of_ne (fill_of_notMem (by omega)) (hd.chars x hlo (by omega))
  rest x hlo hhi := (fill_of_notMem (by omega)).trans (hd.rest x (by omega) hhi)

theorem Drawn.header_eq (hd : Drawn g out T h k) (hk : k ≤ T) {a : ℕ}
    (hapart : a + headerSize ≤ out ∨ out + T ≤ a) : h.header a = g.header a := by
  have hfield : ∀ f, h.field f a = g.field f a := fun f => by
    refine load_congr fun i hi => hd.outside _ ?_
    have hin : f.offset + i < headerSize := by
      cases f <;> simp only [HeaderField.bytes, HeaderField.offset, headerSize] at hi ⊢ <;> omega
    omega
  simp only [header, last, next, length, isFree, hfield]

theorem Drawn.chain (hd : Drawn g out T h k) (hk : k ≤ T) (hg : g.Chain segs)
    (hbuffer : ∀ u ∈ segs, u.addr + headerSize ≤ out ∨ out + T ≤ u.addr) : h.Chain segs where
  linked := hg.linked.congr fun u hu => hd.header_eq hk (hbuffer u hu)
  tiles := by
    rw [hd.arena.start, hd.arena.stop]
    exact hg.tiles
  ne_nil := hg.ne_nil
  last_eq := hd.lastHeader.trans hg.last_eq
  start_pos := hd.arena.start ▸ hg.start_pos
  end_lt := hd.arena.stop ▸ hg.end_lt
  long := hg.long

theorem segmentCharacter_ne_zero (free : Bool) : segmentCharacter free ≠ 0 := by
  cases free <;> decide

/-! ### The loop -/

/-- The characters that have been drawn and what is left over stand for `b` bytes. -/
structure Chart.Counts (c : Chart) (b : ℕ) : Prop where
  free_le : c.freeLeftover ≤ 64
  used_le : c.usedLeftover ≤ 64
  sum : 64 * c.offset + c.freeLeftover + c.usedLeftover = b

theorem Chart.Counts.replace {b delta offset x : ℕ} (hc : c.Counts b) (free : Bool) (hx : x ≤ 64)
    (hsum : 64 * offset + x =
      64 * c.offset + (if free then c.freeLeftover else c.usedLeftover) + delta) :
    (if free then (⟨x, c.usedLeftover, offset⟩ : Chart)
      else ⟨c.freeLeftover, x, offset⟩).Counts (b + delta) := by
  obtain ⟨hfree, hused, rfl⟩ := hc
  cases free with
  | true =>
    rw [if_pos rfl] at hsum ⊢
    exact ⟨hx, hused, by dsimp only; omega⟩
  | false =>
    rw [if_neg Bool.false_ne_true] at hsum ⊢
    exact ⟨hfree, hx, by dsimp only; omega⟩

theorem chartLeftover_spec (hd : Drawn g out T h c.offset) {b delta : ℕ} (hc : c.Counts b)
    (hb : b < 2 ^ 64) (hdelta : delta < 64) (free : Bool) :
    ∃ j ≤ 1, Drawn g out T (h.chartLeftover out c free delta).1 (c.offset + j) ∧
      (h.chartLeftover out c free delta).2.offset = c.offset + j ∧
      (h.chartLeftover out c free delta).2.Counts (b + delta) := by
  have hsum := hc.sum
  have hadd : ∀ l ≤ 64, add64 l delta = l + delta := fun l hl => add64_of_lt (by omega)
  have hoffset : add64 c.offset 1 = c.offset + 1 := add64_of_lt (by omega)
  have hle : (if free then c.freeLeftover else c.usedLeftover) ≤ 64 := by
    split
    · exact hc.free_le
    · exact hc.used_le
  have hreplace : ∀ x offset, x ≤ 64 → 64 * offset + x =
      64 * c.offset + (if free then c.freeLeftover else c.usedLeftover) + delta →
      (if free then (⟨x, c.usedLeftover, offset⟩ : Chart)
        else ⟨c.freeLeftover, x, offset⟩).Counts (b + delta) := fun _ _ => hc.replace free
  have hgranularity : characterGranularity = 64 := rfl
  rw [chartLeftover, hadd _ hle]
  generalize (if free then c.freeLeftover else c.usedLeftover) = l at hle hreplace ⊢
  -- a character is drawn for 64 bytes of the leftover when there are more
  by_cases hfull : characterGranularity < l + delta
  · have hsub : sub64 (l + delta) characterGranularity = l + delta - characterGranularity :=
      sub64_of_le hfull.le (by omega)
    simp only [decide_eq_true hfull, if_true, hoffset, hsub]
    refine ⟨1, le_rfl, hd.memset (segmentCharacter_ne_zero free) 1, ?_, ?_⟩
    · cases free <;> rfl
    · exact hreplace _ _ (by omega) (by omega)
  · simp only [decide_eq_false hfull, Bool.false_eq_true, if_false]
    refine ⟨0, Nat.zero_le 1, hd, ?_, ?_⟩
    · cases free <;> rfl
    · exact hreplace _ _ (by omega) (by omega)

/-- The body of the loop. -/
def chartStep (out : ℕ) (h : Heap) (c : Chart) (it : ℕ) : Heap × Chart :=
  let segmentSize := add64 (h.length it) headerSize
  let r := h.chartLeftover out c (h.isFree it) (segmentSize % characterGranularity)
  (r.1.memset (out + r.2.offset) (segmentCharacter (r.1.isFree it))
      (segmentSize / characterGranularity),
    { r.2 with offset := add64 r.2.offset (segmentSize / characterGranularity) })

theorem chartLoop_succ (fuel it : ℕ) : chartLoop out T (fuel + 1) h c it =
    if T ≤ c.offset then some h
    else if (chartStep out h c it).1.next it = 0 then some (chartStep out h c it).1
    else chartLoop out T fuel (chartStep out h c it).1 (chartStep out h c it).2
      ((chartStep out h c it).1.next it) := rfl

theorem chartLoop_of_full (hfull : T ≤ c.offset) {fuel : ℕ} (hfuel : 0 < fuel) (it : ℕ) :
    chartLoop out T fuel h c it = some h := by
  obtain ⟨fuel, rfl⟩ := Nat.exists_eq_succ_of_ne_zero (Nat.ne_of_gt hfuel)
  rw [chartLoop_succ, if_pos hfull]

theorem chartStep_spec (hd : Drawn g out T h c.offset) {b : ℕ} (hc : c.Counts b)
    (hlength : h.length s.addr = s.length) (hlt : b + headerSize + s.length < 2 ^ 64) :
    Drawn g out T (chartStep out h c s.addr).1 (chartStep out h c s.addr).2.offset ∧
      (chartStep out h c s.addr).2.Counts (b + headerSize + s.length) := by
  have hsize : add64 s.length headerSize = s.length + headerSize := add64_of_lt (by omega)
  obtain ⟨j, -, hd', hoffset, hfree, hused, hsum⟩ := chartLeftover_spec hd hc (by omega)
    (Nat.mod_lt (s.length + headerSize) (by decide : 0 < 64)) (h.isFree s.addr)
  have hadd : add64 (c.offset + j) ((s.length + headerSize) / 64) =
      c.offset + j + (s.length + headerSize) / 64 := add64_of_lt (by omega)
  simp only [chartStep, characterGranularity, hlength, hsize, hoffset, hadd]
  refine ⟨hd'.memset (segmentCharacter_ne_zero _) _, hfree, hused, ?_⟩
  dsimp only
  omega

/-- One turn of the loop: the buffer is full, or the next segment follows. -/
theorem chartLoop_turn (hg : g.Chain (pre ++ s :: post))
    (hbuffer : s.addr + headerSize ≤ out ∨ out + T ≤ s.addr) {fuel : ℕ} (hfuel : 0 < fuel)
    (hd : Drawn g out T h c.offset) (hc : c.Counts (s.addr - g.sHeapStart)) :
    (∃ h' k, chartLoop out T (fuel + 1) h c s.addr = some h' ∧ Drawn g out T h' k ∧
      64 * k ≤ g.sHeapEnd - g.sHeapStart ∧ T ≤ k) ∨
    ∃ h' c', chartLoop out T (fuel + 1) h c s.addr =
        (if headAddr post 0 = 0 then some h' else chartLoop out T fuel h' c' (headAddr post 0)) ∧
      Drawn g out T h' c'.offset ∧
        c'.Counts (s.addr + headerSize + s.length - g.sHeapStart) := by
  have hmem : s ∈ pre ++ s :: post := by simp
  obtain ⟨hlo, hhi⟩ := hg.tiles.mem_le hmem
  have hend := hg.end_lt
  by_cases hfull : T ≤ c.offset
  · have hsum := hc.sum
    exact .inl ⟨h, c.offset, chartLoop_of_full hfull (by omega) _, hd, by omega, hfull⟩
  -- the header has not been drawn over
  have hheader := hd.header_eq (by omega) hbuffer
  have hlength : h.length s.addr = s.length := by
    rw [← header_length, hheader, hg.header_eq]
  obtain ⟨hd', hc'⟩ := chartStep_spec hd hc hlength (by omega)
  rw [chartLoop_succ, if_neg hfull]
  generalize chartStep out h c s.addr = r at hd' hc' ⊢
  obtain ⟨h', c'⟩ := r
  dsimp only at hd' hc' ⊢
  by_cases hfull' : T ≤ c'.offset
  · -- whatever has been drawn over, the loop stops
    have hsum := hc'.sum
    refine .inl ⟨h', c'.offset, ?_, hd', by omega, hfull'⟩
    split
    · rfl
    · exact chartLoop_of_full hfull' hfuel _
  · have hnext : h'.next s.addr = headAddr post 0 := by
      rw [← header_next, hd'.header_eq (by omega) hbuffer, hg.header_eq]
    refine .inr ⟨h', c', by rw [hnext], hd', ?_⟩
    rw [show s.addr + headerSize + s.length - g.sHeapStart =
      s.addr - g.sHeapStart + headerSize + s.length by omega]
    exact hc'

/-- **The loop draws one character for every 64 bytes** of the heap, and up to 128 bytes are left
over; or it fills the buffer and stops. -/
theorem chartLoop_spec (hg : g.Chain (pre ++ s :: post))
    (hbuffer : ∀ u ∈ pre ++ s :: post, u.addr + headerSize ≤ out ∨ out + T ≤ u.addr) {fuel : ℕ}
    (hfuel : post.length + 1 < fuel) (hd : Drawn g out T h c.offset)
    (hc : c.Counts (s.addr - g.sHeapStart)) :
    ∃ h' k, chartLoop out T fuel h c s.addr = some h' ∧ Drawn g out T h' k ∧
      64 * k ≤ g.sHeapEnd - g.sHeapStart ∧
        (T ≤ k ∨ g.sHeapEnd - g.sHeapStart ≤ 64 * k + 128) := by
  induction post generalizing pre s h c fuel with
  | nil =>
    obtain ⟨fuel, rfl⟩ : ∃ k, fuel = k + 1 := ⟨fuel - 1, by omega⟩
    have hfuel' : 0 < fuel := by simpa using hfuel
    obtain ⟨h', k, hloop, hd', hk, hfull⟩ | ⟨h', c', hloop, hd', hc'⟩ :=
      chartLoop_turn hg (hbuffer s (by simp)) hfuel' hd hc
    · exact ⟨h', k, hloop, hd', hk, .inl hfull⟩
    · have hstop : s.addr + headerSize + s.length = g.sHeapEnd := hg.tiles.around.2
      obtain ⟨hfree, hused, hsum⟩ := hc'
      exact ⟨h', c'.offset, hloop.trans (if_pos rfl), hd', by omega, .inr (by omega)⟩
  | cons t post ih =>
    rw [List.length_cons] at hfuel
    obtain ⟨fuel, rfl⟩ : ∃ k, fuel = k + 1 := ⟨fuel - 1, by omega⟩
    have hfuel' : 0 < fuel := by omega
    obtain ⟨h', k, hloop, hd', hk, hfull⟩ | ⟨h', c', hloop, hd', hc'⟩ :=
      chartLoop_turn hg (hbuffer s (by simp)) hfuel' hd hc
    · exact ⟨h', k, hloop, hd', hk, .inl hfull⟩
    · have hnext : t.addr = s.addr + headerSize + s.length := hg.tiles.around.2.1
      have hpos := hg.addr_pos (s := t) (by simp)
      rw [headAddr_cons, if_neg (Nat.ne_of_gt hpos)] at hloop
      rw [hloop]
      rw [← hnext] at hc'
      have hg' : g.Chain ((pre ++ [s]) ++ t :: post) := by simpa using hg
      exact ih hg' (by simpa using hbuffer) (by omega) hd' hc'

/-! ### The drawing -/

/-- `totalChars`, the size of the buffer. -/
def totalChars (h : Heap) : ℕ := sub64 h.sHeapEnd h.sHeapStart / characterGranularity + 1

/-- The star chart is drawn into the buffer at `out`. -/
def drawChart (g : Heap) (out totalChars fuel : ℕ) : Option Heap :=
  chartLoop out totalChars fuel (g.memset out 0 totalChars) ⟨0, 0, 0⟩ g.sHeapStart

theorem starchart_eq (new : Heap → ℕ → Option (Heap × ℕ)) (fuel : ℕ) (h : Heap) :
    h.starchart new fuel = (new h h.totalChars).bind fun r =>
      (r.1.drawChart r.2 h.totalChars fuel).bind fun h' =>
        (h'.strlen fuel r.2).bind fun length =>
          (new h' (add64 (sub64 length 1) 1)).bind fun b =>
            some ((b.1.memcpy r.2 b.2 (add64 (sub64 length 1) 1)).free b.2) := rfl

theorem Chain.totalChars_eq (hc : h.Chain segs) :
    h.totalChars = (h.sHeapEnd - h.sHeapStart) / 64 + 1 := by
  rw [totalChars, sub64_of_le hc.start_lt.le hc.end_lt]
  rfl

/-- What `malloc(n)` returns lies apart from the headers. -/
theorem Chain.malloc_buffer (hc : h.Chain segs) (hn : n ≠ 0) (hle : n ≤ 2 ^ 64 - 8) {fuel : ℕ}
    (hbelow : StaysBelow fuel h n) (hm : h.malloc false fuel n = some (g, out)) :
    ∃ gs, g.Chain gs ∧ (∀ u ∈ gs, u.addr + headerSize ≤ out ∨ out + n ≤ u.addr) ∧
      g.sHeapStart = h.sHeapStart ∧
      (expansions fuel h n = [] → g.sHeapEnd = h.sHeapEnd) ∧
      h.sHeapEnd + (expansions fuel h n).length * pageSize ≤ g.sHeapEnd := by
  obtain ⟨hround, hpos, -⟩ := roundRequest_spec hn hle
  obtain ⟨gs, hgrows, ⟨hzero, -⟩ | ⟨t, hfind, rfl, rfl⟩⟩ := hc.malloc_expansions hn hbelow hm
  · omega
  obtain ⟨hstart, hend⟩ := hgrows.bounds hc
  have hg := hgrows.chain hc
  obtain ⟨pre, post, rfl⟩ := List.append_of_mem (List.mem_of_find?_eq_some hfind)
  obtain ⟨hc', hsame⟩ := hg.take (fits_of_find hfind).1
  refine ⟨_, hc', fun u hu => ?_, hsame.start.trans hstart, fun hnone => ?_, ?_⟩
  · obtain ⟨rest, htaken⟩ := taken_eq (roundRequest n) t
    have hmem : ⟨t.addr, roundRequest n, false⟩ ∈ pre ++ taken (roundRequest n) t ++ post := by
      simp [htaken]
    rw [(hg.payload_ne_zero (List.mem_of_find?_eq_some hfind)).1]
    obtain rfl | hapart := hc'.tiles.eq_or_apart hmem hu
    · exact .inl le_rfl
    · dsimp only at hapart
      omega
  · rw [hsame.stop, hnone, expandedBy_nil]
  · rw [hsame.stop]
    exact hend

theorem drawChart_spec {gs : List Segment} (hg : g.Chain gs)
    (hbuffer : ∀ u ∈ gs, u.addr + headerSize ≤ out ∨ out + T ≤ u.addr) :
    ∃ h' k, g.drawChart out T (gs.length + 1) = some h' ∧ Drawn g out T h' k ∧
      64 * k ≤ g.sHeapEnd - g.sHeapStart ∧
        (T ≤ k ∨ g.sHeapEnd - g.sHeapStart ≤ 64 * k + 128) := by
  obtain ⟨s, post, rfl⟩ := List.exists_cons_of_ne_nil hg.ne_nil
  have hstart : g.sHeapStart = s.addr := hg.tiles.1.symm
  have hcounts : Chart.Counts ⟨0, 0, 0⟩ (s.addr - g.sHeapStart) :=
    ⟨Nat.zero_le _, Nat.zero_le _, by rw [hstart, Nat.sub_self]; rfl⟩
  have hchain : g.Chain ([] ++ s :: post) := hg
  have hdraw : ∀ fuel, g.drawChart out T fuel =
      chartLoop out T fuel (g.memset out 0 T) ⟨0, 0, 0⟩ s.addr := fun fuel => by
    rw [drawChart, hstart]
  rw [hdraw, List.length_cons]
  exact chartLoop_spec hchain hbuffer (Nat.lt_succ_self _) (Drawn.init g out T) hcounts

theorem strlen_le (h : Heap) {a n : ℕ} (hzero : h.mem (a + n) = 0) (hn : n < 2 ^ 63) :
    ∃ fuel k, h.strlen fuel a = some k ∧ 0 < k ∧ k ≤ n + 1 := by
  induction n generalizing a with
  | zero => exact ⟨1, 1, if_pos hzero, Nat.one_pos, le_rfl⟩
  | succ n ih =>
    rw [show a + (n + 1) = a + 1 + n by omega] at hzero
    obtain ⟨fuel, k, hk, hpos, hle⟩ := ih hzero (by omega)
    by_cases ha : h.mem a = 0
    · exact ⟨1, 1, if_pos ha, Nat.one_pos, by omega⟩
    · refine ⟨fuel + 1, k + 1, ?_, Nat.succ_pos k, by omega⟩
      rw [strlen, if_neg ha, hk, Option.map_some, add64_of_lt (by omega)]

/-- The drawing is made, and whenever it is, only bytes of the buffer are written, the last of which
stays 0; so what is read from it as a string ends in the buffer, and the headers stay. -/
structure ChartFits (h : Heap) : Prop where
  returns : ∃ fuel g out h', h.malloc false fuel h.totalChars = some (g, out) ∧
    g.drawChart out h.totalChars fuel = some h'
  inside : ∀ fuel g out h', h.malloc false fuel h.totalChars = some (g, out) →
    (∃ fuel', g.drawChart out h.totalChars fuel' = some h') →
    (∀ x, x < out ∨ out + h.totalChars ≤ x → h'.mem x = g.mem x) ∧
    h'.mem (out + (h.totalChars - 1)) = 0 ∧
    (∃ fuel' k, h'.strlen fuel' out = some k ∧ k ≤ h.totalChars) ∧
    ∃ gs, g.Chain gs ∧ h'.Chain gs

theorem drawChart_eq {j k : ℕ} {h₁ h₂ : Heap} (h₁' : g.drawChart out T j = some h₁)
    (h₂' : g.drawChart out T k = some h₂) : h₁ = h₂ :=
  Fuel.eq_of_improves (f := fun fuel => g.drawChart out T fuel)
    (fun fuel => chartLoop_improves out T fuel _ _ _) h₁' h₂'

theorem Chain.expansions_ne_nil (hc : h.Chain segs) (hn : n ≠ 0)
    (hfind : segs.find? (Fits (roundRequest n) ·) = none) {fuel p : ℕ}
    (hm : h.malloc false fuel n = some (g, p)) : expansions fuel h n ≠ [] := by
  cases fuel with
  | zero => cases hm
  | succ fuel =>
    obtain ⟨t, ht, -⟩ | ⟨hsearch, -⟩ := hc.malloc_cases hn hm
    · rw [hfind] at ht
      cases ht
    · rw [expansions, if_neg hn, hsearch]
      exact List.cons_ne_nil _ _

/-- Allocating the buffer and drawing, with `j` expansions of the heap. -/
theorem Chain.chart_spec (hc : h.Chain segs) (hbelow : ∀ fuel, StaysBelow fuel h h.totalChars)
    {fuel : ℕ} (hm : h.malloc false fuel h.totalChars = some (g, out)) :
    ∃ gs h' k, g.Chain gs ∧ (∀ u ∈ gs, u.addr + headerSize ≤ out ∨ out + h.totalChars ≤ u.addr) ∧
      g.drawChart out h.totalChars (gs.length + 1) = some h' ∧
      Drawn g out h.totalChars h' k ∧
      (expansions fuel h h.totalChars = [] → k < h.totalChars) ∧
      (expansions fuel h h.totalChars ≠ [] → h.totalChars ≤ k) := by
  have hT := hc.totalChars_eq
  have hlt := hc.start_lt
  have hend := hc.end_lt
  obtain ⟨gs, hg, hbuffer, hstart, hsame, hgrown⟩ :=
    hc.malloc_buffer (by omega) (by omega) (hbelow fuel) hm
  obtain ⟨h', k, hdraw, hd, hk, hlong⟩ := drawChart_spec hg hbuffer
  refine ⟨gs, h', k, hg, hbuffer, hdraw, hd, fun hnone => ?_, fun hsome => ?_⟩
  · rw [hsame hnone, hstart] at hk
    omega
  · -- the heap has grown by more than the leftovers
    have hcount := List.length_pos_iff.mpr hsome
    rw [hstart] at hlong
    unfold pageSize at hgrown
    omega

theorem Chain.not_chartFits (hc : h.Chain segs) (hbelow : ∀ fuel, StaysBelow fuel h h.totalChars)
    (hnone : ∀ s ∈ segs, ¬ Fits (roundRequest h.totalChars) s) : ¬ h.ChartFits := by
  intro hchart
  have hT := hc.totalChars_eq
  have hfind : segs.find? (Fits (roundRequest h.totalChars) ·) = none :=
    List.find?_eq_none.mpr fun s hs hfits => hnone s hs (of_decide_eq_true hfits)
  obtain ⟨fuel, g, out, h', hm, hdraw'⟩ := hchart.returns
  obtain ⟨gs, h'', k, -, -, hdraw, hd, -, hk⟩ := hc.chart_spec hbelow hm
  obtain rfl := drawChart_eq hdraw hdraw'
  have hlast := (hchart.inside fuel g out h'' hm ⟨_, hdraw⟩).2.1
  have hfull := hk (hc.expansions_ne_nil (by omega) hfind hm)
  exact hd.chars (out + (h.totalChars - 1)) (by omega) (by omega) hlast

theorem exists_find (hs : s ∈ segs) (hfits : Fits n s) :
    ∃ t, segs.find? (Fits n ·) = some t :=
  Option.isSome_iff_exists.mp (List.find?_isSome.mpr ⟨s, hs, decide_eq_true hfits⟩)

theorem Chain.staysBelow_of_find (hc : h.Chain segs) (hn : n ≠ 0)
    (hfind : segs.find? (Fits (roundRequest n) ·) = some t) (fuel : ℕ) : StaysBelow fuel h n :=
  (hc.malloc_of_find hn (le_max_left segs.length fuel) hfind).2.mono
    ((le_max_right _ _).trans (Nat.le_succ _))

theorem Chain.chart_inside (hc : h.Chain segs)
    (hfind : segs.find? (Fits (roundRequest h.totalChars) ·) = some t) {fuel : ℕ}
    (hm : h.malloc false fuel h.totalChars = some (g, out)) :
    ∃ gs h' k, g.drawChart out h.totalChars (gs.length + 1) = some h' ∧
      Drawn g out h.totalChars h' k ∧ k < h.totalChars ∧ g.Chain gs ∧ h'.Chain gs := by
  have hT := hc.totalChars_eq
  have hbelow := hc.staysBelow_of_find (by omega) hfind
  obtain ⟨gs, h', k, hg, hbuffer, hdraw, hd, hk, -⟩ := hc.chart_spec hbelow hm
  have hlt := hk (expansions_of_find hc rfl hfind)
  exact ⟨gs, h', k, hdraw, hd, hlt, hg, hd.chain hlt.le hg hbuffer⟩

end Heap

open Heap

/-- **The star chart stays in its buffer exactly if** some segment fits the buffer, so that its
allocation does not expand the heap.  If it does, the last byte of the buffer is drawn over. -/
theorem starchart_fits_iff {h : Heap} {segs : List Segment} (hc : h.Chain segs) :
    ((∃ s ∈ segs, Fits (roundRequest h.totalChars) s) → h.ChartFits) ∧
      ((∀ fuel, StaysBelow fuel h h.totalChars) →
        (h.ChartFits ↔ ∃ s ∈ segs, Fits (roundRequest h.totalChars) s)) := by
  have hT := hc.totalChars_eq
  have hend := hc.end_lt
  have hfits : (∃ s ∈ segs, Fits (roundRequest h.totalChars) s) → h.ChartFits := by
    rintro ⟨s, hs, hsfits⟩
    obtain ⟨t, hfind⟩ := exists_find hs hsfits
    constructor
    · have hm := (hc.malloc_of_find (n := h.totalChars) (by omega) le_rfl hfind).1
      obtain ⟨gs, h', k, hdraw, -⟩ := hc.chart_inside hfind hm
      have hm' := Fuel.improves_of_le (fun fuel => malloc_improves false fuel _ _)
        (Nat.succ_le_succ (le_max_left segs.length gs.length)) _ hm
      refine ⟨max segs.length gs.length + 1, _, _, h', hm', ?_⟩
      exact Fuel.improves_of_le (fun fuel => chartLoop_improves _ _ fuel _ _ _)
        (Nat.succ_le_succ (le_max_right _ _)) _ hdraw
    · rintro fuel g out h' hm ⟨fuel', hdraw'⟩
      obtain ⟨gs, h'', k, hdraw, hd, hlt, hchains⟩ := hc.chart_inside hfind hm
      obtain rfl := drawChart_eq hdraw hdraw'
      have hlast := hd.rest (out + (h.totalChars - 1)) (by omega) (by omega)
      obtain ⟨fuel, n, hn, -, hle⟩ := h''.strlen_le hlast (by omega)
      exact ⟨fun x hx => hd.outside x (by omega), hlast, ⟨fuel, n, hn, by omega⟩, gs, hchains⟩
  refine ⟨hfits, fun hbelow => ⟨fun hchart => ?_, hfits⟩⟩
  by_contra hnone
  exact hc.not_chartFits hbelow (fun s hs hsfits => hnone ⟨s, hs, hsfits⟩) hchart

theorem Heap.totalChars_first : Heap.unset.initHeap.totalChars = 65 := by
  rw [Heap.unset.initHeap_chain.totalChars_eq, initHeap_sHeapEnd]
  rfl

theorem starchart_fits_iff_first : Heap.unset.initHeap.ChartFits := by
  refine (starchart_fits_iff Heap.unset.initHeap_chain).1 ⟨firstSegment, by simp, ?_⟩
  rw [totalChars_first]
  decide

/-- After `malloc(4032)`, the buffer of the star chart expands the heap, and its last byte is drawn
over. -/
theorem starchart_not_terminated : ¬ ∀ (h : Heap) (segs : List Segment), h.Chain segs →
    (∀ fuel, StaysBelow fuel h h.totalChars) → h.ChartFits := by
  intro hclaim
  have hfirst : Heap.unset.initHeap.Chain ([] ++ firstSegment :: []) := Heap.unset.initHeap_chain
  obtain ⟨hc, hsame⟩ := hfirst.take (n := 4032) (by decide)
  have htaken : [] ++ taken 4032 firstSegment ++ [] =
    [⟨heapVirtualBase, 4032, false⟩, ⟨heapVirtualBase + headerSize + 4032, 14, true⟩] := by decide
  rw [htaken] at hc
  generalize Heap.unset.initHeap.take 4032 firstSegment = h at hc hsame
  have hend : h.sHeapEnd = heapVirtualBase + pageSize := hsame.stop
  have hT : h.totalChars = 65 := by
    rw [hc.totalChars_eq, hend, hsame.start]
    rfl
  have hroom : h.Room h.totalChars := by
    rw [hT]
    refine .inr ⟨by decide, _, hc, ?_⟩
    rw [hend]
    decide
  have hbelow := fun fuel => ((hc.neverWraps_iff hsame.start.ge
    (by rw [hT]; decide)).mpr hroom).staysBelow fuel
  refine hc.not_chartFits hbelow ?_ (hclaim h _ hc hbelow)
  rw [hT]
  decide

end Eterna
