import Eterna.Library.MaximalRuns
import Eterna.Memory.HeapReport

/-!
# The summed report

What `heap_print_debug_summed` prints for each run of neighbouring segments with one status, the
efficiencies apart, which are floating point numbers.

* `summedEntries_eq` : the entries, by the runs of the segments;
* `describesRuns_printed_iff` : they name the runs when the last one is a single segment;
* `summed_describes_runs_iff` : the same for the report of a heap.
-/

namespace Eterna

open SegmentChain Runs MaximalRuns

/-- What an entry is about: `Region a`, or `Region a through b`. -/
inductive RegionRange where
  | region (a : ℕ)
  | through (a b : ℕ)
  deriving DecidableEq

/-- The indices of the segments it names. -/
def RegionRange.indices : RegionRange → List ℕ
  | .region a => [a]
  | .through a b => List.range' a (b + 1 - a)

/-- The segments it names. -/
def RegionRange.segments (segs : List Segment) (r : RegionRange) : List Segment :=
  r.indices.filterMap fun i => segs[i]?

/-- An entry of the report. -/
structure SummedEntry where
  /-- `Region ...:`. -/
  regions : RegionRange
  /-- `Free:`. -/
  free : Bool
  /-- `Length:`, without the headers. -/
  payloadTotal : ℕ
  /-- `Length:`, with the headers. -/
  totalLength : ℕ
  /-- `Start Address:`. -/
  startAddress : ℕ
  deriving DecidableEq

namespace Heap

/-- The locals of the loops of `heap_print_debug_summed`. -/
structure RunSums where
  /-- `it`. -/
  it : ℕ
  /-- `i`. -/
  i : ℕ
  /-- `payload_total`. -/
  payloadTotal : ℕ
  /-- `total_length`. -/
  totalLength : ℕ

/-- The inner loop of `heap_print_debug_summed`, for at most `fuel` segments. -/
def sumSegments (h : Heap) (free : Bool) : ℕ → RunSums → Option RunSums
  | 0, _ => none
  | fuel + 1, r =>
    let r := { r with it := h.next r.it }
    if r.it = 0 then some r
    else
      -- the segment that ends the run is counted too, the end of the chain is not
      let r := { r with i := r.i + 1 }
      if h.isFree r.it ≠ free then some r
      else
        let r := { r with payloadTotal := add64 r.payloadTotal (h.length r.it) }
        h.sumSegments free fuel
          { r with totalLength := add64 r.totalLength (add64 (h.length r.it) headerSize) }

/-- The regions that are printed for the indices `start_i` and `i`. -/
def regionRange (startI i : ℕ) : RegionRange :=
  if i - startI = 1 ∨ i - startI = 0 then .region startI else .through startI (i - 1)

/-- The outer loop of `heap_print_debug_summed`, for at most `fuel` entries. -/
def summedEntries (h : Heap) : ℕ → ℕ → ℕ → Option (List SummedEntry)
  | 0, _, _ => none
  | fuel + 1, i, it =>
    if it = 0 then some []
    else do
      let free := h.isFree it
      let r ← h.sumSegments free fuel ⟨it, i, h.length it, add64 (h.length it) headerSize⟩
      let rest ← h.summedEntries fuel r.i r.it
      return ⟨regionRange i r.i, free, r.payloadTotal, r.totalLength, it⟩ :: rest

variable {h : Heap} {segs pre post run : List Segment} {rs : List (List Segment)} {s : Segment}
  {fuel i : ℕ}

theorem map_sumSegments (free : Bool) (fuel : ℕ) (r : RunSums) :
    (h.sumSegments free fuel r).map (fun r => (r.i, r.it)) = h.sumRun free fuel r.i r.it := by
  induction fuel generalizing r with
  | zero => rfl
  | succ fuel ih =>
    rw [sumSegments, sumRun]
    dsimp only
    split_ifs with hnull
    · rw [← hnull]
      rfl
    · rfl
    · exact ih _

theorem isSome_summedEntries (fuel i it : ℕ) :
    (h.summedEntries fuel i it).isSome = (h.countRuns fuel i it).isSome := by
  induction fuel generalizing i it with
  | zero => rfl
  | succ fuel ih =>
    rw [summedEntries, countRuns]
    split_ifs
    · rfl
    · have hmap := h.map_sumSegments (h.isFree it) fuel
        ⟨it, i, h.length it, add64 (h.length it) headerSize⟩
      dsimp only
      rw [← hmap]
      cases h.sumSegments (h.isFree it) fuel
          ⟨it, i, h.length it, add64 (h.length it) headerSize⟩ with
      | none => rfl
      | some r =>
        simp only [Option.map_some, Option.bind_eq_bind, Option.bind_some, ← ih]
        cases h.summedEntries fuel r.i r.it with
        | none => rfl
        | some rest => rfl

/-! ### What is printed -/

/-- The entry for a run, the first segment of which has the index `startI`. -/
def entryOf (startI i : ℕ) (run : List Segment) : SummedEntry where
  regions := regionRange startI i
  free := (run.head?.map Segment.free).getD false
  payloadTotal := (run.map Segment.length).sum
  totalLength := (run.map fun s => s.length + headerSize).sum
  startAddress := headAddr run 0

/-- The entries for some runs.  At the end of the last one the index has not been increased, as it
is when the first segment of another run is met. -/
def printed : ℕ → List (List Segment) → List SummedEntry
  | _, [] => []
  | i, [run] => [entryOf i (i + (run.length - 1)) run]
  | i, run :: rs => entryOf i (i + run.length) run :: printed (i + run.length) rs

/-- The inner loop: the sums over the segments that are like the first one. -/
theorem sumSegments_eq (hc : h.Chain (pre ++ s :: post)) (free : Bool) (hfuel : post.length < fuel)
    (i : ℕ) {p q : ℕ} (hpq : p ≤ q)
    (hroom : q + (post.map fun t => t.length + headerSize).sum < 2 ^ 64) :
    h.sumSegments free fuel ⟨s.addr, i, p, q⟩ =
      let run := post.takeWhile fun t => decide (t.free = free)
      let rest := post.dropWhile fun t => decide (t.free = free)
      some ⟨headAddr rest 0, i + run.length + (if rest = [] then 0 else 1),
        p + (run.map Segment.length).sum, q + (run.map fun t => t.length + headerSize).sum⟩ := by
  induction post generalizing pre s i p q fuel with
  | nil =>
    obtain ⟨fuel, rfl⟩ : ∃ k, fuel = k + 1 := ⟨fuel - 1, by omega⟩
    have hnext : h.next s.addr = 0 := hc.next_eq
    simp [sumSegments, hnext, headAddr]
  | cons t post ih =>
    rw [List.length_cons] at hfuel
    obtain ⟨fuel, rfl⟩ : ∃ k, fuel = k + 1 := ⟨fuel - 1, by omega⟩
    have hnext : h.next s.addr = t.addr := hc.next_eq
    have hpos := hc.addr_pos (s := t) (by simp)
    have hfree : h.isFree t.addr = t.free := hc.shift.isFree_eq
    have hlength : h.length t.addr = t.length := hc.shift.length_eq
    rw [List.map_cons, List.sum_cons] at hroom
    rw [sumSegments]
    simp only [hnext, hpos.ne', if_false, hfree, hlength]
    -- the segment belongs to the run, or ends it
    by_cases hlike : t.free = free
    · have hadd : add64 t.length headerSize = t.length + headerSize := add64_of_lt (by omega)
      rw [if_neg (not_not.2 hlike), hadd, add64_of_lt (by omega), add64_of_lt (by omega),
        ih hc.shift (by omega) (i + 1) (by omega) (by omega)]
      simp [hlike]
      omega
    · rw [if_pos hlike]
      simp [hlike]

theorem Chain.sum_lt (hc : h.Chain (pre ++ post)) :
    (post.map fun t => t.length + headerSize).sum < 2 ^ 64 := by
  obtain ⟨m, -, htiles⟩ := Tiles.append_iff.1 hc.tiles
  have hend := hc.end_lt
  rw [htiles.hi_eq] at hend
  simp only [Nat.add_comm headerSize] at hend
  omega

theorem printed_cons (hrs : rs ≠ []) (i : ℕ) (run : List Segment) :
    printed i (run :: rs) = entryOf i (i + run.length) run :: printed (i + run.length) rs := by
  cases rs with
  | nil => exact absurd rfl hrs
  | cons run' rs => rfl

/-- **The entries that are printed**, by the runs of the segments. -/
theorem summedEntries_eq (hc : h.Chain (pre ++ s :: post)) (i : ℕ)
    (hfuel : post.length + 1 < fuel) :
    h.summedEntries fuel i s.addr = some (printed i (runs Segment.free (s :: post))) := by
  induction fuel generalizing pre s post i with
  | zero => exact absurd hfuel (Nat.not_lt_zero _)
  | succ fuel ih =>
    have hpos := hc.addr_pos (s := s) (by simp)
    have hroom := hc.sum_lt
    rw [List.map_cons, List.sum_cons] at hroom
    have hadd : add64 s.length headerSize = s.length + headerSize := add64_of_lt (by omega)
    have hsum : h.sumSegments s.free fuel ⟨s.addr, i, s.length, s.length + headerSize⟩ = _ :=
      sumSegments_eq hc s.free (by omega) i (Nat.le_add_right _ _) hroom
    rw [summedEntries, if_neg hpos.ne', hc.isFree_eq, hc.length_eq, hadd, runs_cons]
    simp only [hsum, Option.bind_eq_bind, Option.bind_some]
    -- the next entry starts where the inner loop has stopped
    have hcut := List.takeWhile_append_dropWhile
      (p := fun t => decide (t.free = s.free)) (l := post)
    cases hrest : post.dropWhile fun t => decide (t.free = s.free) with
    | nil =>
      obtain ⟨fuel, rfl⟩ : ∃ k, fuel = k + 1 := ⟨fuel - 1, by omega⟩
      rfl
    | cons t rest =>
      rw [hrest] at hcut
      have hlength := congrArg List.length hcut
      rw [List.length_append, List.length_cons] at hlength
      have hc' : h.Chain ((pre ++ s :: post.takeWhile fun t => decide (t.free = s.free)) ++
          t :: rest) := by
        rw [List.append_assoc, List.cons_append, hcut]
        exact hc
      rw [if_neg (List.cons_ne_nil t rest), headAddr_cons, ih hc' _ (by omega),
        printed_cons (runs_ne_nil (List.cons_ne_nil t rest))]
      rfl

/-! ### What the entries say -/

theorem indices_regionRange (startI m : ℕ) :
    (regionRange startI (startI + m)).indices = List.range' startI (max m 1) := by
  rw [regionRange, Nat.add_sub_cancel_left]
  split_ifs with hone
  · obtain rfl | rfl := hone
    · rfl
    · rfl
  · have hm : 2 ≤ m := by omega
    have hcount : startI + m - 1 + 1 - startI = max m 1 := by omega
    rw [RegionRange.indices, hcount]

theorem filterMap_range' (segs : List Segment) (a n : ℕ) :
    (List.range' a n).filterMap (fun i => segs[i]?) = (segs.drop a).take n := by
  induction n generalizing a with
  | zero => rfl
  | succ n ih =>
    rw [List.range'_succ, List.filterMap_cons, ih]
    by_cases ha : a < segs.length
    · rw [List.getElem?_eq_getElem ha, List.drop_eq_getElem_cons ha, List.take_succ_cons]
    · rw [List.getElem?_eq_none (by omega), List.drop_of_length_le (by omega),
        List.drop_of_length_le (by omega), List.take_nil, List.take_nil]

/-- The entries that name the runs. -/
def runEntries : ℕ → List (List Segment) → List SummedEntry
  | _, [] => []
  | i, run :: rs => entryOf i (i + run.length) run :: runEntries (i + run.length) rs

theorem runEntries_concat (i : ℕ) (rs : List (List Segment)) (run : List Segment) :
    runEntries i (rs ++ [run]) = runEntries i rs ++
      [entryOf (i + rs.flatten.length) (i + rs.flatten.length + run.length) run] := by
  induction rs generalizing i with
  | nil => rfl
  | cons run' rs ih =>
    rw [List.cons_append, runEntries, runEntries, ih, List.flatten_cons, List.length_append,
      List.cons_append, Nat.add_assoc]

theorem printed_concat (i : ℕ) (rs : List (List Segment)) (run : List Segment) :
    printed i (rs ++ [run]) = runEntries i rs ++
      [entryOf (i + rs.flatten.length) (i + rs.flatten.length + (run.length - 1)) run] := by
  induction rs generalizing i with
  | nil => rfl
  | cons run' rs ih =>
    rw [List.cons_append, printed_cons (by simp), runEntries, ih, List.flatten_cons,
      List.length_append, List.cons_append, Nat.add_assoc i]

theorem indices_runEntries (hne : ∀ run ∈ rs, run ≠ []) (i : ℕ) :
    ((runEntries i rs).flatMap fun e => e.regions.indices) = List.range' i rs.flatten.length := by
  induction rs generalizing i with
  | nil => rfl
  | cons run rs ih =>
    obtain ⟨hrun, hrs⟩ := List.forall_mem_cons.1 hne
    have hpos := List.length_pos_of_ne_nil hrun
    have hmax : max run.length 1 = run.length := by omega
    rw [runEntries, List.flatMap_cons, ih hrs, entryOf, indices_regionRange, hmax,
      List.range'_append_1, List.flatten_cons, List.length_append]

theorem segments_entryOf (hrun : run ≠ []) (pre post : List Segment) :
    (entryOf pre.length (pre.length + run.length) run).regions.segments (pre ++ run ++ post) =
      run := by
  have hpos := List.length_pos_of_ne_nil hrun
  have hmax : max run.length 1 = run.length := by omega
  rw [RegionRange.segments, entryOf, indices_regionRange, hmax, filterMap_range', List.append_assoc,
    List.drop_left, List.take_left]

/-- The entry is about the segments that it names: their status and their sums. -/
structure Sums (segs : List Segment) (e : SummedEntry) : Prop where
  free : ∀ s ∈ e.regions.segments segs, s.free = e.free
  payloadTotal : e.payloadTotal = ((e.regions.segments segs).map Segment.length).sum
  totalLength : e.totalLength =
    ((e.regions.segments segs).map fun s => s.length + headerSize).sum

/-- The entries partition the indices into the maximal runs of segments with one status, in order,
and each has the sums over its run. -/
structure DescribesRuns (segs : List Segment) (entries : List SummedEntry) : Prop where
  covers : (entries.flatMap fun e => e.regions.indices) = List.range segs.length
  maximal : (entries.map fun e => e.regions.segments segs) = runs Segment.free segs
  sums : ∀ e ∈ entries, Sums segs e

/-- The last segment is a run of its own: the one before, if there is one, has another status. -/
def LastRunSingle (segs : List Segment) : Prop :=
  ∀ pre s t, segs = pre ++ [s, t] → s.free ≠ t.free

theorem map_segments_runEntries (hne : ∀ run ∈ rs, run ≠ []) (pre : List Segment) :
    (runEntries pre.length rs).map (fun e => e.regions.segments (pre ++ rs.flatten)) = rs := by
  induction rs generalizing pre with
  | nil => rfl
  | cons run rs ih =>
    obtain ⟨hrun, hrs⟩ := List.forall_mem_cons.1 hne
    have hrest := ih hrs (pre ++ run)
    rw [List.length_append] at hrest
    rw [runEntries, List.map_cons, List.flatten_cons, ← List.append_assoc, hrest,
      segments_entryOf hrun]

theorem sums_runEntries (hne : ∀ run ∈ rs, run ≠ [])
    (hkey : ∀ run ∈ rs, ∀ s ∈ run, s.free = (run.head?.map Segment.free).getD false)
    (pre : List Segment) : ∀ e ∈ runEntries pre.length rs, Sums (pre ++ rs.flatten) e := by
  induction rs generalizing pre with
  | nil => simp [runEntries]
  | cons run rs ih =>
    obtain ⟨hrun, hrs⟩ := List.forall_mem_cons.1 hne
    obtain ⟨hfree, hkeys⟩ := List.forall_mem_cons.1 hkey
    have hrest := ih hrs hkeys (pre ++ run)
    rw [List.length_append] at hrest
    rw [runEntries, List.flatten_cons, ← List.append_assoc, List.forall_mem_cons]
    refine ⟨?_, hrest⟩
    have hsegments := segments_entryOf hrun pre rs.flatten
    refine ⟨?_, ?_, ?_⟩
    · rw [hsegments]
      exact hfree
    · rw [hsegments]
      rfl
    · rw [hsegments]
      rfl

theorem describesRuns_runEntries (segs : List Segment) :
    DescribesRuns segs (runEntries 0 (runs Segment.free segs)) := by
  have hne : ∀ run ∈ runs Segment.free segs, run ≠ [] := fun run => ne_nil_of_mem_runs
  have hkey : ∀ run ∈ runs Segment.free segs, ∀ s ∈ run,
      s.free = (run.head?.map Segment.free).getD false := by
    intro run hrun s hs
    cases run with
    | nil => cases hs
    | cons t run => exact key_eq_of_mem_runs hrun hs
  have hflat := flatten_runs Segment.free segs
  refine ⟨?_, ?_, ?_⟩
  · rw [indices_runEntries hne, hflat, List.range_eq_range']
  · have hmap := map_segments_runEntries hne []
    rwa [hflat] at hmap
  · have hsums := sums_runEntries hne hkey []
    rwa [hflat] at hsums

/-- **What is printed describes the runs** exactly when the last one is a single segment. -/
theorem describesRuns_printed_iff (hsegs : segs ≠ []) :
    DescribesRuns segs (printed 0 (runs Segment.free segs)) ↔ LastRunSingle segs := by
  obtain ⟨rs, run, hruns⟩ := (List.eq_nil_or_concat' (runs Segment.free segs)).resolve_left
    (runs_ne_nil hsegs)
  have hne : ∀ r ∈ rs ++ [run], r ≠ [] := fun r hr => ne_nil_of_mem_runs (hruns ▸ hr)
  have hpos := List.length_pos_of_ne_nil (hne run (by simp))
  have hlast : run.length = 1 ↔ LastRunSingle segs := length_last_eq_one_iff hruns
  rw [← hlast]
  constructor
  · intro hd
    -- the indices of the last entry fall one short of a run of two segments or more
    have hlength : segs.length = rs.flatten.length + run.length := by
      rw [← flatten_runs Segment.free segs, hruns]
      simp
    have hcovers := hd.covers
    rw [hruns, printed_concat, List.flatMap_append,
      indices_runEntries fun r hr => hne r (by simp [hr])] at hcovers
    have hcount := congrArg List.length hcovers
    simp only [List.flatMap_cons, List.flatMap_nil, List.append_nil, entryOf, indices_regionRange,
      List.length_append, List.length_range', List.length_range] at hcount
    omega
  · intro hone
    have hprinted : printed 0 (rs ++ [run]) = runEntries 0 (rs ++ [run]) := by
      rw [printed_concat, runEntries_concat, hone]
      simp [entryOf, regionRange]
    rw [hruns, hprinted, ← hruns]
    exact describesRuns_runEntries segs

end Heap

open Heap

/-! ### The report of a heap -/

/-- A request that fits is a step of the client. -/
theorem HeapStep.exists_take {c : HeapClient} {segs : List Segment} {n : ℕ} {t : Segment}
    (hc : c.heap.Chain segs) (hn : n ≠ 0) (hlt : n < 2 ^ 64)
    (hfind : segs.find? (Fits (roundRequest n) ·) = some t) :
    ∃ p c', HeapStep c (.malloc n p) c' ∧ c'.heap = c.heap.take (roundRequest n) t := by
  obtain ⟨hm, hbelow⟩ := hc.malloc_of_find hn (Nat.le_refl _) hfind
  exact ⟨_, _, HeapStep.malloc hlt hbelow hm, rfl⟩

/-- The segments of `k` blocks of eight bytes, at the start of the heap. -/
def smallBlocks (k : ℕ) : List Segment :=
  (List.range k).map fun j => ⟨heapVirtualBase + 33 * j, 8, false⟩

/-- The rest of the first page behind these blocks. -/
def behindBlocks (k : ℕ) (free : Bool) : Segment := ⟨heapVirtualBase + 33 * k, 4071 - 33 * k, free⟩

theorem find_behindBlocks {k n : ℕ} (hfits : Fits n (behindBlocks k true)) :
    (smallBlocks k ++ [behindBlocks k true]).find? (Fits n ·) = some (behindBlocks k true) := by
  have hnone : (smallBlocks k).find? (Fits n ·) = none := by
    simp [smallBlocks, Fits]
  rw [List.find?_append, hnone, Option.none_or, List.find?_cons]
  simp [hfits]

theorem exists_smallBlocks {k : ℕ} (hk : k ≤ 7) : ∃ calls c, Run HeapStep .first calls c ∧
    c.heap.Chain (smallBlocks k ++ [behindBlocks k true]) := by
  induction k with
  | zero => exact ⟨[], _, .nil, Heap.unset.initHeap_chain⟩
  | succ k ih =>
    obtain ⟨calls, c, hrun, hc⟩ := ih (by omega)
    have hround : roundRequest 8 = 8 := by decide
    have hfits : Fits 8 (behindBlocks k true) := by
      refine ⟨rfl, .inr ⟨Nat.le_refl 8, ?_⟩⟩
      change 8 + 25 + 8 ≤ 4071 - 33 * k
      omega
    obtain ⟨p, c', hstep, hheap⟩ := HeapStep.exists_take (n := 8) hc (by decide) (by decide)
      (hround.symm ▸ find_behindBlocks hfits)
    -- the block is cut off the front of the rest of the page
    have htaken : taken 8 (behindBlocks k true) =
        [⟨heapVirtualBase + 33 * k, 8, false⟩, behindBlocks (k + 1) true] := by
      have hne : (behindBlocks k true).length ≠ 8 := by
        change 4071 - 33 * k ≠ 8
        omega
      have haddr : heapVirtualBase + 33 * k + 25 + 8 = heapVirtualBase + 33 * (k + 1) := by omega
      have hlength : 4071 - 33 * k - 8 - 25 = 4071 - 33 * (k + 1) := by omega
      rw [taken, if_neg hne]
      change [_, (⟨heapVirtualBase + 33 * k + 25 + 8, 4071 - 33 * k - 8 - 25, true⟩ : Segment)] = _
      rw [haddr, hlength]
      rfl
    have htake := (hc.take hfits).1
    rw [htaken, List.append_nil, ← hround, ← hheap] at htake
    refine ⟨_, c', hrun.snoc hstep, ?_⟩
    rw [smallBlocks, List.range_succ, List.map_append, List.append_assoc]
    exact htake

/-- **The summed report describes the runs** of the chain exactly when the last of them is a single
segment.  At the end of a longer one the last segment is not named.  The report ends with the walk
over the chain, for which `countRuns` stands where nothing of what is printed matters. -/
theorem summed_describes_runs_iff {h : Heap} {segs : List Segment} (hc : h.Chain segs) {fuel : ℕ}
    (hfuel : segs.length < fuel) :
    (∀ n, (h.summedEntries n 0 h.sHeapStart).isSome = (h.countRuns n 0 h.sHeapStart).isSome) ∧
    ∃ entries, h.summedEntries fuel 0 h.sHeapStart = some entries ∧
      (DescribesRuns segs entries ↔ LastRunSingle segs) := by
  refine ⟨fun n => isSome_summedEntries n 0 _, ?_⟩
  obtain ⟨s, post, rfl⟩ := List.exists_cons_of_ne_nil hc.ne_nil
  have hstart : s.addr = h.sHeapStart := hc.tiles.1
  have hc' : h.Chain ([] ++ s :: post) := hc
  refine ⟨_, ?_, describesRuns_printed_iff hc.ne_nil⟩
  rw [← hstart]
  exact summedEntries_eq hc' 0 hfuel

/-- Seven blocks of eight bytes are a run, and the rest of the page is another one. -/
theorem summed_describes_runs_iff_blocks : ∃ (h : Heap) (entries : List SummedEntry),
    h.Chain (smallBlocks 7 ++ [behindBlocks 7 true]) ∧
    h.summedEntries 9 0 h.sHeapStart = some entries ∧
    DescribesRuns (smallBlocks 7 ++ [behindBlocks 7 true]) entries := by
  obtain ⟨-, c, -, hc⟩ := exists_smallBlocks (Nat.le_refl 7)
  have hsingle : LastRunSingle (smallBlocks 7 ++ [behindBlocks 7 true]) := by
    intro pre s t hsegs
    have hsplit : smallBlocks 7 ++ [behindBlocks 7 true] = (pre ++ [s]) ++ [t] := by
      rw [hsegs, List.append_assoc]
      rfl
    obtain ⟨hpre, hlast⟩ := List.append_inj' hsplit rfl
    have hused : ∀ u ∈ smallBlocks 7, u.free = false := by decide
    rw [← List.singleton_inj.1 hlast, hused s (hpre ▸ by simp)]
    decide
  obtain ⟨-, entries, hentries, hiff⟩ := summed_describes_runs_iff hc (Nat.lt_succ_self 8)
  exact ⟨c.heap, entries, hc, hentries, hiff.2 hsingle⟩

/-- Seven blocks of eight bytes and one of the rest are a single run, but the last of these segments
is not among the regions that are printed. -/
theorem summed_misses_last : ∃ calls c entries, Run HeapStep .first calls c ∧
    c.heap.Chain (smallBlocks 7 ++ [behindBlocks 7 false]) ∧
    c.heap.summedEntries 9 0 c.heap.sHeapStart = some entries ∧
    ¬ DescribesRuns (smallBlocks 7 ++ [behindBlocks 7 false]) entries := by
  obtain ⟨calls, c, hrun, hc⟩ := exists_smallBlocks (Nat.le_refl 7)
  have hround : roundRequest 3840 = 3840 := by decide
  have hfits : Fits 3840 (behindBlocks 7 true) := ⟨rfl, .inl rfl⟩
  obtain ⟨p, c', hstep, hheap⟩ := HeapStep.exists_take (n := 3840) hc (by decide) (by decide)
    (hround.symm ▸ find_behindBlocks hfits)
  have htaken : taken 3840 (behindBlocks 7 true) = [behindBlocks 7 false] := by decide
  have htake := (hc.take hfits).1
  rw [htaken, List.append_nil, ← hround, ← hheap] at htake
  have hstart : heapVirtualBase = c'.heap.sHeapStart := htake.tiles.1
  refine ⟨_, c', printed 0 (runs Segment.free (smallBlocks 7 ++ [behindBlocks 7 false])),
    hrun.snoc hstep, htake, ?_, fun hd => ?_⟩
  · have hchain : c'.heap.Chain ([] ++ (smallBlocks 7 ++ [behindBlocks 7 false])) := htake
    rw [← hstart]
    exact summedEntries_eq hchain 0 (by decide)
  · have hsingle := (describesRuns_printed_iff htake.ne_nil).1 hd
    exact hsingle (smallBlocks 6) ⟨heapVirtualBase + 33 * 6, 8, false⟩ (behindBlocks 7 false)
      rfl rfl

end Eterna
