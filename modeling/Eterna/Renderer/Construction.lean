import Eterna.Memory.HeapAbove
import Eterna.Renderer.Surfaces

/-!
# The framebuffers in the page map

The constructor of the renderer locks the pages of the framebuffer that the firmware has left, maps
them to themselves, requests pages for a second framebuffer, and maps those at the bottom of the
last 512 gigabytes of the address space.

* `Machine.construct` : what the constructor does to the allocator and to the page map;
* `Placed` : both framebuffers are mapped, on frames that nobody else has;
* `framebuffers_stay` : so they are after the constructor, and in every run of the kernel that
  follows.
-/

namespace Eterna

open ByteMemory SegmentChain Runs PhysicalMemoryManager

/-! ### The constructor -/

/-- `virtualTargetBaseAddress`. -/
def virtualTargetBaseAddress : ℕ := 0xffffff8000000000

namespace Surface

/-- `fbSize`. -/
def fbSize (render : Surface) : ℕ := add64 render.bufferSize 0x1000

/-- `fbPages`. -/
def fbPages (render : Surface) : ℕ := add64 (render.fbSize / 0x1000) 1

/-- The addresses of the buffer. -/
def span (s : Surface) : Set ℕ := Set.Ico s.baseAddress (s.baseAddress + s.bufferSize)

/-- The pages that the constructor locks. -/
def frames (render : Surface) : List ℕ := List.range' (render.baseAddress / pageSize) render.fbPages

end Surface

namespace Machine

/-- `map(virtualAddress, physicalAddress, mappingFlags)`, which works on `active_page_map()`. -/
def mapActive (s : Machine) (virtualAddress physicalAddress : ℕ) (mappingFlags : BitVec 64) :
    Machine :=
  let a := s.readActivePageMap
  a.1.map a.2 virtualAddress physicalAddress mappingFlags

/-- `n` iterations of a loop over `map(.., .., Present | ReadWrite)`. -/
def mapActivePages (s : Machine) (virtualAddress physicalAddress : ℕ → ℕ) : ℕ → Machine
  | 0 => s
  | i + 1 => (s.mapActivePages virtualAddress physicalAddress i).mapActive (virtualAddress i)
      (physicalAddress i) presentWrite

/-- The pages of a loop that starts at an address. -/
def pageFrom (address i : ℕ) : ℕ := add64 address (i * pageSize)

/-- The machine after `lock_pages(render->BaseAddress, fbPages)`. -/
def lockRender (s : Machine) (render : Surface) : Machine :=
  { s with pmm := s.pmm.lockPages render.baseAddress render.fbPages }

/-- The number of iterations of the loop that maps the render framebuffer. -/
def renderPages (render : Surface) : ℕ :=
  pageSteps render.baseAddress (add64 render.baseAddress render.fbSize)

/-- The machine after the loop that maps the render framebuffer. -/
def mapRender (s : Machine) (render : Surface) : Machine :=
  (s.lockRender render).mapActivePages (pageFrom render.baseAddress) (pageFrom render.baseAddress)
    (renderPages render)

/-- The machine after `request_pages(fbPages)`, and the address that this has returned. -/
def requestTarget (s : Machine) (render : Surface) : Machine × ℕ :=
  let mapped := s.mapRender render
  let r := mapped.pmm.requestPages render.fbPages
  ({ mapped with pmm := r.1 }, r.2)

/-- `Renderer(render, f)`, up to the drawing.  The second component is `Target->BaseAddress`: either
`Target` is `Render`, or the other fields of `target` are those of `*render`. -/
def construct (s : Machine) (render : Surface) : Machine × ℕ :=
  let r := s.requestTarget render
  if r.2 = 0 then (r.1, render.baseAddress)
  else (r.1.mapActivePages (pageFrom virtualTargetBaseAddress) (pageFrom r.2)
    (pageSteps 0 render.fbSize), virtualTargetBaseAddress)

/-- `request_page` finds every page that the constructor needs for the page tables. -/
structure RendererSupplied (s : Machine) (render : Surface) : Prop where
  screen : LoopSupplied s.activePageMap presentWrite (pageFrom render.baseAddress)
    (pageFrom render.baseAddress) (renderPages render) (s.lockRender render)
  deferred : (s.requestTarget render).2 ≠ 0 →
    LoopSupplied s.activePageMap presentWrite (pageFrom virtualTargetBaseAddress)
      (pageFrom (s.requestTarget render).2) (pageSteps 0 render.fbSize) (s.requestTarget render).1

variable {s t : Machine} {render : Surface} {va pa : ℕ → ℕ} {n : ℕ}

theorem readActivePageMap_of_ne (h : s.activePageMap ≠ 0) :
    s.readActivePageMap = (s, s.activePageMap) := if_neg h

theorem mapActivePages_eq (h : s.activePageMap ≠ 0) (n : ℕ) :
    s.mapActivePages va pa n = mapPages s.activePageMap presentWrite va pa n s := by
  induction n with
  | zero => rfl
  | succ n ih =>
    have hactive : (mapPages s.activePageMap presentWrite va pa n s).activePageMap =
        s.activePageMap := (mapPages_keeps n s).1
    rw [mapActivePages, ih, mapActive, readActivePageMap_of_ne (by rwa [hactive]), hactive,
      mapPages]

/-! ### The addresses of a loop -/

variable {a b i w : ℕ}

theorem pageNumber_pageFrom (h : a + i * pageSize < 2 ^ 64) :
    pageNumber (pageFrom a i) = (a / pageSize + i) % 2 ^ 36 := by
  rw [pageFrom, add64_of_lt h, pageNumber, pageSize]
  omega

theorem frameAfter_inside {before : Option ℕ} (hend : a + n * pageSize ≤ 2 ^ 64) (hn : n ≤ 2 ^ 36)
    (hi : i < n) (hw : pageNumber w = (a / pageSize + i) % 2 ^ 36) :
    frameAfter (mapCalls presentWrite (pageFrom a) (pageFrom b) n) before w =
      some (pageFrom b i / pageSize) := by
  have hpage : ∀ j < n, pageNumber (pageFrom a j) = (a / pageSize + j) % 2 ^ 36 := by
    intro j hj
    have hle := Nat.mul_le_mul_right pageSize (Nat.succ_le_of_lt hj)
    have hpos : 0 < pageSize := by decide
    rw [Nat.succ_mul] at hle
    exact pageNumber_pageFrom (by omega)
  rw [frameAfter, lastCall_mapCalls_some hi (hw.trans (hpage i hi).symm) fun j hij hj => ?_]
  rw [hw, hpage j hj]
  omega

theorem frameAfter_elsewhere {before : Option ℕ} (hend : a + n * pageSize ≤ 2 ^ 64)
    (hw : ∀ i < n, pageNumber w ≠ (a / pageSize + i) % 2 ^ 36) :
    frameAfter (mapCalls presentWrite (pageFrom a) (pageFrom b) n) before w = before := by
  rw [frameAfter, lastCall_mapCalls_none fun j hj => ?_]
  have hle := Nat.mul_le_mul_right pageSize (Nat.succ_le_of_lt hj)
  have hpos : 0 < pageSize := by decide
  rw [Nat.succ_mul] at hle
  rw [pageNumber_pageFrom (by omega)]
  exact hw j hj

end Machine

variable {s : Machine} {stop n : ℕ} {held : List ℕ} {render : Surface} {va pa : ℕ → ℕ}

/-- **A loop over `map`** below the heap. -/
theorem Backed.mapActivePages (h : Backed s stop held)
    (hva : ∀ i < n, pageNumber (va i) < pageNumber heapVirtualBase) (hpa : ∀ i < n, pa i < 2 ^ 52)
    (hsup : Machine.LoopSupplied s.activePageMap Machine.presentWrite va pa n s) :
    Backed (s.mapActivePages va pa n) stop held ∧
      (s.mapActivePages va pa n).activePageMap = s.activePageMap ∧
      ∀ w, (s.mapActivePages va pa n).frame w =
        frameAfter (mapCalls Machine.presentWrite va pa n) (s.frame w) w := by
  rw [Machine.mapActivePages_eq h.active]
  obtain ⟨hext, htr⟩ := (Machine.mapPages_run (by decide) hpa hsup).translate_eq h.active
    h.wellFormed h.freshFrames
  have hactive : (Machine.mapPages s.activePageMap Machine.presentWrite va pa n s).activePageMap =
      s.activePageMap := (Machine.mapPages_keeps n s).1
  have hframe : ∀ w, (Machine.mapPages s.activePageMap Machine.presentWrite va pa n s).frame w =
      frameAfter (mapCalls Machine.presentWrite va pa n) (s.frame w) w := fun w => by
    rw [Machine.frame, hactive, htr]
    rfl
  refine ⟨h.extend hext hactive (Machine.mapPages_fits h.fits n _ _) fun v hv => ?_, hactive,
    hframe⟩
  have hle := le_pageNumber ⟨hv.1, hv.2.trans h.stop_lt⟩
  rw [hframe, frameAfter, lastCall_mapCalls_none fun i hi => ?_]
  exact (Nat.ne_of_lt ((hva i hi).trans_le hle)).symm

/-! ### Locking the screen -/

theorem get_lockPages_of_mem (m : PhysicalMemoryManager) {a j : ℕ}
    (hend : a + n * pageSize ≤ 2 ^ 64) (hj : j ∈ List.range' (a / pageSize) n)
    (hsize : j / 8 < m.pageMap.size) : (m.lockPages a n).pageMap.get j = true := by
  induction n with
  | zero => cases hj
  | succ n ih =>
    rw [Nat.succ_mul] at hend
    have haddress : add64 a (mul64 n pageSize) / pageSize = a / pageSize + n := by
      unfold add64 mul64
      unfold pageSize at hend ⊢
      omega
    have hmem := List.mem_range'_1.1 hj
    rw [lockPages, get_lockPage, haddress, (lockPages_same m a n).size, Bool.or_eq_true]
    by_cases hlast : j = a / pageSize + n
    · exact .inr (decide_eq_true ⟨hlast, hlast ▸ hsize⟩)
    · exact .inl (ih (by omega) (List.mem_range'_1.2 (by omega)))

/-- **After `lock_pages`** the pages of the screen cannot be handed out. -/
theorem Backed.lockRender (h : Backed s stop held)
    (hend : render.baseAddress + render.fbPages * pageSize ≤ 2 ^ 64)
    (hscreen : ∀ f ∈ render.frames, ¬ IsTableOf s.ram s.activePageMap f ∧
      ∀ v ∈ Set.Ico heapVirtualBase stop, s.frame v ≠ some f) :
    Backed (s.lockRender render) stop (render.frames ++ held) := by
  have hcall := h.call (c := .lockPages render.baseAddress render.fbPages)
    fun p hp => absurd hp List.not_mem_nil
  have hsame := lockPages_same s.pmm render.baseAddress render.fbPages
  have hnone : newPages s.pmm (s.pmm.call (.lockPages render.baseAddress render.fbPages)) = [] :=
    newPages_eq hsame.handedOut
  have hlocked : Backed (s.lockRender render) stop held := by
    rw [hnone, List.nil_append, List.filter_eq_self.2] at hcall
    · exact hcall
    · exact fun p _ => decide_eq_true List.not_mem_nil
  refine hlocked.hold (fun f hf => ⟨fun hfree => ?_, (hscreen f hf).1⟩) fun f hf => (hscreen f hf).2
  obtain ⟨-, hlt, hclear⟩ := hfree
  have hlt' : f < s.pmm.totalPages := hlt.trans_eq hsame.totalPages
  have hsize := h.fits.2
  have hset : (s.lockRender render).pmm.pageMap.get f = true :=
    get_lockPages_of_mem s.pmm hend hf (by omega)
  rw [hset] at hclear
  cases hclear

/-! ### The two windows -/

/-- The size of the framebuffer: it lies in the lower half of the address space, and a copy fits
below the kernel. -/
structure Surface.Mappable (render : Surface) : Prop where
  low : render.baseAddress + render.bufferSize + 0x1000 ≤ 2 ^ 47
  small : render.bufferSize + 0x1000 ≤ 0x7f80000000

namespace Surface.Mappable

theorem fbSize_eq (h : render.Mappable) : render.fbSize = render.bufferSize + 0x1000 := by
  have hlow := h.low
  exact add64_of_lt (by omega)

theorem fbPages_eq (h : render.Mappable) :
    render.fbPages = (render.bufferSize + 0x1000) / pageSize + 1 := by
  have hlow := h.low
  rw [fbPages, h.fbSize_eq]
  exact add64_of_lt (by omega)

theorem renderPages_eq (h : render.Mappable) : Machine.renderPages render =
    (render.bufferSize + 0x1000 + (pageSize - 1)) / pageSize := by
  have hlow := h.low
  rw [Machine.renderPages, h.fbSize_eq, add64_of_lt (by omega), pageSteps, Nat.add_sub_cancel_left]

theorem targetPages_eq (h : render.Mappable) :
    pageSteps 0 render.fbSize = Machine.renderPages render := by
  rw [h.renderPages_eq, h.fbSize_eq]
  rfl

theorem renderPages_le (h : render.Mappable) : Machine.renderPages render ≤ render.fbPages := by
  rw [h.renderPages_eq, h.fbPages_eq]
  unfold pageSize
  omega

end Surface.Mappable

namespace Surface

/-- The second framebuffer. -/
def deferred (render : Surface) (h : render.Mappable) : Surface :=
  { render with
    baseAddress := virtualTargetBaseAddress
    base_pos := by decide
    stop_le := by
      have hsmall := h.small
      unfold virtualTargetBaseAddress
      omega }

/-- The renderer without a second framebuffer. -/
def shared (render : Surface) (backgroundColor : UInt32) : Renderer :=
  ⟨render, render, backgroundColor, rfl, rfl, rfl, rfl, .inl rfl⟩

/-- The renderer with a second framebuffer. -/
def buffered (render : Surface) (h : render.Mappable) (backgroundColor : UInt32) : Renderer where
  render := render
  target := render.deferred h
  backgroundColor := backgroundColor
  size_eq := rfl
  width_eq := rfl
  height_eq := rfl
  pitch_eq := rfl
  apart := by
    have hlow := h.low
    refine .inr (.inr ?_)
    show render.baseAddress + render.bufferSize ≤ virtualTargetBaseAddress
    unfold virtualTargetBaseAddress
    omega

end Surface

/-- The addresses of the two framebuffers. -/
def Renderer.span (r : Renderer) : Set ℕ := r.render.span ∪ r.target.span

/-- The framebuffers are mapped: the render framebuffer to itself, and both on frames that the
kernel holds, a frame for each page. -/
structure Placed (s : Machine) (held : List ℕ) (r : Renderer) : Prop where
  screen : ∀ a ∈ r.render.span, s.frame a = some (a / pageSize)
  held : ∀ a ∈ r.span, ∃ f ∈ held, s.frame a = some f
  own : ∀ a ∈ r.span, ∀ b ∈ r.span, s.frame a = s.frame b → a / pageSize = b / pageSize

/-- The first loop maps the screen to itself. -/
theorem Backed.mapRender (h : Backed s stop held) (hmap : render.Mappable)
    (hscreen : ∀ f ∈ render.frames, ¬ IsTableOf s.ram s.activePageMap f ∧
      ∀ v ∈ Set.Ico heapVirtualBase stop, s.frame v ≠ some f)
    (hsup : Machine.LoopSupplied s.activePageMap Machine.presentWrite
      (Machine.pageFrom render.baseAddress) (Machine.pageFrom render.baseAddress)
      (Machine.renderPages render) (s.lockRender render)) :
    Backed (s.mapRender render) stop (render.frames ++ held) ∧
      (s.mapRender render).activePageMap = s.activePageMap ∧
      ∀ a ∈ render.span, (s.mapRender render).frame a = some (a / pageSize) := by
  have hlow := hmap.low
  have hpages := hmap.renderPages_eq
  have hlocked := h.lockRender (by rw [hmap.fbPages_eq]; unfold pageSize; omega) hscreen
  have haddress : ∀ i < Machine.renderPages render, render.baseAddress + i * pageSize < 2 ^ 47 := by
    intro i hi
    rw [hpages] at hi
    unfold pageSize at hi ⊢
    omega
  have hva : ∀ i < Machine.renderPages render,
      pageNumber (Machine.pageFrom render.baseAddress i) < pageNumber heapVirtualBase := by
    intro i hi
    have hlt := haddress i hi
    rw [Machine.pageNumber_pageFrom (hlt.trans (by decide))]
    unfold pageSize at hlt
    unfold pageNumber heapVirtualBase pageSize
    omega
  have hpa : ∀ i < Machine.renderPages render, Machine.pageFrom render.baseAddress i < 2 ^ 52 := by
    intro i hi
    have hlt := haddress i hi
    rw [Machine.pageFrom, add64_of_lt (hlt.trans (by decide))]
    exact hlt.trans (by decide)
  obtain ⟨hb, hactive, hframe⟩ := hlocked.mapActivePages hva hpa hsup
  refine ⟨hb, hactive, fun a ha => ?_⟩
  obtain ⟨hstart, hend⟩ := ha
  have hi : a / pageSize - render.baseAddress / pageSize < Machine.renderPages render := by
    rw [hpages]
    unfold pageSize
    omega
  have hfrom : Machine.pageFrom render.baseAddress (a / pageSize - render.baseAddress / pageSize) /
      pageSize = a / pageSize := by
    rw [Machine.pageFrom, add64_of_lt ((haddress _ hi).trans (by decide))]
    unfold pageSize
    omega
  rw [← hfrom]
  refine (hframe a).trans (Machine.frameAfter_inside ?_ ?_ hi ?_)
  · rw [hpages]
    unfold pageSize
    omega
  · rw [hpages]
    unfold pageSize
    omega
  · unfold pageNumber pageSize
    omega

/-- **`request_pages`** hands out frames that nobody else has. -/
theorem Backed.requestPages (h : Backed s stop held) (n : ℕ) : ∃ l,
    Backed { s with pmm := (s.pmm.requestPages n).1 } stop (l ++ held) ∧
      newPages s.pmm (s.pmm.requestPages n).1 = l ∧ (∀ f ∈ l, s.pmm.Free f) ∧
      ((s.pmm.requestPages n).2 ≠ 0 →
        ∃ i, l = List.range' i n ∧ (s.pmm.requestPages n).2 = i * pageSize) := by
  have hcall := h.call (c := .requestPages n) fun p hp => absurd hp List.not_mem_nil
  obtain ⟨i, k, hout, hresult⟩ := requestPages_handsOut h.fits.covered n
  obtain ⟨l, hl, hfree⟩ := handedOut_call h.fits (.requestPages n)
  obtain rfl : l = List.range' i k := List.append_cancel_right (hl.symm.trans hout.pages)
  refine ⟨_, ?_, newPages_eq hl, fun f hf => (hfree f hf).1, fun hne => ?_⟩
  · rw [newPages_eq hl, List.filter_eq_self.2] at hcall
    · exact hcall
    · exact fun p _ => decide_eq_true List.not_mem_nil
  · obtain ⟨rfl, haddress⟩ | ⟨-, hzero⟩ := hresult
    · exact ⟨i, rfl, haddress⟩
    · exact absurd hzero hne

/-- The pages that the constructor has been handed for the second framebuffer. -/
def Machine.requested (s : Machine) (render : Surface) : List ℕ :=
  newPages (s.mapRender render).pmm (s.requestTarget render).1.pmm

theorem Surface.Mappable.mem_frames (h : render.Mappable) {a : ℕ} (ha : a ∈ render.span) :
    a / pageSize ∈ render.frames := by
  obtain ⟨hstart, hend⟩ := ha
  refine List.mem_range'_1.2 ?_
  rw [h.fbPages_eq]
  unfold pageSize
  omega

theorem placed_shared {l : List ℕ} (hmap : render.Mappable) (c : UInt32)
    (hframe : ∀ a ∈ render.span, s.frame a = some (a / pageSize)) (hheld : render.frames ⊆ l) :
    Placed s l (render.shared c) := by
  have hspan : (render.shared c).span = render.span := Set.union_self _
  refine ⟨hframe, fun a ha => ?_, fun a ha b hb heq => ?_⟩
  · rw [hspan] at ha
    exact ⟨_, hheld (hmap.mem_frames ha), hframe a ha⟩
  · rw [hspan] at ha hb
    rw [hframe a ha, hframe b hb] at heq
    exact Option.some.inj heq

/-- With a second framebuffer, on pages from `i` on. -/
theorem placed_buffered {l : List ℕ} {i : ℕ} (hmap : render.Mappable) (c : UInt32)
    (hframe : ∀ a ∈ render.span, s.frame a = some (a / pageSize))
    (htarget : ∀ a ∈ (render.deferred hmap).span,
      s.frame a = some (i + (a - virtualTargetBaseAddress) / pageSize))
    (hheld : render.frames ⊆ l) (hheld' : List.range' i render.fbPages ⊆ l)
    (hapart : ∀ f ∈ List.range' i render.fbPages, f ∉ render.frames) :
    Placed s l (render.buffered hmap c) := by
  have hmem : ∀ a ∈ (render.deferred hmap).span, virtualTargetBaseAddress ≤ a ∧
      i + (a - virtualTargetBaseAddress) / pageSize ∈ List.range' i render.fbPages := by
    rintro a ⟨hstart, hend⟩
    have hstart' : virtualTargetBaseAddress ≤ a := hstart
    have hend' : a < virtualTargetBaseAddress + render.bufferSize := hend
    refine ⟨hstart', List.mem_range'_1.2 ?_⟩
    rw [hmap.fbPages_eq]
    unfold pageSize
    omega
  -- a page of the screen has another frame than one of the second framebuffer
  have hother : ∀ a ∈ render.span, ∀ b ∈ (render.deferred hmap).span, s.frame a ≠ s.frame b := by
    intro a ha b hb heq
    rw [hframe a ha, htarget b hb] at heq
    exact hapart _ (hmem b hb).2 (Option.some.inj heq ▸ hmap.mem_frames ha)
  refine ⟨hframe, ?_, ?_⟩
  · rintro a (ha | ha)
    · exact ⟨_, hheld (hmap.mem_frames ha), hframe a ha⟩
    · exact ⟨_, hheld' (hmem a ha).2, htarget a ha⟩
  · rintro a (ha | ha) b (hb | hb) heq
    · rw [hframe a ha, hframe b hb] at heq
      exact Option.some.inj heq
    · exact absurd heq (hother a ha b hb)
    · exact absurd heq.symm (hother b hb a ha)
    · have hab := heq
      rw [htarget a ha, htarget b hb] at hab
      have hab' := Option.some.inj hab
      have hle := (hmem a ha).1
      have hle' := (hmem b hb).1
      unfold virtualTargetBaseAddress pageSize at *
      omega

/-- **What the constructor leaves behind.** -/
theorem Backed.construct (h : Backed s stop held) (hmap : render.Mappable)
    (hscreen : ∀ f ∈ render.frames, ¬ IsTableOf s.ram s.activePageMap f ∧
      ∀ v ∈ Set.Ico heapVirtualBase stop, s.frame v ≠ some f)
    (hsup : s.RendererSupplied render) (c : UInt32) :
    Backed (s.construct render).1 stop (s.requested render ++ (render.frames ++ held)) ∧
      ∃ r : Renderer, r.render = render ∧ r.target.baseAddress = (s.construct render).2 ∧
        r.backgroundColor = c ∧
        Placed (s.construct render).1 (s.requested render ++ (render.frames ++ held)) r := by
  obtain ⟨hb, hactive, hframe⟩ := h.mapRender hmap hscreen hsup.screen
  obtain ⟨l, hbl, hl, hfree, hrun⟩ := hb.requestPages render.fbPages
  have hrequested : s.requested render = l := hl
  have hheld : render.frames ⊆ l ++ (render.frames ++ held) := fun f hf =>
    List.mem_append_right _ (List.mem_append_left _ hf)
  rw [hrequested, Machine.construct]
  by_cases hzero : (s.requestTarget render).2 = 0
  · rw [if_pos hzero]
    exact ⟨hbl, render.shared c, rfl, rfl, rfl, placed_shared hmap c hframe hheld⟩
  rw [if_neg hzero]
  obtain ⟨i, rfl, haddress⟩ := hrun hzero
  have haddress' : (s.requestTarget render).2 = i * pageSize := haddress
  have htotal := hb.freshFrames.fits
  have hsmall := hmap.small
  have hn := hmap.renderPages_le
  have hpages := hmap.renderPages_eq
  have hlt : ∀ j < Machine.renderPages render, i + j < 2 ^ 40 := by
    intro j hj
    have hj' := (hfree (i + j) (List.mem_range'_1.2 (by omega))).2.1
    omega
  have hva : ∀ j < Machine.renderPages render,
      pageNumber (Machine.pageFrom virtualTargetBaseAddress j) < pageNumber heapVirtualBase := by
    intro j hj
    rw [hpages] at hj
    unfold pageSize at hj
    rw [Machine.pageNumber_pageFrom (by unfold virtualTargetBaseAddress pageSize; omega)]
    unfold pageNumber heapVirtualBase virtualTargetBaseAddress pageSize
    omega
  have hpa : ∀ j < Machine.renderPages render,
      Machine.pageFrom (s.requestTarget render).2 j = (i + j) * pageSize := by
    intro j hj
    have hj' := hlt j hj
    rw [Machine.pageFrom, haddress', Nat.add_mul]
    exact add64_of_lt (by unfold pageSize; omega)
  have hdeferred := hsup.deferred hzero
  rw [hmap.targetPages_eq] at hdeferred ⊢
  have hactive' : (s.requestTarget render).1.activePageMap = s.activePageMap := hactive
  rw [← hactive'] at hdeferred
  obtain ⟨hbd, -, hframe'⟩ := hbl.mapActivePages hva
    (fun j hj => by rw [hpa j hj]; have hj' := hlt j hj; unfold pageSize; omega) hdeferred
  refine ⟨hbd, render.buffered hmap c, rfl, rfl, rfl, placed_buffered hmap c ?_ ?_ hheld
    (List.subset_append_left _ _) ?_⟩
  · intro a ha
    refine (hframe' a).trans ((Machine.frameAfter_elsewhere ?_ ?_).trans (hframe a ha))
    · rw [hpages]
      unfold virtualTargetBaseAddress pageSize
      omega
    · intro j hj
      have hlow := hmap.low
      obtain ⟨hstart, hend⟩ := ha
      rw [hpages] at hj
      unfold pageSize at hj
      unfold pageNumber virtualTargetBaseAddress pageSize
      omega
  · rintro a ⟨hstart, hend⟩
    have hstart' : virtualTargetBaseAddress ≤ a := hstart
    have hend' : a < virtualTargetBaseAddress + render.bufferSize := hend
    have hj : (a - virtualTargetBaseAddress) / pageSize < Machine.renderPages render := by
      rw [hpages]
      unfold pageSize
      omega
    refine (hframe' a).trans ((Machine.frameAfter_inside ?_ ?_ hj ?_).trans ?_)
    · rw [hpages]
      unfold virtualTargetBaseAddress pageSize
      omega
    · rw [hpages]
      unfold pageSize
      omega
    · unfold pageNumber virtualTargetBaseAddress pageSize
      unfold virtualTargetBaseAddress at hstart' hend'
      omega
    · rw [hpa _ hj, Nat.mul_div_cancel _ (by decide)]
  · intro f hf hlocked
    exact (hb.held_owned f (List.mem_append_left _ hlocked)).not_free (hfree f hf)

/-! ### Drawing after the constructor -/

theorem Renderer.swapAll_clearAll {r : Renderer} {m : Memory} {x y : ℕ}
    (hx : x < r.render.pixelWidth) (hy : y < r.render.pixelHeight) :
    word (swapAll (clearAll m r) r) (r.render.address x y) = r.backgroundColor := by
  have hx' : x < r.target.pixelWidth := r.width_eq ▸ hx
  have hy' : y < r.target.pixelHeight := r.height_eq ▸ hy
  have hcleared : word (clearAll m r) (r.target.address x y) = r.backgroundColor := by
    rw [clearAll_eq]
    exact Surface.fillRows_of_mem (by simp) (by simpa using hx') (by simpa using hy')
  by_cases hne : r.render.baseAddress = r.target.baseAddress
  · rw [swapAll_of_eq hne, Surface.address, hne, ← r.pitch_eq]
    exact hcleared
  · exact (swapAll_visible hne hx' hy').trans hcleared

/-! ### Runs of the kernel -/

/-- The kernel after the constructor of the renderer, which holds the pages of both framebuffers. -/
def Kernel.withRenderer (k : Kernel) (render : Surface) : Kernel :=
  ⟨k.onMachine (k.machine.construct render).1,
    k.machine.requested render ++ (render.frames ++ k.held)⟩

/-- The call frees no page of a framebuffer, and maps none of their addresses anew. -/
def KernelCall.Spares (k : Kernel) (r : Renderer) : KernelCall → Prop
  | .heap _ => True
  | .pages c => ∀ a ∈ r.span, ∀ f ∈ c.freed, k.machine.frame a ≠ some f
  | .map c => ∀ a ∈ r.span, pageNumber a ≠ pageNumber c.virtualAddress

/-- A step of the kernel that spares the framebuffers. -/
def RendererStep (r : Renderer) (k : Kernel) (call : KernelCall) (k' : Kernel) : Prop :=
  SuppliedStep k call k' ∧ call.Spares k r

/-- The framebuffers lie below the heap. -/
def Renderer.Below (r : Renderer) : Prop :=
  ∀ a ∈ r.span, pageNumber a < pageNumber heapVirtualBase

variable {k k' : Kernel} {r : Renderer}

theorem Kernel.mem_held_callPages {c : PmmCall} {f : ℕ} (hf : f ∈ k.held) (hfreed : f ∉ c.freed) :
    f ∈ (k.callPages c).held :=
  List.mem_filter.2 ⟨List.mem_append_right _ hf, decide_eq_true hfreed⟩

/-- **One step** leaves both framebuffers where they are. -/
theorem RendererStep.placed {call : KernelCall} {segs : List Segment} (hs : k.Sound segs)
    (hbelow : r.Below) (hp : Placed k.machine k.held r) (hstep : RendererStep r k call k') :
    (∃ segs', k'.Sound segs') ∧ Placed k'.machine k'.held r ∧
      ∀ a ∈ r.span, k'.machine.frame a = k.machine.frame a := by
  obtain ⟨hstep, hspares⟩ := hstep
  have hframe : ∀ a ∈ r.span, k'.machine.frame a = k.machine.frame a := by
    refine fun a ha => hstep.frame_eq hs (hbelow a ha) fun c hc => ?_
    subst hc
    exact hspares a ha
  have hheld : ∀ a ∈ r.span, ∃ f ∈ k'.held, k.machine.frame a = some f := by
    intro a ha
    obtain ⟨f, hf, hfa⟩ := hp.held a ha
    refine ⟨f, ?_, hfa⟩
    cases hstep with
    | heap hroom hsup => exact hf
    | pages hfreed => exact Kernel.mem_held_callPages hf fun hmem => hspares a ha f hmem hfa
    | map hlow hp hmf hsup => exact hf
  refine ⟨hstep.sound hs, ⟨fun a ha => ?_, fun a ha => ?_, fun a ha b hb heq => ?_⟩, hframe⟩
  · rw [hframe a (.inl ha)]
    exact hp.screen a ha
  · rw [hframe a ha]
    exact hheld a ha
  · rw [hframe a ha, hframe b hb] at heq
    exact hp.own a ha b hb heq

theorem Renderer.below_of_construct (hmap : render.Mappable) (hrender : r.render = render)
    (htarget : r.target.baseAddress = render.baseAddress ∨
      r.target.baseAddress = virtualTargetBaseAddress) : r.Below := by
  have hlow := hmap.low
  have hsmall := hmap.small
  have hsize := r.size_eq
  rw [hrender] at hsize
  rintro a (⟨hstart, hend⟩ | ⟨hstart, hend⟩)
  · rw [hrender] at hstart hend
    unfold pageNumber heapVirtualBase
    omega
  · rw [hsize] at hend
    unfold virtualTargetBaseAddress at htarget
    unfold pageNumber heapVirtualBase
    omega

theorem Machine.construct_cases : (s.construct render).2 = render.baseAddress ∨
    (s.construct render).2 = virtualTargetBaseAddress := by
  rw [Machine.construct]
  by_cases hzero : (s.requestTarget render).2 = 0
  · exact .inl (by rw [if_pos hzero])
  · exact .inr (by rw [if_neg hzero])

/-- **The framebuffers stay where they are.**  The constructor of the renderer, whether it gets
pages for a second framebuffer or not, ends with a cleared screen; and in every run of the kernel
from then on that frees no page of a framebuffer and maps none of their addresses anew, whatever the
heap does: the screen is mapped to itself, and the frame behind each page of a framebuffer is the
same as at the start, cannot be handed out, is no page table, and is neither behind a page of the
heap nor behind another page of a framebuffer. -/
theorem framebuffers_stay {k : Kernel} {segs : List Segment} (hs : k.Sound segs) {render : Surface}
    (hmap : render.Mappable) (hscreen : ∀ f ∈ render.frames,
      ¬ IsTableOf k.machine.ram k.machine.activePageMap f ∧
      ∀ v ∈ Set.Ico heapVirtualBase k.client.heap.sHeapEnd, k.machine.frame v ≠ some f)
    (hsup : k.machine.RendererSupplied render) (c : UInt32) : ∃ r : Renderer, r.render = render ∧
      r.target.baseAddress = (k.machine.construct render).2 ∧
      (∀ m x y, x < render.pixelWidth → y < render.pixelHeight →
        word (r.swapAll (r.clearAll m)) (render.address x y) = c) ∧
      ∀ calls k', Run (RendererStep r) (k.withRenderer render) calls k' →
        (∀ a ∈ render.span, k'.machine.frame a = some (a / pageSize)) ∧
        ∀ a ∈ r.span, ∃ f, (k.withRenderer render).machine.frame a = some f ∧
          k'.machine.frame a = some f ∧ k'.machine.Owned f ∧
          (∀ v ∈ Set.Ico heapVirtualBase k'.client.heap.sHeapEnd, k'.machine.frame v ≠ some f) ∧
          ∀ b ∈ r.span, k'.machine.frame b = some f → b / pageSize = a / pageSize := by
  obtain ⟨hb, r, rfl, hbase, rfl, hplaced⟩ := hs.backed.construct hmap hscreen hsup c
  have hbelow : r.Below := Renderer.below_of_construct hmap rfl (hbase ▸ Machine.construct_cases)
  have hsound : (k.withRenderer r.render).Sound segs := ⟨hs.client.onMachine _, hs.start, hb⟩
  refine ⟨r, rfl, hbase, fun m x y hx hy => Renderer.swapAll_clearAll hx hy,
    fun calls k' hrun => ?_⟩
  have hinv : (∃ segs', k'.Sound segs') ∧ Placed k'.machine k'.held r ∧
      ∀ a ∈ r.span, k'.machine.frame a = (k.withRenderer r.render).machine.frame a := by
    refine hrun.invariant (I := fun k' => (∃ segs', k'.Sound segs') ∧ Placed k'.machine k'.held r ∧
      ∀ a ∈ r.span, k'.machine.frame a = (k.withRenderer r.render).machine.frame a)
      ⟨⟨segs, hsound⟩, hplaced, fun _ _ => rfl⟩ ?_
    rintro u call v ⟨⟨segs', hu⟩, hp, hsame⟩ hstep
    obtain ⟨hv, hpv, hframe⟩ := hstep.placed hu hbelow hp
    exact ⟨hv, hpv, fun a ha => (hframe a ha).trans (hsame a ha)⟩
  obtain ⟨⟨segs', hs'⟩, hp, hsame⟩ := hinv
  refine ⟨hp.screen, fun a ha => ?_⟩
  obtain ⟨f, hf, hfa⟩ := hp.held a ha
  refine ⟨f, (hsame a ha).symm.trans hfa, hfa, hs'.backed.held_owned f hf, fun v hv hvf => ?_,
    fun b hb' hbf => hp.own b hb' a ha (hbf.trans hfa.symm)⟩
  obtain ⟨g, hg, -, hnot⟩ := hs'.backed.frames v hv
  exact hnot (Option.some.inj (hg.symm.trans hvf) ▸ hf)

/-! ### A framebuffer of one pixel -/

theorem Machine.Supply.requestPages {s : Machine} {n k : ℕ} (hfits : s.pmm.Fits) (hn : 2 ≤ n)
    (h : s.Supply (2 * k + n)) :
    Machine.Supply { s with pmm := (s.pmm.requestPages n).1 } k := by
  obtain ⟨c, hc⟩ := h
  have hsize := hfits.covered.small
  obtain he | ⟨rfl, -⟩ | ⟨i, -, -, hrun, -, he⟩ := requestPages_outcome hsize n
  · rw [he]
    exact ⟨c, fun j h1 h2 => hc j h1 (by omega)⟩
  · omega
  · have hsame := lockPages_same s.pmm (i * pageSize) n
    have hfree : ∀ j, s.pmm.Free j → j < i ∨ i + n ≤ j → (s.pmm.requestPages n).1.Free j := by
      rintro j ⟨hcursor, hlt, hclear⟩ hj
      rw [he]
      refine ⟨hsame.firstFreePage.trans_le hcursor, hlt.trans_eq hsame.totalPages.symm, ?_⟩
      refine (get_lockPages s.pmm (hrun.le.trans hsize) j).trans ?_
      rw [hclear, Bool.false_or, decide_eq_false_iff_not]
      omega
    by_cases hfirst : c + k ≤ i
    · exact ⟨c, fun j h1 h2 => hfree j (hc j h1 (by omega)) (.inl (by omega))⟩
    · exact ⟨c + k + n, fun j h1 h2 => hfree j (hc j (by omega) (by omega)) (.inr (by omega))⟩

/-- A heap on a machine with 398 free pages. -/
def roomyHeap : Heap := ⟨Machine.empty 2 400, fun _ => 0, 0, 0, 0⟩

/-- The kernel after `init_heap`. -/
def roomyKernel : Kernel := ⟨⟨roomyHeap.initHeap, []⟩, []⟩

/-- A framebuffer of one pixel, behind the memory of that machine. -/
def highPixel : Surface :=
  { Renderer.deferred.render with
    baseAddress := 0x200000
    base_pos := by decide
    stop_le := by decide }

theorem mappable_highPixel : highPixel.Mappable := ⟨by decide, by decide⟩

theorem roomyHeap_supply : roomyHeap.machine.Supply 398 := Machine.supply_empty (by decide)

theorem roomyHeap_mapsPage : ∃ f, roomyHeap.machine.MapsPage heapVirtualBase f
    roomyKernel.machine :=
  Machine.exists_mapsPage (by decide) (Machine.wellFormed_empty 2 400 _)
    (Machine.freshFrames_empty (by decide) (by decide)) ⟨by decide, rfl⟩
    ((roomyHeap_supply.mono (by decide)).pageSupplied (by decide) _)

theorem roomyKernel_sound : roomyKernel.Sound [Heap.firstSegment] := by
  refine ⟨HeapClient.sound_init roomyHeap, rfl, Heap.initHeap_backed ?_ ?_⟩
  · exact ⟨by decide, Machine.wellFormed_empty 2 400 _,
      Machine.freshFrames_empty (by decide) (by decide), ⟨by decide, rfl⟩,
      fun f hf => absurd hf List.not_mem_nil⟩
  · exact (roomyHeap_supply.mono (by decide)).pageSupplied (by decide) _

theorem roomyKernel_apart {f : ℕ} (hf : f ∈ highPixel.frames) :
    ¬ IsTableOf roomyKernel.machine.ram roomyKernel.machine.activePageMap f ∧
      ∀ v ∈ Set.Ico heapVirtualBase roomyKernel.client.heap.sHeapEnd,
        roomyKernel.machine.frame v ≠ some f := by
  have hle : 400 ≤ f := le_trans (by decide) (List.mem_range'_1.1 hf).1
  obtain ⟨g, hm⟩ := roomyHeap_mapsPage
  refine ⟨fun htable => ?_, fun v hv hvf => ?_⟩
  · rw [hm.active] at htable
    obtain hold | hfree := hm.grown.tables f htable
    · have hroot : f = 1 :=
        TableWalk.isTable_of_empty (fun _ => PageDirectoryEntry.next_zero) hold
      omega
    · have hlt := (Machine.free_empty.1 hfree).2
      omega
  · rw [Machine.frame, hm.active, hm.translate] at hvf
    have hlt := (Machine.free_empty.1 hm.free).2
    split at hvf
    · have hgf := Option.some.inj hvf
      omega
    · rw [translate_eq_follow] at hvf
      have hnil := (TableWalk.eq_nil_of_empty (fun _ => PageDirectoryEntry.next_zero) hvf).1
      exact absurd hnil (List.append_ne_nil_of_right_ne_nil _ (List.cons_ne_nil _ _))

theorem roomyKernel_supplied : roomyKernel.machine.RendererSupplied highPixel := by
  have hbacked := roomyKernel_sound.backed
  have hmap := mappable_highPixel
  have hpages : Machine.renderPages highPixel = 2 := by decide
  have hfits := hbacked.freshFrames.fits
  have hlocked : Backed (roomyKernel.machine.lockRender highPixel) roomyKernel.client.heap.sHeapEnd
      (highPixel.frames ++ roomyKernel.held) :=
    hbacked.lockRender (by decide) fun f hf => roomyKernel_apart hf
  have hT : roomyKernel.machine.pmm.totalPages = 400 :=
    (Machine.map_totalPages _ _ _ _ _).trans (requestPage_totalPages _)
  have hsupply : (roomyKernel.machine.lockRender highPixel).Supply 394 := by
    obtain ⟨c, hc⟩ : roomyKernel.machine.Supply 394 :=
      Heap.mapPage_supply (by decide) roomyHeap_supply heapVirtualBase
    refine ⟨c, fun j h1 h2 => ?_⟩
    obtain ⟨hcursor, hlt, hclear⟩ := hc j h1 h2
    have hsame := lockPages_same roomyKernel.machine.pmm highPixel.baseAddress highPixel.fbPages
    have hlt' : j < 400 := hlt.trans_eq hT
    refine ⟨hsame.firstFreePage.trans_le hcursor, hlt.trans_eq hsame.totalPages.symm, ?_⟩
    refine (get_lockPages roomyKernel.machine.pmm (i := 512) (n := 2) (by decide) j).trans ?_
    rw [Bool.or_eq_false_iff, decide_eq_false_iff_not]
    exact ⟨hclear, by omega⟩
  have hfirst := Machine.loopSupplied_of_tables Machine.presentWrite
    (Machine.pageFrom highPixel.baseAddress) (Machine.pageFrom highPixel.baseAddress) 2 391
    hlocked.active hlocked.wellFormed hlocked.freshFrames (by decide) (by decide) (by decide)
      hsupply
  have hscreen : Machine.LoopSupplied roomyKernel.machine.activePageMap Machine.presentWrite
      (Machine.pageFrom highPixel.baseAddress) (Machine.pageFrom highPixel.baseAddress)
      (Machine.renderPages highPixel) (roomyKernel.machine.lockRender highPixel) := by
    rw [hpages]
    exact hfirst.1
  refine ⟨hscreen, fun hne => ?_⟩
  obtain ⟨hb, hactive, -⟩ := hbacked.mapRender hmap (fun f hf => roomyKernel_apart hf) hscreen
  obtain ⟨l, hbl, -, hfree, hrun⟩ := hb.requestPages highPixel.fbPages
  obtain ⟨i, rfl, haddress⟩ := hrun hne
  have hrest : (roomyKernel.machine.mapRender highPixel).Supply (2 * 3 + 2) := by
    rw [Machine.mapRender, hpages, Machine.mapActivePages_eq hlocked.active]
    exact hfirst.2.1.mono (by decide)
  have hlast : (roomyKernel.machine.requestTarget highPixel).1.Supply 3 :=
    hrest.requestPages hb.fits (by decide)
  have htotal := hb.freshFrames.fits
  have hlt := (hfree (i + 1) (List.mem_range'_1.2 ⟨Nat.le_succ i, Nat.lt_succ_self _⟩)).2.1
  have hsame : (roomyKernel.machine.requestTarget highPixel).1.activePageMap =
      roomyKernel.machine.activePageMap := hactive
  have haddress' : (roomyKernel.machine.requestTarget highPixel).2 = i * pageSize := haddress
  have hva : ∀ j < pageSteps 0 highPixel.fbSize,
      (PageMapIndexer.ofAddress (Machine.pageFrom virtualTargetBaseAddress j)).tables =
        (PageMapIndexer.ofAddress (Machine.pageFrom virtualTargetBaseAddress 0)).tables := by decide
  rw [← hsame]
  refine (Machine.loopSupplied_of_tables Machine.presentWrite _ _ _ 0 hbl.active hbl.wellFormed
    hbl.freshFrames (by decide) (fun j hj => ?_) hva hlast).1
  have hj' : j < 2 := hj
  rw [Machine.pageFrom, haddress', add64_of_lt]
  all_goals
    unfold pageSize
    omega

/-- The pixel is cleared, and its page stays mapped to itself when another page is requested. -/
theorem framebuffers_stay_pixel : ∃ r : Renderer,
    (∀ m, word (r.swapAll (r.clearAll m)) (highPixel.address 0 0) = 7) ∧
    ∃ k', Run (RendererStep r) (roomyKernel.withRenderer highPixel) [.pages .requestPage] k' ∧
      k'.machine.frame 0x200000 = some 512 := by
  obtain ⟨r, -, -, hclear, hruns⟩ := framebuffers_stay roomyKernel_sound mappable_highPixel
    (fun f hf => roomyKernel_apart hf) roomyKernel_supplied 7
  have hrun : Run (RendererStep r) (roomyKernel.withRenderer highPixel) [.pages .requestPage] _ :=
    .single ⟨.pages fun p hp => absurd hp List.not_mem_nil,
      fun a _ f hf => absurd hf List.not_mem_nil⟩
  refine ⟨r, fun m => hclear m 0 0 (by decide) (by decide), _, hrun, ?_⟩
  exact (hruns _ _ hrun).1 0x200000 ⟨by decide, by decide⟩

end Eterna
