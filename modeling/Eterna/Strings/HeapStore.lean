import Eterna.Memory.HeapAlign
import Eterna.Memory.HeapBelow
import Eterna.Strings.Store

/-!
# The store and the heap

A store `Views` the heap if it has the blocks that the client of the heap holds, with their bytes
and the bytes below the heap.

* `Store.Views.apart` : such blocks lie in the heap and do not overlap;
* `Store.Views.new`, `Store.Views.delete` : what `malloc` and `free` do is an answer that `new` and
  `delete` take, after which the store views the heap again;
* `Store.Views.written` : writing into a block of the store is writing into a block of the heap;
* `Store.Views.others` : what others do to the heap spares the blocks of the store.
-/

namespace Eterna

open ByteMemory Runs Heap HeapClient

variable {σ : Store} {c c' : HeapClient} {l : HeapCall} {segs : List SegmentChain.Segment}
  {p n x : ℕ} {b d : ℕ × ℕ}

/-! ### Live blocks -/

theorem HeapClient.Sound.inside (hs : c.Sound segs) (hb : b ∈ c.live) :
    c.heap.sHeapStart < b.1 ∧ b.1 + b.2 < 2 ^ 64 := by
  obtain ⟨s, hmem, -, hptr, hlen⟩ := hs.live b hb
  have hstart := hs.chain.start_le hmem
  have hstop := hs.chain.stop_lt hmem
  unfold headerSize at hptr hstop
  omega

theorem HeapClient.Sound.apart (hs : c.Sound segs) (hb : b ∈ c.live) (hd : d ∈ c.live)
    (hne : b.1 ≠ d.1) : b.1 + b.2 ≤ d.1 ∨ d.1 + d.2 ≤ b.1 := by
  obtain ⟨s, hmem, -, hptr, hlen⟩ := hs.live b hb
  obtain ⟨t, hmem', -, hptr', hlen'⟩ := hs.live d hd
  obtain rfl | hst | hts := hs.chain.tiles.eq_or_apart hmem hmem'
  · omega
  · omega
  · omega

/-- A call of the heap changes no byte below the heap, and none in a block that stays live. -/
theorem HeapStep.mem_eq (hs : c.Sound segs) (hstep : HeapStep c l c')
    (hwrite : ∀ a v, l ≠ .write a v)
    (hx : x < c.heap.sHeapStart ∨ ∃ b ∈ c.live, l ≠ .free b.1 ∧ b.1 ≤ x ∧ x < b.1 + b.2) :
    c'.heap.mem x = c.heap.mem x := by
  obtain hlow | ⟨b, hb, hfree, hlo, hhi⟩ := hx
  · exact (hstep.below hs).mem x hlow
  · obtain ⟨segs', -, hspares⟩ := hstep.sound hs
    obtain ⟨s, hmem, hused, hptr, hlen⟩ := hs.live b hb
    rw [hptr] at hfree
    exact (hspares s hmem hused hfree).2 hwrite x (by omega) (by omega)

/-- `malloc(0)` returns null, so no block is empty. -/
theorem HeapStep.nonempty (hstep : HeapStep c l c') (h : ∀ b ∈ c.live, 0 < b.2) :
    ∀ b ∈ c'.live, 0 < b.2 := by
  cases hstep with
  | @malloc n p fuel g hn hbelow hm =>
    dsimp only
    split_ifs with hp
    · exact h
    · refine List.forall_mem_cons.2 ⟨Nat.pos_of_ne_zero ?_, h⟩
      rintro rfl
      exact hp (malloc_zero hm).2
  | free => exact fun b hb => h b (List.mem_of_mem_filter hb)
  | expandHeap => exact h
  | write => exact h

/-! ### Views -/

/-- The store shows what the client of the heap holds. -/
structure Store.Views (σ : Store) (c : HeapClient) : Prop where
  sound : ∃ segs, c.Sound segs
  start : c.heap.sHeapStart = heapVirtualBase
  nonempty : ∀ b ∈ c.live, 0 < b.2
  blocks : σ.all.Perm c.live
  mem : ∀ x, σ.Kept x → σ.mem x = c.heap.mem x

namespace Store.Views

theorem mem_live (hv : σ.Views c) : b ∈ σ.all ↔ b ∈ c.live := hv.blocks.mem_iff

theorem nodup (hv : σ.Views c) : (σ.all.map Prod.fst).Nodup := by
  obtain ⟨segs, hs⟩ := hv.sound
  exact (hv.blocks.map Prod.fst).nodup_iff.2 hs.nodup

theorem apart (hv : σ.Views c) : σ.Apart := by
  obtain ⟨segs, hs⟩ := hv.sound
  constructor
  · intro b hb
    have hlive := hv.mem_live.1 hb
    obtain ⟨hlo, hhi⟩ := hs.inside hlive
    exact ⟨hv.start ▸ hlo, hv.nonempty b hlive, hhi⟩
  · refine (List.pairwise_map.1 hv.nodup).imp_of_mem fun hb hd hne => ?_
    exact hs.apart (hv.mem_live.1 hb) (hv.mem_live.1 hd) hne

theorem first (h : Heap) : Views ⟨h.initHeap.mem, [], []⟩ ⟨h.initHeap, []⟩ where
  sound := ⟨_, sound_init h⟩
  start := rfl
  nonempty := by simp
  blocks := .refl _
  mem _ _ := rfl

theorem mem_step (hv : σ.Views c) (hstep : HeapStep c l c') (hwrite : ∀ a v, l ≠ .write a v)
    (hx : x < heapVirtualBase ∨ ∃ b ∈ σ.all, l ≠ .free b.1 ∧ b.1 ≤ x ∧ x < b.1 + b.2) :
    c'.heap.mem x = c.heap.mem x := by
  obtain ⟨segs, hs⟩ := hv.sound
  refine hstep.mem_eq hs hwrite ?_
  rw [hv.start]
  exact hx.imp_right fun ⟨b, hb, hin⟩ => ⟨b, hv.mem_live.1 hb, hin⟩

theorem of_step (hv : σ.Views c) (hstep : HeapStep c l c') {σ' : Store}
    (hblocks : σ'.all.Perm c'.live)
    (hmem : ∀ x, σ'.Kept x → σ'.mem x = c'.heap.mem x) : σ'.Views c' := by
  obtain ⟨segs, hs⟩ := hv.sound
  obtain ⟨segs', hs', -⟩ := hstep.sound hs
  exact ⟨⟨segs', hs'⟩, (hstep.below hs).start.trans hv.start, hstep.nonempty hv.nonempty, hblocks,
    hmem⟩

end Store.Views

theorem HeapStep.live_malloc (hstep : HeapStep c (.malloc n p) c') :
    c'.live = if p = 0 then c.live else (p, n) :: c.live := by
  cases hstep
  rfl

theorem HeapStep.live_free (hstep : HeapStep c (.free p) c') :
    c'.live = c.live.filter fun b => b.1 ≠ p := by
  cases hstep
  rfl

namespace Store.Views

/-- **`new`** takes what `malloc` answers. -/
theorem new (hv : σ.Views c) (hstep : HeapStep c (.malloc n p) c') (freed : Memory) :
    ∃ σ', σ.new ⟨p, c'.heap.mem, freed⟩ n = .ok (σ', p) ∧ σ'.Views c' := by
  obtain ⟨segs, hs⟩ := hv.sound
  have hkept : ∀ x, σ.Kept x → σ.mem x = c'.heap.mem x := fun x hx =>
    (hv.mem x hx).trans (hv.mem_step hstep (by simp) (hx.imp_right fun ⟨b, hb, hin⟩ =>
      ⟨b, hb, by simp, hin⟩)).symm
  have hzero := hstep.pointer_eq_zero_iff hs.chain
  by_cases h0 : Heap.roundRequest n = 0
  · have hp := hzero.2 h0
    have hlive := hstep.live_malloc
    rw [if_pos hp] at hlive
    subst hp
    exact ⟨σ, new_null _ h0, hv.of_step hstep (hlive ▸ hv.blocks) hkept⟩
  · have hp := mt hzero.1 h0
    have hlive := hstep.live_malloc
    rw [if_neg hp] at hlive
    obtain ⟨segs', hs', -⟩ := hstep.sound hs
    have hnew : (p, n) ∈ c'.live := by rw [hlive]; exact .head _
    have hnodup := hs'.nodup
    rw [hlive, List.map_cons, List.nodup_cons] at hnodup
    have hfresh : σ.Fresh p n := by
      obtain ⟨hlo, hhi⟩ := hs'.inside hnew
      rw [(hstep.below hs).start, hv.start] at hlo
      refine ⟨hlo, hhi, fun b hb => ?_⟩
      have hold := hv.mem_live.1 hb
      refine hs'.apart hnew (by rw [hlive]; exact .tail _ hold) fun heq => ?_
      exact hnodup.1 (List.mem_map.2 ⟨b, hold, heq.symm⟩)
    refine ⟨_, (if_neg h0).trans (if_pos hfresh), hv.of_step hstep ?_ fun x hx => ?_⟩
    · rw [hlive]
      exact hv.blocks.cons _
    · dsimp only
      split_ifs with hold
      · exact hkept x hold
      · rfl

/-- **`delete`** takes what `free` leaves. -/
theorem delete (hv : σ.Views c) (hp : σ.Allocated p) (hstep : HeapStep c (.free p) c')
    (address : ℕ) (fresh : Memory) :
    ∃ σ', σ.delete ⟨address, fresh, c'.heap.mem⟩ p = .ok σ' ∧ σ'.Views c' := by
  have hlive := hstep.live_free
  have hforeign : (σ.foreign.filter fun b => b.1 ≠ p) = σ.foreign := by
    refine List.filter_eq_self.2 fun b hb => decide_eq_true fun heq => ?_
    have hnodup := hv.nodup
    rw [all, List.map_append] at hnodup
    exact List.disjoint_of_nodup_append hnodup hp (List.mem_map.2 ⟨b, hb, heq⟩)
  have hall : (σ.without p).all = σ.all.filter fun b => b.1 ≠ p := by
    rw [all, all, List.filter_append, hforeign]
    rfl
  refine ⟨_, (if_neg (hv.apart.ne_null hp)).trans (if_pos hp), hv.of_step hstep ?_ fun x hx => ?_⟩
  · rw [hlive]
    exact (show (σ.without p).all.Perm _ from hall ▸ hv.blocks.filter _)
  · have hx' : (σ.without p).Kept x := hx
    refine (if_pos hx').trans ?_
    refine (hv.mem x hx'.of_without).trans (hv.mem_step hstep (by simp) ?_).symm
    refine hx'.imp_right fun hblock => ?_
    obtain ⟨b, hb, hin⟩ := hblock
    rw [hall, List.mem_filter] at hb
    refine ⟨b, hb.1, fun heq => ?_, hin⟩
    cases heq
    exact of_decide_eq_true hb.2 rfl

/-- **Writing** into a block of the store is writing into a block of the heap. -/
theorem written (hv : σ.Views c) (hb : b ∈ σ.blocks) {M : Memory}
    (hM : ∀ x, x < b.1 ∨ b.1 + b.2 ≤ x → M x = σ.mem x) :
    ∃ calls c', Run HeapStep c calls c' ∧ Store.Views { σ with mem := M } c' := by
  have hlive := hv.mem_live.1 (List.mem_append_left _ hb)
  obtain ⟨calls, hrun⟩ := write_block hlive M b.2 le_rfl
  obtain ⟨segs, hs⟩ := hv.sound
  obtain ⟨segs, hs⟩ := hs.run hrun
  refine ⟨calls, _, hrun, ⟨segs, hs⟩, hv.start, hv.nonempty, hv.blocks, fun x hx => ?_⟩
  dsimp only
  split_ifs with hin
  · rfl
  · exact (hM x (by omega)).trans (hv.mem x hx)

/-- **What others do** to the heap leaves the blocks of the store as they are. -/
theorem others (hv : σ.Views c) (hstep : HeapStep c l c')
    (hfree : ∀ p, l = .free p → ¬ σ.Allocated p)
    (hwrite : ∀ a v, l = .write a v → ∀ b ∈ σ.blocks, a < b.1 ∨ b.1 + b.2 ≤ a) :
    ∃ σ' : Store, σ'.blocks = σ.blocks ∧ (∀ b ∈ σ.blocks, ∀ x, b.1 ≤ x → x < b.1 + b.2 →
      σ'.mem x = σ.mem x) ∧ σ'.Views c' := by
  have hmem : ∀ b ∈ σ.blocks, ∀ x, b.1 ≤ x → x < b.1 + b.2 → c'.heap.mem x = σ.mem x := by
    intro b hb x hlo hhi
    have hall : b ∈ σ.all := List.mem_append_left _ hb
    refine Eq.trans ?_ (hv.mem x (.inr ⟨b, hall, hlo, hhi⟩)).symm
    by_cases hw : ∃ a v, l = .write a v
    · obtain ⟨a, v, rfl⟩ := hw
      have haway := hwrite a v rfl b hb
      cases hstep with
      | write => exact Function.update_of_ne (by omega) _ _
    · refine hv.mem_step hstep (fun a v h => hw ⟨a, v, h⟩) (.inr ⟨b, hall, fun h => ?_, hlo, hhi⟩)
      exact hfree _ h (allocated_of_mem (p := b.1) (n := b.2) hb)
  suffices hperm : ∃ foreign, (σ.blocks ++ foreign).Perm c'.live by
    obtain ⟨foreign, hperm⟩ := hperm
    exact ⟨⟨c'.heap.mem, σ.blocks, foreign⟩, rfl, hmem, hv.of_step hstep hperm fun _ _ => rfl⟩
  cases hstep with
  | @malloc n p fuel g hn hbelow hm =>
    by_cases hp : p = 0
    · exact ⟨σ.foreign, (if_pos hp).symm ▸ hv.blocks⟩
    · refine ⟨(p, n) :: σ.foreign, List.perm_middle.trans ?_⟩
      dsimp only
      rw [if_neg hp]
      exact hv.blocks.cons _
  | @free p hp =>
    have hblocks : (σ.blocks.filter fun b => b.1 ≠ p) = σ.blocks :=
      List.filter_eq_self.2 fun b hb => decide_eq_true fun heq =>
        hfree p rfl (List.mem_map.2 ⟨b, hb, heq⟩)
    refine ⟨σ.foreign.filter fun b => b.1 ≠ p, ?_⟩
    rw [← hblocks, ← List.filter_append]
    exact hv.blocks.filter _
  | expandHeap => exact ⟨σ.foreign, hv.blocks⟩
  | write => exact ⟨σ.foreign, hv.blocks⟩

end Store.Views

end Eterna
