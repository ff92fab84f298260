import Mathlib.Algebra.Order.Ring.Nat
import Mathlib.Data.List.Chain
import Mathlib.Data.Nat.Notation
import Mathlib.Tactic.Common

/-!
# Chains of segments

An arena is cut into segments, each of them a header of `size` bytes followed by its payload, and
the headers form a doubly linked list in address order.

* `Tiles size lo segs hi` : the segments fill `[lo, hi)` without gap or overlap;
* `Linked view prev segs nxt` : the headers that `view` finds at the addresses of the segments
  record them, and link them to each other, to `prev` and to `nxt`;
* `Tiles.append_iff`, `Linked.append_iff` : both can be cut anywhere;
* `Linked.splice` : the one rule for edits.  Replacing some segments in the middle by others takes
  correct headers for the new segments and one patched `last` link behind them;
* `Linked.unique` : the headers determine the segments;
* `Coalesced segs` : no two neighbours are free;
* `Coalesced.unique` : the segments in use determine a coalesced tiling.
-/

namespace SegmentChain

/-- What the header of a segment records. -/
@[ext] structure Header where
  /-- The header before this one, or zero. -/
  last : ℕ
  /-- The header after this one, or zero. -/
  next : ℕ
  /-- The length of the payload. -/
  length : ℕ
  /-- The payload is not in use. -/
  free : Bool

/-- A segment of the arena. -/
structure Segment where
  /-- The address of the header. -/
  addr : ℕ
  /-- The length of the payload. -/
  length : ℕ
  /-- The payload is not in use. -/
  free : Bool
deriving DecidableEq

/-- The address behind a segment whose header takes `size` bytes. -/
def Segment.stop (size : ℕ) (s : Segment) : ℕ := s.addr + size + s.length

/-- The address of the first segment, or `nxt` if there is none. -/
def headAddr : List Segment → ℕ → ℕ
  | [], nxt => nxt
  | s :: _, _ => s.addr

/-- The address of the last segment, or `prev` if there is none. -/
def lastAddr : ℕ → List Segment → ℕ
  | prev, [] => prev
  | _, s :: rest => lastAddr s.addr rest

/-- The segments fill `[lo, hi)` without gap or overlap. -/
def Tiles (size : ℕ) : ℕ → List Segment → ℕ → Prop
  | lo, [], hi => lo = hi
  | lo, s :: rest, hi => s.addr = lo ∧ Tiles size (s.stop size) rest hi

/-- The headers record the segments and link them in order. -/
def Linked (view : ℕ → Header) : ℕ → List Segment → ℕ → Prop
  | _, [], _ => True
  | prev, s :: rest, nxt =>
    view s.addr = ⟨prev, headAddr rest nxt, s.length, s.free⟩ ∧ Linked view s.addr rest nxt

variable {size lo hi prev nxt : ℕ} {xs ys segs pre mid mid' post : List Segment}
  {s t : Segment} {view view' : ℕ → Header}

@[simp] theorem headAddr_cons : headAddr (s :: xs) nxt = s.addr := rfl

@[simp] theorem lastAddr_nil : lastAddr prev [] = prev := rfl

@[simp] theorem lastAddr_cons : lastAddr prev (s :: xs) = lastAddr s.addr xs := rfl

@[simp] theorem headAddr_append : headAddr (xs ++ ys) nxt = headAddr xs (headAddr ys nxt) := by
  cases xs <;> rfl

@[simp] theorem lastAddr_append : lastAddr prev (xs ++ ys) = lastAddr (lastAddr prev xs) ys := by
  induction xs generalizing prev with
  | nil => rfl
  | cons s xs ih => exact ih

theorem lastAddr_eq_of_ne_nil (h : segs ≠ []) (p q : ℕ) : lastAddr p segs = lastAddr q segs := by
  cases segs with
  | nil => exact absurd rfl h
  | cons s rest => rfl

theorem headAddr_eq_of_ne_nil (h : segs ≠ []) (p q : ℕ) : headAddr segs p = headAddr segs q := by
  cases segs with
  | nil => exact absurd rfl h
  | cons s rest => rfl

theorem exists_mem_lastAddr (h : segs ≠ []) (prev : ℕ) :
    ∃ s ∈ segs, lastAddr prev segs = s.addr := by
  induction segs generalizing prev with
  | nil => exact absurd rfl h
  | cons s rest ih =>
    obtain rfl | hrest := eq_or_ne rest []
    · exact ⟨s, .head _, rfl⟩
    · obtain ⟨t, ht, heq⟩ := ih hrest s.addr
      exact ⟨t, .tail _ ht, heq⟩

/-! ### Tilings -/

@[simp] theorem tiles_nil : Tiles size lo [] hi ↔ lo = hi := Iff.rfl

@[simp] theorem tiles_cons :
    Tiles size lo (s :: segs) hi ↔ s.addr = lo ∧ Tiles size (s.stop size) segs hi := Iff.rfl

namespace Tiles

theorem append_iff :
    Tiles size lo (xs ++ ys) hi ↔ ∃ m, Tiles size lo xs m ∧ Tiles size m ys hi := by
  induction xs generalizing lo with
  | nil => simp
  | cons s xs ih => simp [ih, and_assoc]

theorem le (h : Tiles size lo segs hi) : lo ≤ hi := by
  induction segs generalizing lo with
  | nil => exact Nat.le_of_eq h
  | cons s segs ih =>
    have hrest := ih h.2
    have hlo : s.addr = lo := h.1
    unfold Segment.stop at hrest
    omega

theorem hi_eq (h : Tiles size lo segs hi) : hi = lo + (segs.map fun s => size + s.length).sum := by
  induction segs generalizing lo with
  | nil => exact h.symm
  | cons s segs ih =>
    obtain ⟨rfl, hrest⟩ := h
    rw [ih hrest, Segment.stop, List.map_cons, List.sum_cons]
    omega

theorem headAddr_eq (h : Tiles size lo segs hi) : headAddr segs hi = lo := by
  cases segs with
  | nil => exact h.symm
  | cons s segs => exact h.1

theorem around (h : Tiles size lo (pre ++ s :: post) hi) :
    Tiles size lo pre s.addr ∧ Tiles size (s.stop size) post hi := by
  obtain ⟨m, hpre, hs, hpost⟩ := append_iff.mp h
  exact ⟨hs ▸ hpre, hpost⟩

theorem mem_le (h : Tiles size lo segs hi) (hs : s ∈ segs) :
    lo ≤ s.addr ∧ s.addr + size + s.length ≤ hi := by
  obtain ⟨pre, post, rfl⟩ := List.append_of_mem hs
  exact ⟨h.around.1.le, h.around.2.le⟩

theorem eq_or_apart (h : Tiles size lo segs hi) (hs : s ∈ segs) (ht : t ∈ segs) :
    s = t ∨ s.addr + size + s.length ≤ t.addr ∨ t.addr + size + t.length ≤ s.addr := by
  obtain ⟨pre, post, rfl⟩ := List.append_of_mem hs
  obtain hpre | rfl | hpost := by simpa using ht
  · exact .inr (.inr (h.around.1.mem_le hpre).2)
  · exact .inl rfl
  · exact .inr (.inl (h.around.2.mem_le hpost).1)

theorem eq_of_addr_eq (h : Tiles size lo segs hi) (hsize : 0 < size) (hs : s ∈ segs)
    (ht : t ∈ segs) (hst : s.addr = t.addr) : s = t := by
  refine (h.eq_or_apart hs ht).resolve_right ?_
  omega

theorem pairwise_lt (h : Tiles size lo segs hi) (hsize : 0 < size) :
    segs.Pairwise fun s t => s.addr < t.addr := by
  induction segs generalizing lo with
  | nil => exact .nil
  | cons s segs ih =>
    refine .cons (fun t ht => ?_) (ih h.2)
    have hst := (mem_le h.2 ht).1
    unfold Segment.stop at hst
    omega

theorem stop_eq (h : Tiles size lo (s :: segs) hi) : s.stop size = headAddr segs hi :=
  (headAddr_eq h.2).symm

theorem addr_lt_of_mem (h : Tiles size lo (s :: segs) hi) (hsize : 0 < size) (ht : t ∈ segs) :
    s.addr < t.addr :=
  List.rel_of_pairwise_cons (h.pairwise_lt hsize) ht

theorem splice (h : Tiles size lo (pre ++ mid ++ post) hi)
    (hmid : ∀ a b, Tiles size a mid b → Tiles size a mid' b) :
    Tiles size lo (pre ++ mid' ++ post) hi := by
  obtain ⟨b, hpremid, hpost⟩ := append_iff.mp h
  obtain ⟨a, hpre, hm⟩ := append_iff.mp hpremid
  exact append_iff.mpr ⟨b, append_iff.mpr ⟨a, hpre, hmid a b hm⟩, hpost⟩

end Tiles

/-! ### Links -/

@[simp] theorem linked_nil : Linked view prev [] nxt := trivial

@[simp] theorem linked_cons : Linked view prev (s :: segs) nxt ↔
    view s.addr = ⟨prev, headAddr segs nxt, s.length, s.free⟩ ∧ Linked view s.addr segs nxt :=
  Iff.rfl

namespace Linked

theorem append_iff : Linked view prev (xs ++ ys) nxt ↔
    Linked view prev xs (headAddr ys nxt) ∧ Linked view (lastAddr prev xs) ys nxt := by
  induction xs generalizing prev with
  | nil => simp
  | cons s xs ih => simp [ih, and_assoc]

theorem view_eq (h : Linked view prev (pre ++ s :: post) nxt) :
    view s.addr = ⟨lastAddr prev pre, headAddr post nxt, s.length, s.free⟩ :=
  (append_iff.mp h).2.1

theorem congr (h : Linked view prev segs nxt) (heq : ∀ s ∈ segs, view' s.addr = view s.addr) :
    Linked view' prev segs nxt := by
  induction segs generalizing prev with
  | nil => trivial
  | cons s segs ih =>
    refine ⟨?_, ih h.2 fun t ht => heq t (.tail _ ht)⟩
    rw [heq s (.head _), h.1]

theorem relast {p q : ℕ} (h : Linked view p (s :: segs) nxt)
    (hhead : view' s.addr = { view s.addr with last := q })
    (htail : ∀ t ∈ segs, view' t.addr = view t.addr) : Linked view' q (s :: segs) nxt := by
  refine ⟨?_, congr h.2 htail⟩
  rw [hhead, h.1]

/-- Replacing the segments `mid` by `mid'`, which start at the same address. -/
theorem splice (h : Linked view prev (pre ++ mid ++ post) nxt)
    (hhead : headAddr mid' (headAddr post nxt) = headAddr mid (headAddr post nxt))
    (hpre : ∀ t ∈ pre, view' t.addr = view t.addr)
    (hmid : Linked view' (lastAddr prev pre) mid' (headAddr post nxt))
    (hpost : Linked view' (lastAddr (lastAddr prev pre) mid') post nxt) :
    Linked view' prev (pre ++ mid' ++ post) nxt := by
  obtain ⟨hpremid, -⟩ := append_iff.mp h
  obtain ⟨hp, -⟩ := append_iff.mp hpremid
  refine append_iff.mpr ⟨append_iff.mpr ⟨?_, hmid⟩, ?_⟩
  · rw [hhead]
    exact hp.congr hpre
  · rw [lastAddr_append]
    exact hpost

theorem unique {p q : ℕ} (hsize : 0 < size) (h : Linked view p xs 0) (h' : Linked view q ys 0)
    (ht : Tiles size lo xs hi) (ht' : Tiles size lo ys hi) : xs = ys := by
  induction xs generalizing ys p q lo with
  | nil =>
    cases ys with
    | nil => rfl
    | cons t ys =>
      have hle := ht'.2.le
      rw [tiles_nil] at ht
      rw [Segment.stop, ht'.1] at hle
      omega
  | cons s xs ih =>
    cases ys with
    | nil =>
      have hle := ht.2.le
      rw [tiles_nil] at ht'
      rw [Segment.stop, ht.1] at hle
      omega
    | cons t ys =>
      obtain ⟨addr, length, free⟩ := s
      obtain ⟨addr', length', free'⟩ := t
      obtain rfl : addr = addr' := ht.1.trans ht'.1.symm
      have hview := h.1.symm.trans h'.1
      obtain rfl : length = length' := congrArg Header.length hview
      obtain rfl : free = free' := congrArg Header.free hview
      rw [ih h.2 h'.2 ht.2 ht'.2]

end Linked

/-! ### Coalesced chains -/

/-- No two neighbouring segments are both free. -/
def Coalesced (segs : List Segment) : Prop :=
  segs.IsChain fun s t => s.free = false ∨ t.free = false

namespace Coalesced

theorem singleton (s : Segment) : Coalesced [s] := List.isChain_singleton s

theorem append_iff : Coalesced (xs ++ ys) ↔ Coalesced xs ∧ Coalesced ys ∧
    ∀ s ∈ xs.getLast?, ∀ t ∈ ys.head?, s.free = false ∨ t.free = false := List.isChain_append

theorem cons_iff : Coalesced (s :: segs) ↔
    (∀ t ∈ segs.head?, s.free = false ∨ t.free = false) ∧ Coalesced segs := List.isChain_cons

theorem cons_used (hs : s.free = false) (h : Coalesced segs) : Coalesced (s :: segs) :=
  cons_iff.mpr ⟨fun _ _ => .inl hs, h⟩

theorem append_cons (hst : s.free = t.free) (h : Coalesced (xs ++ [s]))
    (h' : Coalesced (t :: ys)) : Coalesced (xs ++ t :: ys) := by
  obtain ⟨hxs, -, hjoint⟩ := append_iff.mp h
  refine append_iff.mpr ⟨hxs, h', fun r hr u hu => ?_⟩
  obtain rfl := Option.some.inj hu
  rw [← hst]
  exact hjoint r hr s rfl

theorem append_used (hs : s.free = false) (h : Coalesced xs) (h' : Coalesced (s :: ys)) :
    Coalesced (xs ++ s :: ys) := by
  refine append_iff.mpr ⟨h, h', fun _ _ u hu => .inr ?_⟩
  rwa [← Option.some.inj hu]

theorem cons_congr (h : Coalesced (s :: segs)) (hst : s.free = t.free) : Coalesced (t :: segs) :=
  cons_iff.mpr ⟨hst ▸ (cons_iff.mp h).1, (cons_iff.mp h).2⟩

theorem cons_behind_free (hs : s.free = true) (h : Coalesced (s :: segs)) (t : Segment) :
    Coalesced (t :: segs) := by
  obtain ⟨hhead, hsegs⟩ := cons_iff.mp h
  refine cons_iff.mpr ⟨fun u hu => .inr ?_, hsegs⟩
  exact (hhead u hu).resolve_left (by rw [hs]; decide)

theorem eq_singleton (h : Coalesced segs) (hne : segs ≠ []) (hfree : ∀ s ∈ segs, s.free = true) :
    ∃ s, segs = [s] := by
  obtain ⟨s, rest, rfl⟩ := List.exists_cons_of_ne_nil hne
  cases rest with
  | nil => exact ⟨s, rfl⟩
  | cons t rest =>
    have hs := hfree s (by simp)
    have ht := hfree t (by simp)
    have hor := (cons_iff.mp h).1 t rfl
    rw [hs, ht] at hor
    simp at hor

/-- Behind a free segment there is one in use, or the end. -/
theorem headAddr_le (hx : Coalesced (s :: xs)) (hs : s.free = true)
    (htx : Tiles size lo (s :: xs) hi) (hty : Tiles size lo (t :: ys) hi) (ht : t.free = true)
    (hused : ∀ u, u.free = false → u ∈ s :: xs → u ∈ t :: ys) :
    headAddr ys hi ≤ headAddr xs hi := by
  cases xs with
  | nil =>
    rw [← hty.stop_eq]
    exact hty.2.le
  | cons u xs =>
    have hu : u.free = false := ((cons_iff.mp hx).1 u rfl).resolve_left (by rw [hs]; decide)
    obtain rfl | hmem := List.mem_cons.mp (hused u hu (by simp))
    · exact absurd ht (by rw [hu]; decide)
    · rw [headAddr_cons, ← hty.stop_eq]
      exact (hty.2.mem_le hmem).1

/-- **The segments in use determine a coalesced tiling**: the free ones fill the gaps. -/
theorem unique (hsize : 0 < size) (htx : Tiles size lo xs hi) (hty : Tiles size lo ys hi)
    (hx : Coalesced xs) (hy : Coalesced ys) (hused : ∀ u, u.free = false → (u ∈ xs ↔ u ∈ ys)) :
    xs = ys := by
  induction xs generalizing ys lo with
  | nil =>
    cases ys with
    | nil => rfl
    | cons t ys =>
      have hle := (hty.mem_le (.head _)).2
      have hlo := hty.1
      rw [tiles_nil] at htx
      omega
  | cons s xs ih =>
    cases ys with
    | nil =>
      have hle := (htx.mem_le (.head _)).2
      have hlo := htx.1
      rw [tiles_nil] at hty
      omega
    | cons t ys =>
      have haddr : s.addr = t.addr := htx.1.trans hty.1.symm
      -- if both are free, neither stops before the other, and else the one in use is in both lists
      have hst : s = t := by
        cases hs : s.free with
        | false => exact hty.eq_of_addr_eq hsize ((hused s hs).mp (.head _)) (.head _) haddr
        | true =>
          cases ht : t.free with
          | false => exact htx.eq_of_addr_eq hsize (.head _) ((hused t ht).mpr (.head _)) haddr
          | true =>
            have hle := headAddr_le hx hs htx hty ht fun u hu => (hused u hu).mp
            have hle' := headAddr_le hy ht hty htx hs fun u hu => (hused u hu).mpr
            have hstop := htx.stop_eq
            have hstop' := hty.stop_eq
            obtain ⟨addr, length, free⟩ := s
            obtain ⟨addr', length', free'⟩ := t
            simp only [Segment.stop, Segment.mk.injEq] at *
            exact ⟨haddr, by omega, hs.trans ht.symm⟩
      subst hst
      congr 1
      refine ih htx.2 hty.2 (cons_iff.mp hx).2 (cons_iff.mp hy).2 fun u hu => ?_
      have hiff := hused u hu
      have hne : u ∈ xs ∨ u ∈ ys → u ≠ s := by
        rintro (hmem | hmem) rfl
        · exact absurd (htx.addr_lt_of_mem hsize hmem) (lt_irrefl _)
        · exact absurd (hty.addr_lt_of_mem hsize hmem) (lt_irrefl _)
      constructor
      · intro hmem
        exact List.mem_of_ne_of_mem (hne (.inl hmem)) (hiff.mp (.tail _ hmem))
      · intro hmem
        exact List.mem_of_ne_of_mem (hne (.inr hmem)) (hiff.mpr (.tail _ hmem))

end Coalesced

end SegmentChain
