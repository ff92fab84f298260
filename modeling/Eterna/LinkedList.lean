import Eterna.Library.LinkedNodes
import Eterna.Library.Runs
import Eterna.Memory.Common
import Mathlib.Data.Finset.Card
import Mathlib.Order.Interval.Finset.Nat

/-!
# The singly linked list

`SinglyLinkedList` of `linked_list.hpp`, with `ass(value)` in `add_end` read as `add(value)`.  The
nodes are kept by address; a node that has been deleted is no longer there, and an operation that
reads or writes one has no result.

* `Represents l xs` : the nodes from `Head` on hold `xs`, `Length` is their number, `Tail` the last;
* `Represents.add`, `Represents.addEnd`, `Represents.remove` : each operation does to the nodes what
  it is to do to the sequence;
* `list_refines_iff` : except `remove(0)` on a list of one element, which leaves `Tail` where it
  was.
-/

namespace Eterna

open LinkedNodes Runs

/-- `SinglyLinkedList<T>`, with the nodes that are allocated. -/
structure SinglyLinkedList (α : Type) where
  /-- `Length`. -/
  length : ℕ
  /-- `Head`. -/
  head : ℕ
  /-- `Tail`. -/
  tail : ℕ
  /-- The nodes on the heap. -/
  nodes : Nodes α

namespace SinglyLinkedList

variable {α : Type}

/-- A list that has just been constructed. -/
def empty : SinglyLinkedList α := ⟨0, 0, 0, fun _ => none⟩

/-- `add(value)`, where `new Node` returns `new`. -/
def add (l : SinglyLinkedList α) (new : ℕ) (value : α) : SinglyLinkedList α :=
  if new ≠ 0 then
    { nodes := Function.update l.nodes new (some ⟨value, l.head⟩)
      head := new
      tail := if l.tail = 0 then new else l.tail
      length := add64 l.length 1 }
  else l

/-- `add_end(value)`, where `new Node` returns `new`. -/
def addEnd (l : SinglyLinkedList α) (new : ℕ) (value : α) : Option (SinglyLinkedList α) :=
  if l.head = 0 then some (l.add new value)
  else if new ≠ 0 then do
    let nodes := Function.update l.nodes new (some ⟨value, 0⟩)
    let tail := if l.tail = 0 then l.head else l.tail
    let last ← nodes tail
    let nodes := Function.update nodes tail (some ⟨last.data, new⟩)
    let last ← nodes tail
    some { l with nodes := nodes, tail := last.next, length := add64 l.length 1 }
  else some l

/-- The first two statements in the loop of `remove`: `current` and `next` move on. -/
def advance (nodes : Nodes α) (current next : ℕ) : Option (ℕ × ℕ) := do
  let node ← nodes current
  if node.next = 0 then some (0, next) else (nodes node.next).map fun n => (node.next, n.next)

/-- The loop of `remove` with `index - i` iterations to go before it breaks: the cursors `prev`,
`current` and `next` at its end. -/
def walk (nodes : Nodes α) : ℕ → ℕ → ℕ → ℕ → Option (ℕ × ℕ × ℕ)
  | 0, prev, current, next =>
    if current = 0 then some (prev, current, next)
    else (advance nodes current next).map fun r => (prev, r.1, r.2)
  | k + 1, prev, current, next =>
    if current = 0 then some (prev, current, next)
    else (advance nodes current next).bind fun r => walk nodes k r.1 r.1 r.2

/-- `delete node`. -/
def delete (nodes : Nodes α) (node : ℕ) : Nodes α :=
  if node = 0 then nodes else Function.update nodes node none

/-- `remove(index)`. -/
def remove (l : SinglyLinkedList α) (index : ℕ) : Option (SinglyLinkedList α × Bool) :=
  if l.length ≤ index then some (l, false)
  else if index = 0 then
    if l.head ≠ 0 then do
      let old ← l.nodes l.head
      some ({ l with head := old.next, length := sub64 l.length 1, nodes := delete l.nodes l.head },
        true)
    else some ({ l with tail := 0 }, true)
  else do
    let first ← l.nodes l.head
    let (prev, current, next) ← walk l.nodes (index - 1) l.head l.head first.next
    let node ← l.nodes prev
    let nodes := Function.update l.nodes prev (some ⟨node.data, next⟩)
    some ({ l with
      tail := if next = 0 then prev else l.tail
      nodes := delete nodes current
      length := sub64 l.length 1 }, true)

/-! ### The sequence that a list represents -/

/-- The address of the last node, or zero. -/
def lastCell (cells : List (ℕ × α)) : ℕ := cells.getLast?.elim 0 Prod.fst

/-- The nodes that are reached from `Head` hold `xs` in order, `Length` is their number, and `Tail`
is the last of them, or `nullptr` if there is none. -/
def Represents (l : SinglyLinkedList α) (xs : List α) : Prop :=
  ∃ cells, Path l.nodes l.head cells 0 ∧ cells.map Prod.snd = xs ∧ l.length = xs.length ∧
    l.tail = lastCell cells

/-- All nodes lie in the address space. -/
def Bounded (nodes : Nodes α) : Prop := ∀ a, nodes a ≠ none → a < 2 ^ 64

/-- An address that `new Node` may return. -/
structure Fresh (l : SinglyLinkedList α) (new : ℕ) : Prop where
  ne_zero : new ≠ 0
  lt : new < 2 ^ 64
  unused : l.nodes new = none

variable {l l' : SinglyLinkedList α} {xs : List α} {cells rest pre post : List (ℕ × α)}
  {new i k p c d a : ℕ} {v x y : α} {nodes : Nodes α}

@[simp] theorem lastCell_nil : lastCell ([] : List (ℕ × α)) = 0 := rfl

@[simp] theorem lastCell_concat (cells : List (ℕ × α)) (cell : ℕ × α) :
    lastCell (cells ++ [cell]) = cell.1 := by
  rw [lastCell, List.getLast?_concat]
  rfl

theorem lastCell_append (hne : post ≠ []) : lastCell (pre ++ post) = lastCell post := by
  rw [lastCell, List.getLast?_append_of_ne_nil _ hne]
  rfl

theorem lastCell_cons (hne : post ≠ []) (cell : ℕ × α) :
    lastCell (cell :: post) = lastCell post := by
  rw [← List.singleton_append]
  exact lastCell_append hne

theorem lastCell_eq_zero_iff (h : Path nodes a cells 0) : lastCell cells = 0 ↔ cells = [] := by
  obtain rfl | ⟨cells, cell, rfl⟩ := List.eq_nil_or_concat cells
  · exact iff_of_true rfl rfl
  · rw [List.concat_eq_append] at h ⊢
    rw [lastCell_concat]
    exact iff_of_false (h.ne_zero (by simp)) (by simp)

/-- There are fewer nodes than addresses, so that `Length` does not wrap. -/
theorem Bounded.length_lt (hb : Bounded nodes) (h : Path nodes a cells 0) :
    cells.length < 2 ^ 64 := by
  have hsub : (cells.map Prod.fst).toFinset ⊆ Finset.Ioo 0 (2 ^ 64) := by
    intro b hb'
    obtain ⟨cell, hcell, rfl⟩ := List.mem_map.mp (List.mem_toFinset.mp hb')
    exact Finset.mem_Ioo.mpr ⟨Nat.pos_of_ne_zero (h.ne_zero hcell), hb _ (h.isSome hcell)⟩
  have hcard := Finset.card_le_card hsub
  rw [List.toFinset_card_of_nodup h.nodup, List.length_map, Nat.card_Ioo] at hcard
  omega

theorem Fresh.ne (hf : l.Fresh new) (h : Path l.nodes a cells c) {cell : ℕ × α}
    (hcell : cell ∈ cells) : cell.1 ≠ new := by
  rintro rfl
  exact h.isSome hcell hf.unused

theorem Bounded.update (hb : Bounded nodes) (hlt : a < 2 ^ 64) (node : Option (Node α)) :
    Bounded (Function.update nodes a node) := by
  intro b hsome
  by_cases hba : b = a
  · exact hba ▸ hlt
  · rw [Function.update_of_ne hba] at hsome
    exact hb b hsome

/-! ### The operations -/

theorem Represents.add (h : l.Represents xs) (hb : Bounded l.nodes) (hf : l.Fresh new) (v : α) :
    (l.add new v).Represents (v :: xs) ∧ Bounded (l.add new v).nodes := by
  obtain ⟨cells, hpath, rfl, hlen, htail⟩ := h
  have hnew := hf.ne_zero
  have hpath' :
      Path (Function.update l.nodes new (some ⟨v, l.head⟩)) new ((new, v) :: cells) 0 := by
    refine ⟨rfl, hnew, l.head, Function.update_self .., hpath.congr fun cell hcell => ?_⟩
    exact Function.update_of_ne (hf.ne hpath hcell) ..
  have hb' := hb.update hf.lt (some ⟨v, l.head⟩)
  have hlt := hb'.length_lt hpath'
  rw [SinglyLinkedList.add, if_pos hnew]
  refine ⟨⟨(new, v) :: cells, hpath', rfl, ?_, ?_⟩, hb'⟩
  · simp only [List.length_cons, List.length_map] at hlen hlt ⊢
    rw [hlen]
    exact add64_of_lt hlt
  · have hzero := lastCell_eq_zero_iff hpath
    dsimp only
    rw [htail]
    split
    next h => rw [hzero.mp h]; rfl
    next h => exact (lastCell_cons (fun hnil => h (hzero.mpr hnil)) _).symm

theorem Represents.addEnd (h : l.Represents xs) (hb : Bounded l.nodes) (hf : l.Fresh new) (v : α) :
    ∃ l', l.addEnd new v = some l' ∧ l'.Represents (xs ++ [v]) ∧ Bounded l'.nodes := by
  by_cases hhead : l.head = 0
  · have hadd := h.add hb hf v
    obtain ⟨cells, hpath, rfl, -⟩ := h
    obtain rfl := hpath.eq_zero_iff.mp hhead
    exact ⟨_, if_pos hhead, hadd⟩
  · obtain ⟨cells, hpath, rfl, hlen, htail⟩ := h
    obtain rfl | ⟨cells, ⟨t, x⟩, rfl⟩ := List.eq_nil_or_concat cells
    · exact absurd hpath hhead
    rw [List.concat_eq_append] at hpath hlen htail ⊢
    rw [lastCell_concat] at htail
    obtain ⟨ht0, -, next, hnode, -⟩ := hpath.middle
    have hmem : (t, x) ∈ cells ++ [(t, x)] := by simp
    have htnew : t ≠ new := hf.ne hpath hmem
    have htlast : ∀ cell ∈ cells, cell.1 ≠ t := fun cell hcell =>
      hpath.ne_middle (List.mem_append_left _ hcell)
    -- the new node is made, and then the last one is redirected to it
    have hmade : Function.update l.nodes new (some ⟨v, 0⟩) t = some ⟨x, next⟩ := by
      rw [Function.update_of_ne htnew, hnode]
    obtain ⟨nodes, hnodes⟩ : ∃ nodes, nodes = Function.update (Function.update l.nodes new
      (some ⟨v, 0⟩)) t (some ⟨x, new⟩) := ⟨_, rfl⟩
    have hb' : Bounded nodes :=
      hnodes ▸ (hb.update hf.lt _).update (hb t (by rw [hnode]; exact Option.some_ne_none _)) _
    have hself : nodes t = some ⟨x, new⟩ := by rw [hnodes, Function.update_self]
    have hpath' : Path nodes l.head ((cells ++ [(t, x)]) ++ [(new, v)]) 0 := by
      refine Path.append_iff.mpr ⟨new, hpath.relink hself fun cell hcell => ?_,
        rfl, hf.ne_zero, 0, ?_, rfl⟩
      · rw [hnodes, Function.update_of_ne (htlast cell hcell),
          Function.update_of_ne (hf.ne hpath (by simp [hcell]))]
      · rw [hnodes, Function.update_of_ne htnew.symm, Function.update_self]
    have hlt := hb'.length_lt hpath'
    refine ⟨⟨add64 l.length 1, l.head, new, nodes⟩, ?_, ⟨_, hpath', by simp, ?_, ?_⟩, hb'⟩
    · rw [SinglyLinkedList.addEnd, if_neg hhead, if_pos hf.ne_zero, htail, if_neg ht0]
      simp only [hmade, Option.bind_eq_bind, Option.bind_some, ← hnodes, hself]
    · simp only [List.length_append, List.length_map, List.length_singleton] at hlen hlt ⊢
      rw [hlen]
      exact add64_of_lt hlt
    · rw [lastCell_concat]

theorem path_delete (h : Path nodes a cells c) (hp : ∀ cell ∈ cells, cell.1 ≠ p) :
    Path (delete nodes p) a cells c := by
  refine h.congr fun cell hcell => ?_
  rw [SinglyLinkedList.delete]
  split
  · rfl
  · exact Function.update_of_ne (hp cell hcell) ..

theorem Bounded.delete (hb : Bounded nodes) (p : ℕ) : Bounded (delete nodes p) := by
  intro b hsome
  rw [SinglyLinkedList.delete] at hsome
  split at hsome
  · exact hb b hsome
  · by_cases hbp : b = p
    · rw [hbp, Function.update_self] at hsome
      exact absurd rfl hsome
    · rw [Function.update_of_ne hbp] at hsome
      exact hb b hsome

/-- `remove(0)` takes the first value away; but when it was the only one, `Tail` stays. -/
theorem Represents.removeHead (h : l.Represents (v :: xs)) (hb : Bounded l.nodes) :
    ∃ l', l.remove 0 = some (l', true) ∧ Bounded l'.nodes ∧
      (xs ≠ [] → l'.Represents xs) ∧ (xs = [] → ∀ ys, ¬ l'.Represents ys) := by
  obtain ⟨cells, hpath, hxs, hlen, htail⟩ := h
  obtain ⟨⟨c, x⟩, cells, rfl, rfl, rfl⟩ := List.map_eq_cons_iff.mp hxs
  have hlt := hb.length_lt hpath
  have hother : ∀ cell ∈ cells, cell.1 ≠ c := by
    have hfirst : Path l.nodes l.head ([] ++ (c, x) :: cells) 0 := hpath
    exact fun cell hcell => hfirst.ne_middle hcell
  obtain ⟨hc, hc0, next, hnode, hrest⟩ := hpath
  have hrest' : Path (delete l.nodes l.head) next cells 0 := path_delete hrest (hc ▸ hother)
  have hlen' : l.length = cells.length + 1 := by simpa using hlen
  rw [List.length_cons] at hlt
  refine ⟨⟨sub64 l.length 1, next, l.tail, delete l.nodes l.head⟩, ?_, hb.delete _, fun hne => ?_,
    fun hnil ys hys => ?_⟩
  · have hhead : l.head ≠ 0 := hc ▸ hc0
    rw [SinglyLinkedList.remove, if_neg (by omega), if_pos rfl, if_pos hhead, hc, hnode]
    rfl
  · refine ⟨cells, hrest', rfl, ?_, ?_⟩
    · rw [List.length_map, hlen']
      exact sub64_of_le (by omega) hlt
    · rw [htail]
      exact lastCell_cons (fun h => hne (by rw [h]; rfl)) _
  · -- nothing is reached from `Head`, so `Tail` would have to be null
    obtain rfl := List.map_eq_nil_iff.mp hnil
    obtain ⟨cells', hpath', -, -, htail'⟩ := hys
    obtain rfl := hpath'.eq_zero_iff.mp hrest
    have hzero : l.tail = 0 := htail'
    rw [htail] at hzero
    exact hc0 hzero

/-- The loop of `remove` stops with `prev` and `current` on the nodes in question. -/
theorem walk_eq (h : Path nodes a (pre ++ (p, x) :: (c, y) :: post) 0) :
    ∃ next, nodes c = some ⟨y, next⟩ ∧ Path nodes next post 0 ∧
      ∀ old, walk nodes pre.length a a old = some (p, c, next) := by
  induction pre generalizing a with
  | nil =>
    obtain ⟨rfl, hp0, d, hp, rfl, hc0, next, hc, hpost⟩ := h
    refine ⟨next, hc, hpost, fun old => ?_⟩
    rw [List.length_nil, walk, if_neg hp0, advance]
    simp only [hp, Option.bind_eq_bind, Option.bind_some, if_neg hc0, hc, Option.map_some]
  | cons cell pre ih =>
    obtain ⟨rfl, he0, e, he, hrest⟩ := h
    obtain ⟨next, hc, hpost, hwalk⟩ := ih hrest
    refine ⟨next, hc, hpost, fun old => ?_⟩
    -- one iteration, and then the rest of the path
    obtain ⟨f, hadvance⟩ : ∃ f, advance nodes cell.1 old = some (e, f) := by
      have he' : e ≠ 0 := fun h0 => by simpa using hrest.eq_zero_iff.mp h0
      obtain ⟨node, hnode⟩ := hrest.exists_head (by simp)
      refine ⟨node.next, ?_⟩
      rw [advance, he]
      simp only [Option.bind_eq_bind, Option.bind_some, if_neg he', hnode, Option.map_some]
    rw [List.length_cons, walk, if_neg he0, hadvance, Option.bind_some]
    exact hwalk f

/-- `remove` takes a value further behind away. -/
theorem Represents.removeAt (h : l.Represents xs) (hb : Bounded l.nodes) (hi : i + 1 < xs.length) :
    ∃ l', l.remove (i + 1) = some (l', true) ∧ l'.Represents (xs.eraseIdx (i + 1)) ∧
      Bounded l'.nodes := by
  obtain ⟨cells, hpath, rfl, hlen, htail⟩ := h
  have hlt := hb.length_lt hpath
  rw [List.length_map] at hi hlen
  -- cut the path in front of the node before the one that goes
  obtain ⟨pre, p, x, c, y, post, hcells, hpre⟩ : ∃ pre p x c y post,
      cells = pre ++ (p, x) :: (c, y) :: post ∧ pre.length = i := by
    refine ⟨cells.take i, cells[i].1, cells[i].2, cells[i + 1].1, cells[i + 1].2,
      cells.drop (i + 2), ?_, List.length_take_of_le (by omega)⟩
    rw [List.getElem_cons_drop hi, List.getElem_cons_drop (by omega), List.take_append_drop]
  subst hcells hpre
  obtain ⟨hp0, -, d, hp, -⟩ := hpath.middle
  obtain ⟨next, hc, hpost, hwalk⟩ := walk_eq hpath
  obtain ⟨first, hfirst⟩ := hpath.exists_head (by simp)
  -- the node in front is redirected, and then the one in question is deleted
  obtain ⟨nodes, hnodes⟩ :
    ∃ nodes, nodes = Function.update l.nodes p (some ⟨x, next⟩) := ⟨_, rfl⟩
  have hpath' : Path (delete nodes c) l.head ((pre ++ [(p, x)]) ++ post) 0 := by
    refine path_delete ?_ fun cell hcell => ?_
    · rw [hnodes, ← List.append_cons]
      exact hpath.bypass hpost
    · rw [List.append_cons] at hpath
      exact hpath.ne_middle hcell
  have hb' : Bounded (delete nodes c) :=
    hnodes ▸ ((hb.update (hb p (by rw [hp]; exact Option.some_ne_none _)) _).delete c)
  simp only [List.length_append, List.length_cons] at hi hlen hlt
  refine ⟨⟨sub64 l.length 1, l.head, if next = 0 then p else l.tail, delete nodes c⟩, ?_,
    ⟨_, hpath', ?_, ?_, ?_⟩, hb'⟩
  · rw [SinglyLinkedList.remove, if_neg (by omega), if_neg (Nat.succ_ne_zero _)]
    simp only [Nat.add_sub_cancel, hfirst, hwalk, hp, ← hnodes, Option.bind_eq_bind,
      Option.bind_some]
  · simp only [List.map_append, List.map_cons]
    rw [List.eraseIdx_append_of_length_le (by simp)]
    simp
  · rw [hlen, sub64_of_le (by omega) (by omega), List.length_eraseIdx_of_lt (by simp)]
    simp
  · have hnil := hpost.eq_zero_iff
    dsimp only
    split
    next h => rw [hnil.mp h, List.append_nil, lastCell_concat]
    next h =>
      have hne : post ≠ [] := fun h' => h (hnil.mpr h')
      rw [htail, lastCell_append hne, lastCell_append (List.cons_ne_nil _ _),
        lastCell_cons (List.cons_ne_nil _ _), lastCell_cons hne]

/-! ### Runs -/

/-- The operations, with what `new Node` returns. -/
inductive ListOp (α : Type) where
  /-- `add(value)`. -/
  | add (new : ℕ) (value : α)
  /-- `add_end(value)`. -/
  | addEnd (new : ℕ) (value : α)
  /-- `remove(index)`. -/
  | remove (index : ℕ)

/-- What the operation does to the list. -/
def apply (l : SinglyLinkedList α) : ListOp α → Option (SinglyLinkedList α)
  | .add new value => some (l.add new value)
  | .addEnd new value => l.addEnd new value
  | .remove index => (l.remove index).map Prod.fst

/-- The allocation succeeds. -/
def Allocates (l : SinglyLinkedList α) : ListOp α → Prop
  | .add new _ => l.Fresh new
  | .addEnd new _ => l.Fresh new
  | .remove _ => True

/-- What the operation is to do to the sequence. -/
def ListOp.on (xs : List α) : ListOp α → List α
  | .add _ value => value :: xs
  | .addEnd _ value => xs ++ [value]
  | .remove index => xs.eraseIdx index

/-- The sequence that the operations are to build. -/
def contents (ops : List (ListOp α)) : List α := ops.foldl ListOp.on []

/-- An operation whose allocation succeeds. -/
def ListStep (l : SinglyLinkedList α) (op : ListOp α) (l' : SinglyLinkedList α) : Prop :=
  l.Allocates op ∧ l.apply op = some l'

/-- The operation does not remove the only element. -/
def Safe (l : SinglyLinkedList α) (op : ListOp α) : Prop := op = .remove 0 → l.length ≠ 1

/-- An operation that does not remove the only element. -/
def SafeStep (l : SinglyLinkedList α) (op : ListOp α) (l' : SinglyLinkedList α) : Prop :=
  l.Safe op ∧ l.ListStep op l'

theorem represents_empty : (empty : SinglyLinkedList α).Represents [] := ⟨[], rfl, rfl, rfl, rfl⟩

theorem bounded_empty : Bounded (empty : SinglyLinkedList α).nodes := fun _ h => absurd rfl h

theorem contents_concat (ops : List (ListOp α)) (op : ListOp α) :
    contents (ops ++ [op]) = op.on (contents ops) := List.foldl_concat ..

/-- Every operation does what it is to do to the sequence, unless it removes the only element. -/
theorem Represents.apply (h : l.Represents xs) (hb : Bounded l.nodes) {op : ListOp α}
    (hop : l.Allocates op) :
    ∃ l', l.apply op = some l' ∧ Bounded l'.nodes ∧ (l'.Represents (op.on xs) ↔ l.Safe op) := by
  have hlen : l.length = xs.length := h.choose_spec.2.2.1
  cases op with
  | add new value =>
    obtain ⟨hadd, hb'⟩ := h.add hb hop value
    exact ⟨_, rfl, hb', iff_of_true hadd nofun⟩
  | addEnd new value =>
    obtain ⟨l', hl', hadd, hb'⟩ := h.addEnd hb hop value
    exact ⟨l', hl', hb', iff_of_true hadd nofun⟩
  | remove index =>
    by_cases hindex : xs.length ≤ index
    · -- there is nothing at `index`
      refine ⟨l, ?_, hb, iff_of_true ?_ fun hzero => ?_⟩
      · rw [SinglyLinkedList.apply, SinglyLinkedList.remove, if_pos (hlen ▸ hindex)]
        rfl
      · rwa [ListOp.on, List.eraseIdx_of_length_le hindex]
      · obtain rfl := (ListOp.remove.inj hzero)
        omega
    cases index with
    | zero =>
      obtain ⟨v, xs, rfl⟩ := List.exists_cons_of_ne_nil (l := xs) (by rintro rfl; simp at hindex)
      obtain ⟨l', hl', hb', hkept, hlost⟩ := h.removeHead hb
      refine ⟨l', by rw [SinglyLinkedList.apply, hl']; rfl, hb', fun hrep _ hone => ?_,
        fun hsafe => hkept ?_⟩
      · refine hlost (List.length_eq_zero_iff.mp ?_) _ hrep
        rw [List.length_cons] at hlen
        omega
      · rintro rfl
        exact hsafe rfl hlen
    | succ i =>
      obtain ⟨l', hl', hrep, hb'⟩ := h.removeAt hb (Nat.lt_of_not_le hindex)
      exact ⟨l', by rw [SinglyLinkedList.apply, hl']; rfl, hb', iff_of_true hrep nofun⟩

theorem run_represents {ops : List (ListOp α)}
    (h : Run SafeStep (empty : SinglyLinkedList α) ops l) :
    l.Represents (contents ops) ∧ Bounded l.nodes := by
  refine h.trace_invariant (I := fun ops l => l.Represents (contents ops) ∧ Bounded l.nodes)
    ⟨represents_empty, bounded_empty⟩ fun ops l op l' ⟨hrep, hb⟩ ⟨hsafe, halloc, hl'⟩ => ?_
  obtain ⟨l'', hl'', hb', hrep'⟩ := hrep.apply hb halloc
  obtain rfl := Option.some.inj (hl'.symm.trans hl'')
  exact ⟨contents_concat ops op ▸ hrep'.mpr hsafe, hb'⟩

/-- The list represents the sequence that its operations are to build as long as no `remove` takes
the only element away; and one that does makes the list represent another. -/
theorem list_refines_iff {ops : List (ListOp α)}
    (h : Run SafeStep (empty : SinglyLinkedList α) ops l) :
    l.Represents (contents ops) ∧ ∀ op, l.Allocates op →
      ∃ l', l.apply op = some l' ∧ (l'.Represents (contents (ops ++ [op])) ↔ l.Safe op) := by
  obtain ⟨hrep, hb⟩ := run_represents h
  refine ⟨hrep, fun op hop => ?_⟩
  obtain ⟨l', hl', -, hiff⟩ := hrep.apply hb hop
  exact ⟨l', hl', contents_concat ops op ▸ hiff⟩

/-- Two elements, put in from the front. -/
theorem list_refines_iff_small : ∃ l : SinglyLinkedList ℕ,
    Run SafeStep empty ([.add 16 5] ++ [.add 32 6]) l ∧ l.Represents [6, 5] := by
  have hfirst : SafeStep (empty : SinglyLinkedList ℕ) (.add 16 5) (empty.add 16 5) :=
    ⟨nofun, ⟨by decide, by decide, rfl⟩, rfl⟩
  have hsecond : SafeStep ((empty : SinglyLinkedList ℕ).add 16 5) (.add 32 6) _ :=
    ⟨nofun, ⟨by decide, by decide, by decide⟩, rfl⟩
  have hrun := (Run.single hfirst).append (.single hsecond)
  exact ⟨_, hrun, (list_refines_iff hrun).1⟩

/-- Once its only element has been taken away, the list still has a `Tail`: the node that was
deleted. -/
theorem tail_after_remove : ∃ l : SinglyLinkedList ℕ,
    Run ListStep empty ([.add 16 5] ++ [.remove 0]) l ∧
      contents ([.add 16 5] ++ [.remove 0]) = ([] : List ℕ) ∧
      l.head = 0 ∧ l.tail = 16 ∧ l.nodes 16 = none ∧ ¬ l.Represents [] := by
  have hfirst : ListStep (empty : SinglyLinkedList ℕ) (.add 16 5) (empty.add 16 5) :=
    ⟨⟨by decide, by decide, rfl⟩, rfl⟩
  have hsecond : ListStep ((empty : SinglyLinkedList ℕ).add 16 5) (.remove 0) _ := ⟨trivial, rfl⟩
  refine ⟨_, (Run.single hfirst).append (.single hsecond), rfl, rfl, rfl, rfl, ?_⟩
  rintro ⟨cells, hpath, -, -, htail⟩
  obtain rfl := hpath.eq_zero_iff.mp rfl
  exact absurd htail (by decide)

end SinglyLinkedList

end Eterna
