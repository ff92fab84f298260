import Eterna.LinkedList

/-!
# What a list owns

The rest of `linked_list.hpp`: `at`, `for_each` and the destructor, and with them what becomes of
the nodes that the list has allocated.

* `atLoop_eq`, `forEach_eq`, `destroy_eq` : the three loops along the nodes;
* `Holds.apply` : a list that represents a sequence has no more nodes than that has elements;
* `list_owns_nodes` : so the destructor deletes every node that was allocated and not deleted
  before, each once.
-/

namespace Eterna

open LinkedNodes Runs

namespace SinglyLinkedList

variable {α : Type}

/-- The loop of `at`, with at most `index` iterations to go: the last node that `out` is set to. -/
def atLoop (nodes : Nodes α) : ℕ → ℕ → ℕ → Option ℕ
  | 0, _, out => some out
  | index + 1, it, out =>
    if it = 0 then some out else (nodes it).bind fun node => atLoop nodes index node.next it

/-- `at(index)`.  There is no result if `out` is null at the end. -/
def atIndex (l : SinglyLinkedList α) (index : ℕ) : Option α := do
  let out ← atLoop l.nodes (add64 index 1) l.head 0
  if out = 0 then none else (l.nodes out).map Node.data

/-- `for_each`: the values of the nodes that the callback is called on. -/
def forEach (nodes : Nodes α) : ℕ → ℕ → Option (List α)
  | 0, _ => none
  | fuel + 1, it =>
    if it = 0 then some []
    else (nodes it).bind fun node => (forEach nodes fuel node.next).map (node.data :: ·)

/-- The loop of `~SinglyLinkedList()`.  There is no result if a node is read that is not there. -/
def destroy : ℕ → Nodes α → ℕ → Option (Nodes α)
  | 0, _, _ => none
  | fuel + 1, nodes, head =>
    if head = 0 then some nodes
    else (nodes head).bind fun node => destroy fuel (delete nodes head) node.next

variable {l l' : SinglyLinkedList α} {xs : List α} {cells : List (ℕ × α)} {nodes : Nodes α}
  {a fuel index new : ℕ}

/-! ### The loops -/

theorem atLoop_eq (h : Path nodes a cells 0) (out : ℕ) :
    atLoop nodes index a out = some ((cells.take index).getLast?.elim out Prod.fst) := by
  induction cells generalizing index a out with
  | nil =>
    obtain rfl : a = 0 := h
    cases index <;> rfl
  | cons cell cells ih =>
    cases index with
    | zero => rfl
    | succ index =>
      obtain ⟨rfl, hc, next, hnode, hrest⟩ := h
      rw [atLoop, if_neg hc, hnode, Option.bind_some, ih hrest, List.take_succ_cons,
        List.getLast?_cons]
      cases (cells.take index).getLast? <;> rfl

theorem forEach_eq (h : Path nodes a cells 0) (hfuel : cells.length < fuel) :
    forEach nodes fuel a = some (cells.map Prod.snd) := by
  induction cells generalizing fuel a with
  | nil =>
    obtain ⟨fuel, rfl⟩ := Nat.exists_eq_succ_of_ne_zero (Nat.ne_of_gt hfuel)
    exact if_pos h
  | cons cell cells ih =>
    obtain ⟨fuel, rfl⟩ := Nat.exists_eq_succ_of_ne_zero (Nat.ne_of_gt (Nat.zero_lt_of_lt hfuel))
    obtain ⟨rfl, hc, next, hnode, hrest⟩ := h
    rw [forEach, if_neg hc, hnode, Option.bind_some, ih hrest (Nat.lt_of_succ_lt_succ hfuel)]
    rfl

theorem delete_eq (hne : a ≠ 0) : delete nodes a = Function.update nodes a none := if_neg hne

/-- **The destructor** deletes the nodes on the way from `Head`, and no others. -/
theorem destroy_eq (h : Path nodes a cells 0) (hfuel : cells.length < fuel) :
    ∃ nodes', destroy fuel nodes a = some nodes' ∧
      ∀ b, nodes' b = if b ∈ cells.map Prod.fst then none else nodes b := by
  induction cells generalizing fuel a nodes with
  | nil =>
    obtain ⟨fuel, rfl⟩ := Nat.exists_eq_succ_of_ne_zero (Nat.ne_of_gt hfuel)
    exact ⟨nodes, if_pos h, fun b => by simp⟩
  | cons cell cells ih =>
    obtain ⟨fuel, rfl⟩ := Nat.exists_eq_succ_of_ne_zero (Nat.ne_of_gt (Nat.zero_lt_of_lt hfuel))
    obtain ⟨c, x⟩ := cell
    have hother : ∀ cell ∈ cells, cell.1 ≠ c := by
      have hfirst : Path nodes a ([] ++ (c, x) :: cells) 0 := h
      exact fun cell hcell => hfirst.ne_middle hcell
    obtain ⟨rfl, hc, next, hnode, hrest⟩ := h
    obtain ⟨nodes', hdestroy, hnodes⟩ :=
      ih (path_delete hrest hother) (Nat.lt_of_succ_lt_succ hfuel)
    refine ⟨nodes', ?_, fun b => ?_⟩
    · rw [destroy, if_neg hc, hnode, Option.bind_some, hdestroy]
    · rw [hnodes, List.map_cons, delete_eq hc]
      by_cases hba : b = a
      · simp [hba]
      · simp only [Function.update_of_ne hba, List.mem_cons, hba, false_or]

/-! ### The nodes that are allocated -/

/-- All nodes lie in a set that is no larger than the sequence. -/
def Holds (nodes : Nodes α) (xs : List α) : Prop :=
  ∃ s : Finset ℕ, (∀ a, nodes a ≠ none → a ∈ s) ∧ s.card ≤ xs.length

theorem Holds.insert (h : Holds nodes xs) (new : ℕ) {nodes' : Nodes α} {ys : List α}
    (hlen : ys.length = xs.length + 1)
    (hnodes : ∀ a, nodes' a ≠ none → a = new ∨ nodes a ≠ none) : Holds nodes' ys := by
  obtain ⟨s, hs, hcard⟩ := h
  refine ⟨Insert.insert new s, fun a ha => ?_, ?_⟩
  · exact Finset.mem_insert.2 ((hnodes a ha).imp_right (hs a))
  · have := Finset.card_insert_le new s
    omega

theorem Holds.erase (h : Holds nodes xs) {nodes' : Nodes α} {ys : List α} {c : ℕ}
    (hlen : xs.length = ys.length + 1) (hc : nodes c ≠ none)
    (hnodes : ∀ a, nodes' a ≠ none → a ≠ c ∧ nodes a ≠ none) : Holds nodes' ys := by
  obtain ⟨s, hs, hcard⟩ := h
  refine ⟨s.erase c, fun a ha => Finset.mem_erase.2 ⟨(hnodes a ha).1, hs a (hnodes a ha).2⟩, ?_⟩
  rw [Finset.card_erase_of_mem (hs c hc)]
  omega

theorem ne_none_of_update {p b : ℕ} {node node' : Node α} (hp : nodes p = some node)
    (hb : Function.update nodes p (some node') b ≠ none) : nodes b ≠ none := by
  by_cases hbp : b = p
  · rw [hbp, hp]
    exact Option.some_ne_none node
  · rwa [Function.update_of_ne hbp] at hb

theorem add_nodes (l : SinglyLinkedList α) (new : ℕ) (v : α) : (l.add new v).nodes =
    if new ≠ 0 then Function.update l.nodes new (some ⟨v, l.head⟩) else l.nodes := by
  unfold SinglyLinkedList.add
  by_cases hnew : new ≠ 0
  · rw [if_pos hnew, if_pos hnew]
  · rw [if_neg hnew, if_neg hnew]

theorem holds_add (h : Holds l.nodes xs) (v : α) : Holds (l.add new v).nodes (v :: xs) := by
  refine h.insert new rfl fun b hb => ?_
  rw [add_nodes] at hb
  by_cases hbn : b = new
  · exact .inl hbn
  · split at hb
    · rw [Function.update_of_ne hbn] at hb
      exact .inr hb
    · exact .inr hb

theorem holds_addEnd (h : Holds l.nodes xs) {v : α} (hl' : l.addEnd new v = some l') :
    Holds l'.nodes (xs ++ [v]) := by
  have hlen : (xs ++ [v]).length = xs.length + 1 := by simp
  unfold SinglyLinkedList.addEnd at hl'
  by_cases hhead : l.head = 0
  · rw [if_pos hhead] at hl'
    obtain rfl := Option.some.inj hl'
    obtain ⟨s, hs, hcard⟩ := @holds_add _ l xs new h v
    exact ⟨s, hs, by rw [hlen]; exact hcard⟩
  rw [if_neg hhead] at hl'
  by_cases hnew : new ≠ 0
  · rw [if_pos hnew] at hl'
    dsimp only at hl'
    generalize (if l.tail = 0 then l.head else l.tail) = tail at hl'
    obtain ⟨last, hlast, hl'⟩ := Option.bind_eq_some_iff.mp hl'
    obtain ⟨last', -, hl'⟩ := Option.bind_eq_some_iff.mp hl'
    obtain rfl := Option.some.inj hl'
    refine h.insert new hlen fun b hb => ?_
    have hmade := ne_none_of_update hlast hb
    by_cases hbn : b = new
    · exact .inl hbn
    · rw [Function.update_of_ne hbn] at hmade
      exact .inr hmade
  · rw [if_neg hnew] at hl'
    obtain rfl := Option.some.inj hl'
    exact h.insert new hlen fun b hb => .inr hb

/-- The nodes after `remove` of an element that is there: one of those before has been deleted. -/
theorem exists_deleted (h : l.Represents xs) (hb : Bounded l.nodes) (hi : index < xs.length)
    {b : Bool} (hl' : l.remove index = some (l', b)) :
    ∃ c, l.nodes c ≠ none ∧ ∀ a, l'.nodes a ≠ none → a ≠ c ∧ l.nodes a ≠ none := by
  have hdeleted : ∀ {nodes : Nodes α} {c a : ℕ}, c ≠ 0 → delete nodes c a ≠ none →
      a ≠ c ∧ nodes a ≠ none := by
    intro nodes c a hc ha
    rw [delete_eq hc] at ha
    by_cases hac : a = c
    · rw [hac, Function.update_self] at ha
      exact absurd rfl ha
    · rw [Function.update_of_ne hac] at ha
      exact ⟨hac, ha⟩
  obtain ⟨cells, hpath, rfl, hlen, -⟩ := h
  have hlt := hb.length_lt hpath
  rw [List.length_map] at hi hlen
  rw [SinglyLinkedList.remove, if_neg (by omega)] at hl'
  cases index with
  | zero =>
    have hhead : l.head ≠ 0 := fun h0 => by
      rw [hpath.eq_zero_iff.mp h0] at hi
      exact Nat.not_lt_zero _ hi
    rw [if_pos rfl, if_pos hhead, Option.bind_eq_bind, Option.bind_eq_some_iff] at hl'
    obtain ⟨old, hold, hl'⟩ := hl'
    obtain ⟨rfl, -⟩ := Prod.mk.inj (Option.some.inj hl')
    exact ⟨l.head, by rw [hold]; exact Option.some_ne_none _, fun a ha => hdeleted hhead ha⟩
  | succ i =>
    obtain ⟨pre, p, x, c, y, post, rfl, rfl⟩ : ∃ pre p x c y post,
        cells = pre ++ (p, x) :: (c, y) :: post ∧ pre.length = i := by
      refine ⟨cells.take i, cells[i].1, cells[i].2, cells[i + 1].1, cells[i + 1].2,
        cells.drop (i + 2), ?_, List.length_take_of_le (by omega)⟩
      rw [List.getElem_cons_drop hi, List.getElem_cons_drop (by omega), List.take_append_drop]
    obtain ⟨-, -, d, hp, -⟩ := hpath.middle
    obtain ⟨next, hc, -, hwalk⟩ := walk_eq hpath
    have hmem : (c, y) ∈ pre ++ (p, x) :: (c, y) :: post := by simp
    have hc0 : c ≠ 0 := hpath.ne_zero hmem
    obtain ⟨first, hfirst⟩ := hpath.exists_head (by simp)
    rw [if_neg (Nat.succ_ne_zero _)] at hl'
    simp only [Nat.add_sub_cancel, hfirst, hwalk, hp, Option.bind_eq_bind, Option.bind_some] at hl'
    obtain ⟨rfl, -⟩ := Prod.mk.inj (Option.some.inj hl')
    refine ⟨c, by rw [hc]; exact Option.some_ne_none _, fun a ha => ?_⟩
    obtain ⟨hac, ha'⟩ := hdeleted hc0 ha
    exact ⟨hac, ne_none_of_update hp ha'⟩

/-- **One operation** allocates and deletes as the sequence grows and shrinks. -/
theorem Holds.apply (hh : Holds l.nodes xs) (h : l.Represents xs) (hb : Bounded l.nodes)
    {op : ListOp α} (hl' : l.apply op = some l') : Holds l'.nodes (op.on xs) := by
  cases op with
  | add new v =>
    obtain rfl := Option.some.inj hl'
    exact holds_add hh v
  | addEnd new v => exact holds_addEnd hh hl'
  | remove index =>
    obtain ⟨⟨l'', b⟩, hremove, rfl⟩ := Option.map_eq_some_iff.mp hl'
    have hlen : l.length = xs.length := h.choose_spec.2.2.1
    by_cases hi : index < xs.length
    · obtain ⟨c, hc, hnodes⟩ := exists_deleted h hb hi hremove
      refine hh.erase ?_ hc hnodes
      rw [ListOp.on, List.length_eraseIdx_of_lt hi]
      omega
    · rw [SinglyLinkedList.remove, if_pos (by omega)] at hremove
      obtain ⟨rfl, -⟩ := Prod.mk.inj (Option.some.inj hremove)
      rwa [ListOp.on, List.eraseIdx_of_length_le (Nat.le_of_not_lt hi)]

theorem Holds.mem_path (hh : Holds nodes xs) (h : Path nodes a cells 0)
    (hlen : cells.length = xs.length) {b : ℕ} (hb : nodes b ≠ none) : b ∈ cells.map Prod.fst := by
  obtain ⟨s, hs, hcard⟩ := hh
  have hsub : (cells.map Prod.fst).toFinset ⊆ s := by
    intro c hc
    obtain ⟨cell, hcell, rfl⟩ := List.mem_map.mp (List.mem_toFinset.mp hc)
    exact hs _ (h.isSome hcell)
  have hall : (cells.map Prod.fst).toFinset = s := by
    refine Finset.eq_of_subset_of_card_le hsub ?_
    rw [List.toFinset_card_of_nodup h.nodup, List.length_map, hlen]
    exact hcard
  rw [← List.mem_toFinset, hall]
  exact hs b hb

/-- **A list owns its nodes.**  In every run whose steps do not take away the only element, with
`xs` the sequence that the operations have built: `at(i)` is the `i`-th element, or the last one if
there are fewer; for an empty list, and for the largest index, it dereferences `nullptr`; `for_each`
visits the elements in order; and the destructor deletes exactly the nodes that are still allocated,
each once, so that none is left. -/
theorem list_owns_nodes {ops : List (ListOp α)}
    (h : Run SafeStep (empty : SinglyLinkedList α) ops l) :
    (∀ i < 2 ^ 64 - 1, l.atIndex i = ((contents ops).take (i + 1)).getLast?) ∧
    l.atIndex (2 ^ 64 - 1) = none ∧
    (∀ fuel, (contents ops).length < fuel → forEach l.nodes fuel l.head = some (contents ops)) ∧
    ∀ fuel, (contents ops).length < fuel →
      ∃ nodes, destroy fuel l.nodes l.head = some nodes ∧ ∀ a, nodes a = none := by
  have hinv : (l.Represents (contents ops) ∧ Bounded l.nodes) ∧ Holds l.nodes (contents ops) := by
    refine h.trace_invariant (I := fun ops l =>
      (l.Represents (contents ops) ∧ Bounded l.nodes) ∧ Holds l.nodes (contents ops))
      ⟨⟨represents_empty, bounded_empty⟩, ∅, fun a ha => absurd rfl ha, Nat.zero_le _⟩ ?_
    rintro ops l op l' ⟨⟨hrep, hb⟩, hh⟩ ⟨hsafe, halloc, hl'⟩
    obtain ⟨l'', hl'', hb', hrep'⟩ := hrep.apply hb halloc
    obtain rfl := Option.some.inj (hl'.symm.trans hl'')
    rw [contents_concat]
    exact ⟨⟨hrep'.mpr hsafe, hb'⟩, hh.apply hrep hb hl'⟩
  obtain ⟨⟨⟨cells, hpath, hxs, -, -⟩, -⟩, hh⟩ := hinv
  rw [← hxs] at hh ⊢
  have hlen : cells.length = (cells.map Prod.snd).length := (List.length_map _).symm
  refine ⟨fun i hi => ?_, ?_, fun fuel hfuel => forEach_eq hpath (hlen ▸ hfuel),
    fun fuel hfuel => ?_⟩
  · rw [atIndex, atLoop_eq hpath, add64_of_lt (by omega), ← List.map_take, List.getLast?_map]
    cases hlast : (cells.take (i + 1)).getLast? with
    | none => rfl
    | some cell =>
      have hmem : cell ∈ cells := List.mem_of_mem_take (List.mem_of_getLast? hlast)
      obtain ⟨pre, post, rfl⟩ := List.append_of_mem hmem
      obtain ⟨hne, -, next, hnode, -⟩ := hpath.middle (p := cell.1) (x := cell.2)
      simp only [Option.bind_eq_bind, Option.elim_some, Option.bind_some, hne, ↓reduceIte, hnode,
        Option.map_some]
  · rw [atIndex, show add64 (2 ^ 64 - 1) 1 = 0 by decide]
    rfl
  · obtain ⟨nodes, hdestroy, hnodes⟩ := destroy_eq hpath (hlen ▸ hfuel)
    refine ⟨nodes, hdestroy, fun a => ?_⟩
    rw [hnodes]
    split_ifs with hmem
    · rfl
    · by_contra hne
      exact hmem (hh.mem_path hpath hlen hne)

/-- Two elements of which the second is removed again. -/
theorem list_owns_nodes_small : ∃ l : SinglyLinkedList ℕ,
    Run SafeStep empty ([.add 16 5] ++ [.add 32 6] ++ [.remove 1]) l ∧ l.atIndex 3 = some 6 ∧
      ∃ nodes, destroy 2 l.nodes l.head = some nodes ∧ ∀ a, nodes a = none := by
  have hfirst : SafeStep (empty : SinglyLinkedList ℕ) (.add 16 5) (empty.add 16 5) :=
    ⟨nofun, ⟨by decide, by decide, rfl⟩, rfl⟩
  have hsecond : SafeStep ((empty : SinglyLinkedList ℕ).add 16 5) (.add 32 6)
      ((empty.add 16 5).add 32 6) := ⟨nofun, ⟨by decide, by decide, by decide⟩, rfl⟩
  have hthird : SafeStep (((empty : SinglyLinkedList ℕ).add 16 5).add 32 6) (.remove 1) _ :=
    ⟨nofun, trivial, rfl⟩
  have hrun := ((Run.single hfirst).append (.single hsecond)).append (.single hthird)
  obtain ⟨hat, -, -, hdestroy⟩ := list_owns_nodes hrun
  exact ⟨_, hrun, hat 3 (by decide), hdestroy 2 (by decide)⟩

end SinglyLinkedList

end Eterna
