import Eterna.Serial.Port

/-!
# Color codes in a buffer

`UART::out(uint8_t*, uint64_t)` skips a color code and sends the byte that follows it before it
looks at how many bytes are left.

* `UART.skipInBuffer_code`, `UART.skipInBuffer_cut` : what skipping does where a code ends in the
  buffer, and where it does not;
* `UART.outBuffer_of_whole` : if the buffer ends in text, what is visible of it is sent;
* `outBuffer_stays_iff` : only then, no byte behind its end is read.
-/

namespace Eterna

open CStrings Outcome

/-- How the character after `c` is read. -/
def Phase.next (c : UInt8) : Phase → Phase
  | .text => if c = escape then .code else .text
  | .code => if c = chr 'm' then .after else .code
  | .after => .text

/-- How the character after the string `s` is read. -/
def Phase.finish (ph : Phase) (s : Text) : Phase := s.foldl (fun ph c => ph.next c) ph

/-- Only the bytes `s` from `p` on can be read. -/
def window (p : ℕ) (s : Text) : View := fun x => if p ≤ x then s[x - p]? else none

variable {V : View} {p q fuel : ℕ} {s r : Text} {b : UInt8}

theorem block_window : Block (window p s) p s ∧ window p s (p + s.length) = none := by
  have hview (i : ℕ) : window p s (p + i) = s[i]? := by
    rw [window, if_pos (Nat.le_add_right p i), Nat.add_sub_cancel_left]
  have hblock : ∀ t i, s.drop i = t → Block (window p s) (p + i) t := by
    intro t
    induction t with
    | nil => exact fun _ _ => trivial
    | cons b t ih =>
      intro i hi
      refine ⟨?_, ih (i + 1) ?_⟩
      · rw [hview, ← List.head?_drop, hi, List.head?_cons]
      · rw [← List.drop_drop, hi]
        rfl
  exact ⟨hblock s 0 rfl, by rw [hview, List.getElem?_eq_none le_rfl]⟩

theorem block_append {t : Text} (h : Block V p (s ++ t)) :
    Block V p s ∧ Block V (p + s.length) t := by
  induction s generalizing p with
  | nil => exact ⟨trivial, h⟩
  | cons b s ih =>
    obtain ⟨hs, ht⟩ := ih h.2
    rw [Nat.add_assoc, Nat.add_comm 1] at ht
    exact ⟨⟨h.1, hs⟩, ht⟩

/-! ### Phases -/

theorem finish_cons (ph : Phase) : ph.finish (b :: s) = (ph.next b).finish s := rfl

theorem finish_code (hm : chr 'm' ∉ s) : Phase.finish .code s = .code := by
  induction s with
  | nil => rfl
  | cons b s ih =>
    rw [List.mem_cons, not_or] at hm
    rw [finish_cons, Phase.next, if_neg (Ne.symm hm.1), ih hm.2]

theorem finish_code_append {code : Text} (hm : chr 'm' ∉ code) :
    Phase.finish .code (code ++ chr 'm' :: r) = Phase.finish .after r := by
  rw [Phase.finish, List.foldl_append]
  change Phase.finish (Phase.finish .code code) (chr 'm' :: r) = _
  rw [finish_code hm, finish_cons]
  rfl

theorem visible_code_append {code : Text} (hm : chr 'm' ∉ code) :
    visible true .code (code ++ chr 'm' :: r) = visible true .after r := by
  induction code with
  | nil => exact if_pos rfl
  | cons b code ih =>
    rw [List.mem_cons, not_or] at hm
    rw [List.cons_append, visible, if_neg (Ne.symm hm.1), ih hm.2]

namespace UART

/-- The byte after a color code, or the next one, and what follows it. -/
def sendNext (V : View) (fuel : ℕ) : Option (ℕ × ℕ) → Except Halt Text
  | none => .ok []
  | some (str, numberOfBytes) => (readByte V str).bind fun b =>
    (outBuffer true V fuel (str + 1) (sub64 numberOfBytes 1)).bind fun text => .ok (b :: text)

theorem outBuffer_succ {n : ℕ} (hn : 0 < n) :
    outBuffer true V (fuel + 1) p n = (hideInBuffer true V fuel p n).bind (sendNext V fuel) := by
  rw [outBuffer, if_pos hn]
  refine congrArg (Except.bind _) (funext fun r => ?_)
  rcases r with _ | ⟨str, n⟩ <;> rfl

theorem sendNext_some {n : ℕ} (h : V p = some b) (hn : n + 1 < 2 ^ 64) :
    sendNext V fuel (some (p, n + 1)) =
      (outBuffer true V fuel (p + 1) n).bind fun text => .ok (b :: text) := by
  rw [sendNext, readByte_eq h, sub64_of_le (Nat.succ_pos n) hn]
  rfl

theorem skipInBuffer_succ {n : ℕ} (h : V (p + 1) = some b) (hn : n + 1 < 2 ^ 64) :
    skipInBuffer V (fuel + 1) p (n + 1) =
      if b ≠ chr 'm' ∧ 0 < n then skipInBuffer V fuel (p + 1) n else .ok (p + 1, n) := by
  rw [skipInBuffer, readByte_eq h, sub64_of_le (Nat.succ_pos n) hn]
  rfl

theorem hideInBuffer_of_escape {n : ℕ} (h : V p = some escape) :
    hideInBuffer true V fuel p n = (skipInBuffer V fuel p n).bind fun r =>
      (readByte V r.1).bind fun b =>
        .ok (if b = chr 'm' then some (r.1 + 1, sub64 r.2 1) else none) := by
  rw [hideInBuffer, readByte_eq h]
  change (if true ∧ escape = escape then _ else Except.ok (some (p, n))) = _
  rw [if_pos ⟨rfl, rfl⟩]
  rfl

/-! ### Skipping -/

/-- A color code is skipped up to its end, if there is one in the buffer. -/
theorem skipInBuffer_code {code : Text} (hblock : Block V (p + 1) (code ++ chr 'm' :: r))
    (hm : chr 'm' ∉ code) (hlen : (code ++ chr 'm' :: r).length + 1 < 2 ^ 64) :
    Ends (fun _ => fuel ≤ code.length) (· = (p + 1 + code.length, r.length + 1))
      (skipInBuffer V fuel p ((code ++ chr 'm' :: r).length + 1)) := by
  induction code generalizing p fuel with
  | nil =>
    cases fuel with
    | zero => exact le_rfl
    | succ fuel =>
      rw [skipInBuffer_succ hblock.1 hlen]
      exact .ite (fun h => absurd rfl h.1) fun _ => rfl
  | cons b code ih =>
    cases fuel with
    | zero => exact Nat.zero_le _
    | succ fuel =>
      rw [List.mem_cons, not_or] at hm
      rw [skipInBuffer_succ hblock.1 hlen, if_pos ⟨Ne.symm hm.1, Nat.succ_pos _⟩]
      refine (ih hblock.2 hm.2 (Nat.lt_of_succ_lt hlen)).imp (fun _ => Nat.succ_le_succ) ?_
      rintro r rfl
      rw [List.length_cons, Nat.add_assoc (p + 1), Nat.add_comm 1]

/-- If there is none, the byte behind the buffer is read. -/
theorem skipInBuffer_cut (hblock : Block V (p + 1) s) (hend : V (p + 1 + s.length) = none)
    (hm : chr 'm' ∉ s) (hlen : s.length + 1 < 2 ^ 64) (fuel : ℕ) :
    Ends (fun _ => True) (fun _ => False) (skipInBuffer V fuel p (s.length + 1)) := by
  induction s generalizing p fuel with
  | nil =>
    cases fuel with
    | zero => trivial
    | succ fuel =>
      have hend : V (p + 1) = none := hend
      rw [skipInBuffer, readByte_eq_fault hend]
      trivial
  | cons b s ih =>
    cases fuel with
    | zero => trivial
    | succ fuel =>
      rw [List.mem_cons, not_or] at hm
      rw [List.length_cons, Nat.add_comm s.length, ← Nat.add_assoc] at hend
      rw [skipInBuffer_succ hblock.1 hlen, if_pos ⟨Ne.symm hm.1, Nat.succ_pos _⟩]
      exact ih hblock.2 hend hm.2 (Nat.lt_of_succ_lt hlen) fuel

/-- Where the buffer goes on after a color code. -/
theorem hideInBuffer_code {code : Text} (hesc : V p = some escape)
    (hblock : Block V (p + 1) (code ++ chr 'm' :: r)) (hm : chr 'm' ∉ code)
    (hlen : (code ++ chr 'm' :: r).length + 1 < 2 ^ 64) :
    Ends (fun _ => fuel ≤ code.length) (· = some (p + 1 + code.length + 1, r.length))
      (hideInBuffer true V fuel p ((code ++ chr 'm' :: r).length + 1)) := by
  have hend := (block_append hblock).2.1
  have hpred : sub64 (r.length + 1) 1 = r.length := by
    refine sub64_of_le (Nat.succ_pos _) ?_
    rw [List.length_append, List.length_cons] at hlen
    omega
  rw [hideInBuffer_of_escape hesc]
  refine (skipInBuffer_code hblock hm hlen).bind ?_
  rintro _ rfl
  rw [readByte_eq hend, hpred]
  exact rfl

theorem hideInBuffer_cut (hesc : V p = some escape) (hblock : Block V (p + 1) s)
    (hend : V (p + 1 + s.length) = none) (hm : chr 'm' ∉ s) (hlen : s.length + 1 < 2 ^ 64) :
    Ends (fun _ => True) (fun _ => False) (hideInBuffer true V fuel p (s.length + 1)) := by
  rw [hideInBuffer_of_escape hesc]
  exact (skipInBuffer_cut hblock hend hm hlen fuel).bind fun _ h => h.elim

/-! ### The whole buffer -/

/-- **If no byte behind the buffer can be read**, what is visible is sent exactly if the buffer ends
in text. -/
theorem outBuffer_spec (hblock : Block V p s) (hend : V (p + s.length) = none)
    (hlen : s.length < 2 ^ 64) :
    Ends (fun _ => fuel ≤ s.length ∨ Phase.finish .text s ≠ .text)
      (fun text => text = shown true s ∧ Phase.finish .text s = .text)
      (outBuffer true V fuel p s.length) := by
  induction fuel generalizing p s with
  | zero => exact .inl (Nat.zero_le _)
  | succ fuel ih =>
    cases s with
    | nil => exact ⟨rfl, rfl⟩
    | cons b s =>
      obtain ⟨hview, hblock⟩ := hblock
      rw [List.length_cons] at hlen hend
      rw [Nat.add_comm s.length, ← Nat.add_assoc] at hend
      rw [List.length_cons, outBuffer_succ (Nat.succ_pos _), finish_cons, Phase.next]
      by_cases hb : b = escape
      · subst hb
        rw [if_pos rfl]
        by_cases hmem : chr 'm' ∈ s
        · obtain ⟨code, rest, rfl, hm⟩ := List.eq_append_cons_of_mem hmem
          have hshown : shown true (escape :: (code ++ chr 'm' :: rest)) =
              (visible true .after rest).map Prod.fst := by
            rw [shown, visible, if_pos ⟨rfl, rfl⟩, visible_code_append hm]
          obtain ⟨-, -, hrest⟩ := block_append hblock
          rw [hshown, finish_code_append hm]
          have hhide := @hideInBuffer_code V p fuel rest code hview hblock hm hlen
          refine (hhide.imp (fun _ hle => ?_) fun _ => id).bind ?_
          · rw [List.length_append]
            exact .inl (by omega)
          rintro _ rfl
          rw [List.length_append, List.length_cons] at hlen hend
          cases rest with
          | nil =>
            -- the byte behind the code is not in the buffer
            rw [sendNext, readByte_eq_fault (by exact hend)]
            exact .inr (by decide)
          | cons c rest =>
            obtain ⟨hview', hrest⟩ := hrest
            rw [List.length_cons] at hlen hend
            rw [List.length_cons, sendNext_some hview' (by omega)]
            have hnext := @ih _ rest hrest (by rw [← hend]; congr 1; omega) (by omega)
            refine (hnext.imp (fun _ h => ?_) fun _ => id).bind ?_
            · refine h.imp_left fun hle => ?_
              rw [List.length_append, List.length_cons, List.length_cons]
              omega
            · rintro _ ⟨rfl, hs⟩
              exact ⟨rfl, hs⟩
        · rw [finish_code hmem]
          have hhide := @hideInBuffer_cut V p fuel s hview hblock hend hmem hlen
          refine (hhide.imp (fun _ _ => ?_) fun _ => id).bind fun _ h => h.elim
          exact .inr (by decide)
      · have hshown : shown true (b :: s) = b :: shown true s :=
          congrArg (List.map Prod.fst) (visible_text hb)
        rw [if_neg hb, hideInBuffer_of_ne hview hb, hshown]
        change Ends _ _ (sendNext V fuel (some (p, s.length + 1)))
        rw [sendNext_some hview hlen]
        have hnext := ih hblock hend (Nat.lt_of_succ_lt hlen)
        refine (hnext.imp (fun _ h => h.imp_left Nat.succ_le_succ) fun _ => id).bind ?_
        rintro _ ⟨rfl, hs⟩
        exact ⟨rfl, hs⟩

end UART

/-- A call that comes to an end has met no color code that the end of the buffer cuts off. -/
theorem Port.finish_of_outBuffer {port port' : Port} (hinit : port.initialized = true)
    (hlen : s.length < 2 ^ 64)
    (hport' : port.outBuffer true (window p s) fuel p s.length = .ok port') :
    Phase.finish .text s = .text := by
  obtain ⟨hblock, hend⟩ := @block_window p s
  rw [outBuffer, if_pos hinit] at hport'
  cases htext : UART.outBuffer true (window p s) fuel p s.length with
  | error e =>
    rw [htext] at hport'
    cases hport'
  | ok text => exact ((UART.outBuffer_spec hblock hend hlen).of_ok htext).2

/-- **`out(buffer, n)` stays in its buffer** of `n` bytes, comes to an end and sends no more than
`n` bytes, exactly if no color code is cut off by the end of the buffer or is the last thing in it.
-/
theorem outBuffer_stays_iff (port : Port) {p : ℕ} {s : Text} (hlen : s.length < 2 ^ 64) :
    (∃ fuel port', port.outBuffer true (window p s) fuel p s.length = .ok port' ∧
      port'.sent.length ≤ port.sent.length + s.length) ↔
    (port.initialized → Phase.finish .text s = .text) := by
  obtain ⟨hblock, hend⟩ := @block_window p s
  cases hinit : port.initialized with
  | false =>
    refine iff_of_true ⟨0, port, ?_, Nat.le_add_right _ _⟩ fun h => by cases h
    rw [Port.outBuffer, hinit]
    rfl
  | true =>
    have hout (fuel : ℕ) : port.outBuffer true (window p s) fuel p s.length =
        (UART.outBuffer true (window p s) fuel p s.length).map port.outBytes := if_pos hinit
    constructor
    · rintro ⟨fuel, port', hport', -⟩ -
      exact Port.finish_of_outBuffer hinit hlen hport'
    · intro hs
      obtain ⟨text, htext, rfl, -⟩ : ∃ text,
          UART.outBuffer true (window p s) (s.length + 1) p s.length = .ok text ∧
            text = shown true s ∧ Phase.finish .text s = .text :=
        (UART.outBuffer_spec hblock hend hlen).exists_ok
          fun _ h => h.elim (Nat.not_succ_le_self _) fun h => h (hs rfl)
      refine ⟨s.length + 1, port.outBytes (shown true s), ?_, ?_⟩
      · rw [hout, htext]
        rfl
      · exact Port.length_outBytes_le.trans (Nat.add_le_add_left shown_sublist.length_le _)

theorem outBuffer_stays_iff_bold : ∃ fuel port',
    Port.first.outBuffer true (window 0 boldLetter) fuel 0 boldLetter.length = .ok port' ∧
      port'.sent.length ≤ Port.first.sent.length + boldLetter.length :=
  (outBuffer_stays_iff Port.first (by decide)).2 fun _ => by decide

/-- `"\033[0m"` is all of the buffer, and the byte behind it is read. -/
theorem code_at_end_overruns : ¬ ∀ (port : Port) (p : ℕ) (s : Text), s.length < 2 ^ 64 →
    ∃ fuel port', port.outBuffer true (window p s) fuel p s.length = .ok port' ∧
      port'.sent.length ≤ port.sent.length + s.length := by
  intro h
  obtain ⟨fuel, port', hport', -⟩ := h .first 0 (escape :: ['[', '0', 'm'].map chr) (by decide)
  have hs := Port.finish_of_outBuffer rfl (by decide) hport'
  exact absurd hs (by decide)

end Eterna
