import Eterna.Serial.ColorCodes
import Eterna.Serial.Debug
import Mathlib.Data.List.Chain

/-!
# The string of `%s`

The argument of `%s` is printed as a format string.  `Plain` strings, in which no `%` stands before
the letter of a conversion, are printed as they are.  Any other conversion than `%h` and `%hh`,
which print nothing, asks for an argument, and the call has none.

Of a string with color codes only what the port shows counts (`PlainVisible`).

* `Printer.dbgmsgV_plainVisible` : a plain format string is printed as the port shows it;
* `Printer.length_le_of_dbgmsgV` : without arguments, another one is cut or not printed at all;
* `Printer.dbgmsgV_string` : `%s` with a plain string, and what follows it;
* `Printer.string_printed_iff` : `%s` prints its string exactly if the string is plain.
-/

namespace Eterna

open ByteMemory CStrings Outcome

/-- No `%` stands before the letter of a conversion. -/
def Plain (s : Text) : Prop := s.IsChain fun a c => a = chr '%' → c ∉ conversions

instance : DecidablePred Plain := fun s =>
  inferInstanceAs (Decidable (s.IsChain fun a c => a = chr '%' → c ∉ conversions))

/-- No `%` that is shown stands before the letter of a conversion. -/
def PlainVisible (l : List (UInt8 × Option UInt8)) : Prop :=
  ∀ x ∈ l, x.1 = chr '%' → ∀ d ∈ x.2, d ∉ conversions

theorem plainVisible_cons {x : UInt8 × Option UInt8} {l : List (UInt8 × Option UInt8)} :
    PlainVisible (x :: l) ↔ (x.1 = chr '%' → ∀ d ∈ x.2, d ∉ conversions) ∧ PlainVisible l :=
  List.forall_mem_cons

theorem plainVisible_nil : PlainVisible [] := fun x hx => by cases hx

theorem plainVisible_iff {hide : Bool} {s : Text} (hesc : escape ∉ s) :
    PlainVisible (visible hide .text s) ↔ Plain s := by
  induction s with
  | nil => exact iff_of_true plainVisible_nil .nil
  | cons c s ih =>
    rw [List.mem_cons, not_or] at hesc
    rw [visible_text (Ne.symm hesc.1), plainVisible_cons, ih hesc.2]
    simp only [Plain, List.isChain_cons]
    exact and_congr_left fun _ => ⟨fun h d hd hc => h hc d hd, fun h hc d hd => h d hd hc⟩

/-- There is no result. -/
def Fails {α : Type} (r : Except Halt α) : Prop := Ends (fun _ => True) (fun _ => False) r

namespace Printer

variable {P : Printer} {fuel current : ℕ} {b b' : Buffers} {args : VaList} {s text : Text}
  {l : List (UInt8 × Option UInt8)} {print : Buffers → ℕ → Except Halt (Text × Buffers)}
  {w : BitVec 64} {gp fp : List (BitVec 64)}

/-! ### Conversions without arguments -/

theorem caseString_fails : Fails (P.caseString fuel b current .none print) :=
  (ends_self (P.read (current + 2))).bind fun _ _ => .ite (fun _ => trivial) fun _ => trivial

theorem caseNumber_fails {print : {w : ℕ} → Buffers → BitVec w → Except Halt (Text × Buffers)} :
    Fails (P.caseNumber b current .none print) := by
  refine (ends_self (P.read (current + 2))).bind fun c _ => .ite (fun _ => trivial) fun _ => ?_
  exact (ends_self (P.read (current + 3))).bind fun d _ => .ite (fun _ => trivial) fun _ => trivial

theorem caseDouble_fails : Fails (P.caseDouble fuel b current .none) := trivial

theorem caseHex_fails : Fails (P.caseHex fuel b current .none) :=
  (ends_self (P.dbgmsgS fuel (.ofText (['0', 'x'].map chr)) 0)).bind fun _ _ => trivial

theorem caseChar_fails : Fails (caseChar b current .none) := trivial

theorem caseBool_fails : Fails (P.caseBool fuel b current .none) := trivial

/-- `%h` and `%hh` print nothing. -/
theorem caseShort_none : Ends (fun _ => True) (fun t => t.text = [] ∧
    (t.next = some (current + 2, .none) ∨
      P.view (current + 2) = some (chr 'h') ∧ t.next = some (current + 3, .none)))
    (P.caseShort fuel b current .none) := by
  refine (ends_self (P.read (current + 2))).bind fun c hc => ?_
  refine .ite (fun _ => trivial) fun _ => .ite (fun _ => trivial) fun _ =>
    .ite (fun hh => ?_) fun _ => ?_
  · refine (ends_self (P.read (current + 3))).bind fun d _ => ?_
    refine .ite (fun _ => trivial) fun _ => .ite (fun _ => trivial) fun _ => ?_
    exact ⟨rfl, .inr ⟨by rw [view_eq hc, hh], rfl⟩⟩
  · exact ⟨rfl, .inl rfl⟩

/-- What a turn prints without arguments, if it has a result. -/
inductive Passes (P : Printer) (current : ℕ) (t : Turn) : Prop
  | char (c : UInt8) (at_current : P.view current = some c)
      (alone : c = chr '%' → ∀ d, P.view (current + 1) = some d → d ∉ conversions)
      (text : t.text = [c]) (next : t.next = some (current + 1, .none))
  | last (at_current : P.view current = some (chr '%')) (at_next : P.view (current + 1) = some 0)
      (text : t.text = [chr '%']) (next : t.next = none)
  | short (at_current : P.view current = some (chr '%'))
      (at_next : P.view (current + 1) = some (chr 'h')) (text : t.text = [])
      (next : t.next = some (current + 2, .none))
  | shortShort (at_current : P.view current = some (chr '%'))
      (at_next : P.view (current + 1) = some (chr 'h'))
      (at_second : P.view (current + 2) = some (chr 'h')) (text : t.text = [])
      (next : t.next = some (current + 3, .none))

theorem turn_passes : Ends (fun _ => True) (P.Passes current)
    (P.turn fuel b current .none print) := by
  refine (ends_self (P.read current)).bind fun c hc => ?_
  have hview := view_eq hc
  refine .ite (fun hpercent => ?_) fun hpercent => .char c hview (absurd · hpercent) rfl rfl
  rw [hpercent] at hview
  refine (ends_self (P.read (current + 1))).bind fun d hd => ?_
  have hnext := view_eq hd
  refine .ite (fun h0 => .last hview (by rw [hnext, h0]) rfl rfl) fun h0 => ?_
  refine .ite (fun _ => caseString_fails.mono fun _ => False.elim) fun hs => ?_
  refine .ite (fun hh => caseShort_none.mono fun t ht => ?_) fun hh => ?_
  · obtain ⟨htext, h | ⟨h₂, h⟩⟩ := ht
    · exact .short hview (by rw [hnext, hh]) htext h
    · exact .shortShort hview (by rw [hnext, hh]) h₂ htext h
  -- all other formats fail without arguments
  refine .ite (fun _ => caseNumber_fails.mono fun _ => False.elim) fun hu => ?_
  refine .ite (fun _ => caseNumber_fails.mono fun _ => False.elim) fun hdi => ?_
  refine .ite (fun _ => caseDouble_fails.mono fun _ => False.elim) fun hf => ?_
  refine .ite (fun _ => caseHex_fails.mono fun _ => False.elim) fun hpx => ?_
  refine .ite (fun _ => caseChar_fails.mono fun _ => False.elim) fun hchar => ?_
  refine .ite (fun _ => caseBool_fails.mono fun _ => False.elim) fun hb => ?_
  have hmem : d ∉ conversions := by
    rw [not_or] at hdi hpx
    simp [conversions, hs, hh, hu, hdi, hf, hpx, hchar, hb]
  rw [hc]
  refine .char c (by rw [hview, hpercent]) (fun _ e he => ?_) rfl rfl
  rw [hnext] at he
  cases he
  exact hmem

/-! ### Format strings without arguments -/

theorem shorter {A : Prop} {r : List (UInt8 × Option UInt8)} (h : text.length ≤ r.length)
    (hr : r.length < l.length) : text.length ≤ l.length ∧ (l.length ≤ text.length → A) :=
  ⟨h.trans hr.le, fun hle => absurd (hle.trans h) (not_le_of_gt hr)⟩

/-- Without arguments no more is printed than the port shows of the string, and less unless it is
plain. -/
theorem length_le_of_dbgmsgV (hs : CString P.view current s)
    (h : P.dbgmsgV fuel b current .none = .ok (text, b')) :
    text.length ≤ (visible P.hide .text s).length ∧
      ((visible P.hide .text s).length ≤ text.length → PlainVisible (visible P.hide .text s)) := by
  induction fuel generalizing s current b text b' with
  | zero => cases h
  | succ fuel ih =>
    cases s with
    | nil =>
      rw [dbgmsgV_zero hs] at h
      cases h
      exact ⟨le_rfl, fun _ => plainVisible_nil⟩
    | cons c s =>
      rw [dbgmsgV_cons hs.1 hs.2.1] at h
      obtain ⟨r, hr, hrun⟩ := bind_eq_ok.1 h
      have hresumes := (hideColorCode_spec hs).of_ok hr
      cases r with
      | none =>
        -- the string ends in a color code
        rw [show visible P.hide .text (c :: s) = [] from hresumes]
        cases hrun
        exact ⟨le_rfl, fun _ => plainVisible_nil⟩
      | some next =>
        obtain ⟨-, e, s', hs', hvisible, -⟩ := hresumes
        obtain ⟨t, ht, hafter⟩ := bind_eq_ok.1 hrun
        rw [hvisible]
        cases turn_passes.of_ok ht with
        | char d at_current alone htext hnext =>
          cases hs'.1.symm.trans at_current
          obtain ⟨rest, hrest, rfl⟩ := (afterTurn_eq_ok hnext).1 hafter
          obtain ⟨hlen, hplain⟩ := ih hs'.2.2 hrest
          rw [htext]
          refine ⟨Nat.succ_le_succ hlen, fun hle => plainVisible_cons.2 ⟨fun hpercent d hd => ?_,
            ?_⟩⟩
          · exact alone hpercent d (hs'.2.2.view_head hd)
          · exact hplain (Nat.le_of_succ_le_succ hle)
        | last at_current at_next htext hnext =>
          cases hs'.2.2.eq_nil at_next
          rw [afterTurn, hnext] at hafter
          cases hafter
          rw [htext]
          refine ⟨le_rfl, fun _ => plainVisible_cons.2 ⟨fun _ d hd => ?_, plainVisible_nil⟩⟩
          cases hd
        | short at_current at_next htext hnext =>
          -- the port shows the format, but nothing is printed for it
          obtain ⟨r, rfl, hr⟩ := hs'.2.2.exists_cons at_next (by decide)
          obtain ⟨rest, hrest, rfl⟩ := (afterTurn_eq_ok hnext).1 hafter
          have hlen := (ih hr hrest).1
          rw [htext, visible_text (by decide)]
          exact shorter hlen (Nat.lt_add_of_pos_right Nat.two_pos)
        | shortShort at_current at_next at_second htext hnext =>
          obtain ⟨r₁, rfl, hr₁⟩ := hs'.2.2.exists_cons at_next (by decide)
          obtain ⟨r, rfl, hr⟩ := hr₁.exists_cons at_second (by decide)
          obtain ⟨rest, hrest, rfl⟩ := (afterTurn_eq_ok hnext).1 hafter
          have hlen := (ih hr hrest).1
          rw [htext, visible_text (by decide), visible_text (by decide)]
          exact shorter hlen (Nat.lt_add_of_pos_right (Nat.succ_pos 2))

/-- A plain format string is printed as the port shows it, and takes no arguments. -/
theorem dbgmsgV_plainVisible (hs : CString P.view current s)
    (hplain : PlainVisible (visible P.hide .text s)) (hfuel : s.length < fuel) :
    P.dbgmsgV fuel b current args = .ok (shown P.hide s, b) := by
  induction fuel generalizing s current with
  | zero => exact absurd hfuel (Nat.not_lt_zero _)
  | succ fuel ih =>
    cases s with
    | nil => exact dbgmsgV_zero hs
    | cons c s =>
      obtain ⟨r, hr, hresumes⟩ := (@hideColorCode_spec P.hide _ _ _ _ _ hs).exists_ok fun _ =>
        Nat.not_le_of_gt (Nat.lt_of_succ_lt_succ hfuel)
      rw [dbgmsgV_cons hs.1 hs.2.1, hr, shown]
      cases r with
      | none =>
        rw [show visible P.hide .text (c :: s) = [] from hresumes]
        rfl
      | some next =>
        obtain ⟨hle, e, s', hs', hvisible, hend⟩ := hresumes
        rw [hvisible, plainVisible_cons] at hplain
        have hlen : s'.length < fuel := by
          simp only [List.length_cons] at hend hfuel
          omega
        have hrest := ih hs'.2.2 hplain.2 hlen
        rw [hvisible]
        change (P.turn fuel b next args _).bind _ = _
        by_cases hpercent : e = chr '%'
        · subst hpercent
          cases s' with
          | nil =>
            rw [turn_of_zero hs'.1 hs'.2.2]
            rfl
          | cons d s' =>
            rw [turn_of_notMem hs'.1 hs'.2.2.1 hs'.2.2.2.1 (hplain.1 rfl d rfl)]
            exact (afterTurn_eq_ok (t := ⟨_, b, _⟩) rfl).2 ⟨_, hrest, rfl⟩
        · rw [turn_of_ne hs'.1 hpercent]
          exact (afterTurn_eq_ok (t := ⟨_, b, _⟩) rfl).2 ⟨_, hrest, rfl⟩

theorem dbgmsgV_plain (hs : CString P.view current s) (hesc : escape ∉ s) (hplain : Plain s)
    (hfuel : s.length < fuel) : P.dbgmsgV fuel b current args = .ok (s, b) := by
  rw [dbgmsgV_plainVisible hs ((plainVisible_iff hesc).2 hplain) hfuel, shown_eq fun _ => hesc]

/-! ### The string of `%s` -/

/-- A plain string is printed, and the printing goes on after the `%s` with the other arguments. -/
theorem dbgmsgV_string (h : P.AtString current) (hs : CString P.view w.toNat s) (hesc : escape ∉ s)
    (hplain : Plain s) (hfuel : s.length < fuel) :
    P.dbgmsgV (fuel + 1) b current ⟨w :: gp, fp⟩ =
      (P.dbgmsgV fuel b (current + 2) ⟨gp, fp⟩).bind fun r => .ok (s ++ r.1, r.2) := by
  rw [dbgmsgV_succ h.percent (by decide) (by decide), turn_of_string h]
  change (((P.dbgmsgV fuel b w.toNat .none).bind _).bind _ = _)
  rw [dbgmsgV_plain hs hesc hplain hfuel]
  rfl

/-- At a `%s`, wherever `dbgmsg_v` meets it: the text is the string, and its pointer the only
argument taken, exactly if no `%` in the string stands before the letter of a conversion. -/
theorem string_printed_iff (h : P.AtString current) (hs : CString P.view w.toNat s)
    (hesc : escape ∉ s) (hfuel : s.length < fuel) :
    (∃ t, (P.turn fuel b current ⟨w :: gp, fp⟩ fun b p => P.dbgmsg fuel b .none p) = .ok t ∧
      t.text = s ∧ t.next = some (current + 2, ⟨gp, fp⟩)) ↔ Plain s := by
  rw [turn_of_string h]
  constructor
  · rintro ⟨t, ht, rfl, -⟩
    obtain ⟨⟨text, b₁⟩, htext, heq⟩ := bind_eq_ok.1 ht
    cases heq
    refine (plainVisible_iff hesc).1 ((length_le_of_dbgmsgV hs htext).2 (le_of_eq ?_))
    exact (List.length_map Prod.fst).symm.trans (congrArg List.length (shown_eq fun _ => hesc))
  · intro hplain
    exact ⟨_, bind_eq_ok.2 ⟨_, dbgmsgV_plain hs hesc hplain hfuel, rfl⟩, rfl, rfl⟩

/-- The format string `%s` at `0x1000`, and the string `s` at `0x2000`. -/
def sample (s : Text) : Printer where
  hide := true
  view x := if 0x2000 ≤ x then View.ofText s (x - 0x2000)
    else if 0x1000 ≤ x then View.ofText (['%', 's'].map chr) (x - 0x1000) else none

theorem sample_atString : (sample s).AtString 0x1000 :=
  ⟨rfl, rfl, 0, rfl, by decide⟩

/-- `100% d` -/
def withPercent : Text := ['1', '0', '0', '%', ' ', 'd'].map chr

theorem withPercent_printed :
    ∃ t, ((sample withPercent).turn 7 .zero 0x1000 ⟨[0x2000], []⟩ fun b p =>
      (sample withPercent).dbgmsg 7 b .none p) = .ok t ∧
      t.text = withPercent ∧ t.next = some (0x1002, ⟨[], []⟩) :=
  (string_printed_iff sample_atString (by decide) (by decide) (by decide)).2 (by decide)

/-- `50%happy` -/
def withShort : Text := ['5', '0', '%', 'h', 'a', 'p', 'p', 'y'].map chr

/-- `100%d` -/
def withNumber : Text := ['1', '0', '0', '%', 'd'].map chr

/-- Of `50%happy` the turn prints `50appy`; for `100%d` it takes an argument that is not there. -/
theorem string_not_printed :
    (CString (sample withShort).view 0x2000 withShort ∧ escape ∉ withShort ∧
      ∃ t, ((sample withShort).turn 9 .zero 0x1000 ⟨[0x2000], []⟩ fun b p =>
        (sample withShort).dbgmsg 9 b .none p) = .ok t ∧
        t.text = ['5', '0', 'a', 'p', 'p', 'y'].map chr ∧ t.text ≠ withShort) ∧
    CString (sample withNumber).view 0x2000 withNumber ∧ escape ∉ withNumber ∧
      ((sample withNumber).turn 9 .zero 0x1000 ⟨[0x2000], []⟩ fun b p =>
        (sample withNumber).dbgmsg 9 b .none p) = .error .noArgument := by
  exact ⟨⟨by decide, by decide, _, rfl, rfl, by decide⟩, by decide, by decide, rfl⟩

end Printer

end Eterna
