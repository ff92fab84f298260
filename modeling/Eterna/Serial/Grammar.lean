import Eterna.Library.LongestMatch
import Eterna.Serial.Debug

/-!
# The grammar of format strings

The formats that `debug.hpp` lists, read from left to right with longest match.  A turn of the loop
of `dbgmsg_v` reads one of them, or one character.

* `formats` : the formats, and the types of the arguments they take;
* `Printer.specified` : what a turn does by the grammar;
* `Printer.turn_eq_specified` : that is what it does.
-/

namespace Eterna

open ByteMemory CStrings LongestMatch Outcome

/-- The width of an integer. -/
inductive Width where
  | w8
  | w16
  | w32
  | w64
deriving DecidableEq

/-- The number of its bits. -/
def Width.bits : Width → ℕ
  | .w8 => 8
  | .w16 => 16
  | .w32 => 32
  | .w64 => 64

theorem Width.bits_le (n : Width) : n.bits ≤ 64 := by
  cases n <;> decide

/-- The types of the arguments that formats take. -/
inductive ArgType where
  /-- A null terminated C-style string. -/
  | cString
  /-- A `String`. -/
  | string
  | char
  | bool
  | unsigned (n : Width)
  | signed (n : Width)
  | double
  /-- A 64 bit unsigned integer that is printed with 16 hexadecimal digits. -/
  | hex
deriving DecidableEq

/-- The supported formats.  `%h` and `%hh` take no argument and print nothing. -/
def formats : Table UInt8 (Option ArgType) :=
  [(['%', 'h', 'h', 'u'].map chr, some (.unsigned .w8)),
    (['%', 'h', 'h', 'i'].map chr, some (.signed .w8)),
    (['%', 'u', 'l', 'l'].map chr, some (.unsigned .w64)),
    (['%', 'i', 'l', 'l'].map chr, some (.signed .w64)),
    (['%', 'd', 'l', 'l'].map chr, some (.signed .w64)),
    (['%', 's', 'l'].map chr, some .string),
    (['%', 'h', 'u'].map chr, some (.unsigned .w16)),
    (['%', 'h', 'i'].map chr, some (.signed .w16)),
    (['%', 'h', 'h'].map chr, none),
    (['%', 'u', 'l'].map chr, some (.unsigned .w32)),
    (['%', 'i', 'l'].map chr, some (.signed .w32)),
    (['%', 'd', 'l'].map chr, some (.signed .w32)),
    (['%', 's'].map chr, some .cString),
    (['%', 'c'].map chr, some .char),
    (['%', 'b'].map chr, some .bool),
    (['%', 'h'].map chr, none),
    (['%', 'u'].map chr, some (.unsigned .w32)),
    (['%', 'i'].map chr, some (.signed .w32)),
    (['%', 'd'].map chr, some (.signed .w32)),
    (['%', 'f'].map chr, some .double),
    (['%', 'x'].map chr, some .hex),
    (['%', 'p'].map chr, some .hex)]

theorem formats_wellFormed : formats.WellFormed where
  sorted := by decide
  nodup := by decide
  nonempty := by decide

/-- `va_arg` of an argument of this type. -/
def ArgType.take : ArgType → VaList → Except Halt (BitVec 64 × VaList)
  | .double, args => args.double
  | _, args => args.word

namespace Printer

section

variable (P : Printer) (fuel : ℕ) (b : Buffers) (args : VaList)
  (print : Buffers → ℕ → Except Halt (Text × Buffers))

/-- How the argument `w` is printed. -/
def convert (w : BitVec 64) : ArgType → Except Halt (Text × Buffers)
  | .cString => print b w.toNat
  | .string => do
    let text ← P.dbgmsgString fuel w.toNat
    .ok (text, b)
  | .char => .ok ([UInt8.ofNat w.toNat], b)
  | .bool => do
    let text ← P.dbgmsgBool fuel (w.setWidth 32 ≠ 0#32)
    .ok (text, b)
  | .unsigned n => P.dbgmsgUnsigned fuel b (w.setWidth n.bits)
  | .signed n => P.dbgmsgSigned fuel b (w.setWidth n.bits)
  | .double => P.dbgmsgDouble fuel b w
  | .hex => do
    let zero ← P.dbgmsgS fuel (.ofText (['0', 'x'].map chr)) 0
    let buf := toHexstring b.hex w
    let text ← P.dbgmsgS fuel (.ofMemory buf) 0
    .ok (zero ++ text, { b with hex := buf })

/-- What is printed before the argument is taken. -/
def before : ArgType → Except Halt Text
  | .hex => P.dbgmsgS fuel (.ofText (['0', 'x'].map chr)) 0
  | _ => .ok []

/-- The turn at a format that takes an argument, and ends at `next`. -/
def argument (type : ArgType) (next : ℕ) : Except Halt Turn :=
  (P.before fuel type).bind fun _ => (type.take args).bind fun r =>
    (P.convert fuel b print r.1 type).bind fun x => .ok ⟨x.1, x.2, some (next, r.2)⟩

/-- The turn at `current`, where the format string goes on with `s`. -/
def specified (current : ℕ) (s : Text) : Except Halt Turn :=
  match longest formats s with
  | none => .ok ⟨s.take 1, b, if s = [chr '%'] then none else some (current + 1, args)⟩
  | some (f, none) => .ok ⟨[], b, some (current + f.length, args)⟩
  | some (f, some type) => P.argument fuel b args print type (current + f.length)

end

variable {P : Printer} {fuel current : ℕ} {b : Buffers} {args : VaList} {s f : Text} {c d : UInt8}
  {print : Buffers → ℕ → Except Halt (Text × Buffers)} {type : ArgType}

/-! ### The cases of the `switch` -/

theorem argument_eq {next : ℕ} (h : type ≠ .hex) :
    P.argument fuel b args print type next = (type.take args).bind fun r =>
      (P.convert fuel b print r.1 type).bind fun x => .ok ⟨x.1, x.2, some (next, r.2)⟩ := by
  cases type <;> first | rfl | exact absurd rfl h

theorem argument_of_text {next : ℕ} {text : BitVec 64 → Except Halt Text} (h : type ≠ .hex)
    (htext : ∀ w, P.convert fuel b print w type = (text w).bind fun t => .ok (t, b)) :
    P.argument fuel b args print type next = (type.take args).bind fun r =>
      (text r.1).bind fun t => .ok ⟨t, b, some (next, r.2)⟩ := by
  rw [argument_eq h]
  simp only [htext, bind_bind]
  rfl

theorem caseString_eq (hc : P.view (current + 2) = some c) :
    P.caseString fuel b current args print =
      if c = chr 'l' then P.argument fuel b args print .string (current + 3)
      else P.argument fuel b args print .cString (current + 2) := by
  rw [caseString, read_eq hc]
  split_ifs with hl
  · rw [argument_of_text (by decide) fun w => rfl]
    exact if_neg (not_not.2 hl)
  · exact if_pos hl

/-- The cases `'u'`, and `'d'` and `'i'`. -/
theorem caseNumber_eq {pr : {w : ℕ} → Buffers → BitVec w → Except Halt (Text × Buffers)}
    {number : Width → ArgType}
    (hnumber : ∀ n next, P.argument fuel b args print (number n) next = args.word.bind fun r =>
      (pr b (r.1.setWidth n.bits)).bind fun x => .ok ⟨x.1, x.2, some (next, r.2)⟩)
    (hc : P.view (current + 2) = some c) (hd : c = chr 'l' → P.view (current + 3) = some d) :
    P.caseNumber b current args pr =
      if c = chr 'l' then
        if d = chr 'l' then P.argument fuel b args print (number .w64) (current + 4)
        else P.argument fuel b args print (number .w32) (current + 3)
      else P.argument fuel b args print (number .w32) (current + 2) := by
  rw [caseNumber, read_eq hc, hnumber, hnumber, hnumber]
  split_ifs with hl hl'
  · refine (if_neg (not_not.2 hl)).trans ?_
    rw [read_eq (hd hl)]
    refine (if_neg (not_not.2 hl')).trans ?_
    exact congrArg args.word.bind (funext fun r => by rw [Width.bits, BitVec.setWidth_eq]; rfl)
  · refine (if_neg (not_not.2 hl)).trans ?_
    rw [read_eq (hd hl)]
    exact if_pos hl'
  · exact if_pos hl

theorem caseShort_eq (hc : P.view (current + 2) = some c)
    (hd : c = chr 'h' → P.view (current + 3) = some d) :
    P.caseShort fuel b current args =
      if c = chr 'i' then P.argument fuel b args print (.signed .w16) (current + 3)
      else if c = chr 'u' then P.argument fuel b args print (.unsigned .w16) (current + 3)
      else if c = chr 'h' then
        if d = chr 'i' then P.argument fuel b args print (.signed .w8) (current + 4)
        else if d = chr 'u' then P.argument fuel b args print (.unsigned .w8) (current + 4)
        else .ok ⟨[], b, some (current + 3, args)⟩
      else .ok ⟨[], b, some (current + 2, args)⟩ := by
  rw [caseShort, read_eq hc]
  refine ite_congr rfl (fun _ => rfl) fun _ => ite_congr rfl (fun _ => rfl) fun _ =>
    ite_congr rfl (fun hh => ?_) fun _ => rfl
  rw [read_eq (hd hh)]
  exact ite_congr rfl (fun _ => rfl) fun _ => ite_congr rfl (fun _ => rfl) fun _ => rfl

theorem caseHex_eq : P.caseHex fuel b current args =
    P.argument fuel b args print .hex (current + 2) := by
  unfold caseHex argument before convert
  cases P.dbgmsgS fuel (.ofText (['0', 'x'].map chr)) 0 with
  | error e => rfl
  | ok zero =>
    refine congrArg args.word.bind (funext fun r => ?_)
    obtain ⟨n, args⟩ := r
    dsimp only
    cases P.dbgmsgS fuel (.ofMemory (toHexstring b.hex n)) 0 <;> rfl

theorem caseDouble_eq : P.caseDouble fuel b current args =
    P.argument fuel b args print .double (current + 2) := by
  rw [argument_eq (by decide)]
  rfl

theorem caseBool_eq : P.caseBool fuel b current args =
    P.argument fuel b args print .bool (current + 2) := by
  rw [argument_of_text (by decide) fun w => rfl]
  rfl

/-! ### A turn of the loop -/

/-- The format that stands at `current`, where it does not go on like a longer one. -/
theorem longest_of_block {t : Option ArgType} (hs : CString P.view current s)
    (hf : (f, t) ∈ formats) (hblock : Block P.view current f)
    (hnext : ∀ c, P.view (current + f.length) = some c → c ∉ followers formats f) :
    longest formats s = some (f, t) := by
  have h0 : (0 : UInt8) ∉ f := (by decide : ∀ e ∈ formats, (0 : UInt8) ∉ e.1) _ hf
  exact longest_of_followers formats_wellFormed hf (hs.prefix_of_block hblock h0) fun c hc =>
    hnext c (hs.view_of_getElem? hc)

theorem longest_eq_none_of_view (hs : CString P.view current s)
    (h : P.view current = some (chr '%') → ∀ d, P.view (current + 1) = some d → d ∉ conversions) :
    longest formats s = none := by
  refine longest_eq_none fun e he hstart => ?_
  obtain ⟨hpercent, d, hd, hletter⟩ := (by decide : ∀ e ∈ formats,
    e.1[0]? = some (chr '%') ∧ ∃ d ∈ conversions, e.1[1]? = some d) e he
  exact h (hs.view_of_getElem? (getElem?_of_startsWith hstart hpercent)) d
    (hs.view_of_getElem? (getElem?_of_startsWith hstart hletter)) hd

theorem specified_of_block (f : Text) (t : Option ArgType) (hs : CString P.view current s)
    (hf : (f, t) ∈ formats) (hblock : Block P.view current f)
    (hnext : ∀ c, P.view (current + f.length) = some c → c ∉ followers formats f) :
    P.specified fuel b args print current s =
      t.elim (.ok ⟨[], b, some (current + f.length, args)⟩) fun type =>
        P.argument fuel b args print type (current + f.length) := by
  rw [specified, longest_of_block hs hf hblock hnext]
  cases t <;> rfl

/-- What follows the letter of a format can be read. -/
theorem exists_view_two (hs : CString P.view current s) (h0 : P.view current = some (chr '%'))
    (h1 : P.view (current + 1) = some d) (hd : d ≠ 0) : ∃ c, P.view (current + 2) = some c ∧
      (c ≠ 0 → ∃ e, P.view (current + 3) = some e) := by
  obtain ⟨r, -, hr⟩ := hs.exists_cons h0 (by decide)
  obtain ⟨r', -, hr'⟩ := hr.exists_cons h1 hd
  obtain ⟨c, hc⟩ := hr'.exists_view
  refine ⟨c, hc, fun h => ?_⟩
  obtain ⟨r'', -, hr''⟩ := hr'.exists_cons hc h
  exact hr''.exists_view

/-- The turn at an integer of the type `number`. -/
theorem caseNumber_eq_specified
    {pr : {w : ℕ} → Buffers → BitVec w → Except Halt (Text × Buffers)} (number : Width → ArgType)
    (hnumber : ∀ n next, P.argument fuel b args print (number n) next = args.word.bind fun r =>
      (pr b (r.1.setWidth n.bits)).bind fun x => .ok ⟨x.1, x.2, some (next, r.2)⟩)
    (hs : CString P.view current s) (h0 : P.view current = some (chr '%'))
    (h1 : P.view (current + 1) = some d) (hd : d ≠ 0)
    (hshort : ([chr '%', d], some (number .w32)) ∈ formats ∧
      followers formats [chr '%', d] = [chr 'l', chr 'l'])
    (hlong : ([chr '%', d, chr 'l'], some (number .w32)) ∈ formats ∧
      followers formats [chr '%', d, chr 'l'] = [chr 'l'])
    (hlonger : ([chr '%', d, chr 'l', chr 'l'], some (number .w64)) ∈ formats ∧
      followers formats [chr '%', d, chr 'l', chr 'l'] = []) :
    P.caseNumber b current args pr = P.specified fuel b args print current s := by
  obtain ⟨c, h2, h3⟩ := exists_view_two hs h0 h1 hd
  by_cases hl : c = chr 'l'
  · subst hl
    obtain ⟨e, h3⟩ := h3 (by decide)
    rw [caseNumber_eq hnumber h2 fun _ => h3, if_pos rfl]
    split_ifs with he
    · subst he
      exact (specified_of_block _ (some _) hs hlonger.1 ⟨h0, h1, h2, h3, trivial⟩
        fun x _ => by rw [hlonger.2]; exact List.not_mem_nil).symm
    · refine (specified_of_block _ (some _) hs hlong.1 ⟨h0, h1, h2, trivial⟩
        fun x hx hmem => he ?_).symm
      rw [hlong.2, List.mem_singleton] at hmem
      exact (Option.some.inj (h3.symm.trans hx)).trans hmem
  · rw [@caseNumber_eq _ _ _ _ _ _ 0 _ _ _ hnumber h2 fun h => absurd h hl, if_neg hl]
    refine (specified_of_block _ (some _) hs hshort.1 ⟨h0, h1, trivial⟩ fun x hx hmem => hl ?_).symm
    rw [hshort.2, List.mem_cons, List.mem_singleton, or_self] at hmem
    exact (Option.some.inj (h2.symm.trans hx)).trans hmem

theorem caseString_eq_specified (hs : CString P.view current s)
    (h0 : P.view current = some (chr '%')) (h1 : P.view (current + 1) = some (chr 's')) :
    P.caseString fuel b current args print = P.specified fuel b args print current s := by
  obtain ⟨c, h2, -⟩ := exists_view_two hs h0 h1 (by decide)
  rw [caseString_eq h2]
  split_ifs with hl
  · subst hl
    exact (specified_of_block (['%', 's', 'l'].map chr) (some .string) hs (by decide)
      ⟨h0, h1, h2, trivial⟩ fun x _ => List.not_mem_nil).symm
  · refine (specified_of_block (['%', 's'].map chr) (some .cString) hs (by decide)
      ⟨h0, h1, trivial⟩ fun x hx hmem => hl ?_).symm
    have hfollow : followers formats (['%', 's'].map chr) = [chr 'l'] := by decide
    rw [hfollow, List.mem_singleton] at hmem
    exact (Option.some.inj (h2.symm.trans hx)).trans hmem

theorem caseShort_eq_specified (hs : CString P.view current s)
    (h0 : P.view current = some (chr '%')) (h1 : P.view (current + 1) = some (chr 'h')) :
    P.caseShort fuel b current args = P.specified fuel b args print current s := by
  obtain ⟨c, h2, h3⟩ := exists_view_two hs h0 h1 (by decide)
  by_cases hh : c = chr 'h'
  · subst hh
    obtain ⟨d, h3⟩ := h3 (by decide)
    rw [caseShort_eq h2 fun _ => h3, if_neg (by decide), if_neg (by decide), if_pos rfl]
    split_ifs with hi hu
    · subst hi
      exact (specified_of_block (['%', 'h', 'h', 'i'].map chr) (some (.signed .w8)) hs (by decide)
        ⟨h0, h1, h2, h3, trivial⟩ fun x _ => List.not_mem_nil).symm
    · subst hu
      exact (specified_of_block (['%', 'h', 'h', 'u'].map chr) (some (.unsigned .w8)) hs
        (by decide) ⟨h0, h1, h2, h3, trivial⟩ fun x _ => List.not_mem_nil).symm
    · refine (specified_of_block (['%', 'h', 'h'].map chr) none hs (by decide)
        ⟨h0, h1, h2, trivial⟩ fun x hx hmem => ?_).symm
      have hfollow : followers formats (['%', 'h', 'h'].map chr) = [chr 'u', chr 'i'] := by decide
      cases h3.symm.trans hx
      rw [hfollow, List.mem_cons, List.mem_singleton] at hmem
      exact hmem.elim hu hi
  · -- the third character decides, and the fourth is not read
    rw [@caseShort_eq _ _ _ _ _ _ 0 print h2 fun h => absurd h hh, if_neg hh]
    split_ifs with hi hu
    · subst hi
      exact (specified_of_block (['%', 'h', 'i'].map chr) (some (.signed .w16)) hs (by decide)
        ⟨h0, h1, h2, trivial⟩ fun x _ => List.not_mem_nil).symm
    · subst hu
      exact (specified_of_block (['%', 'h', 'u'].map chr) (some (.unsigned .w16)) hs (by decide)
        ⟨h0, h1, h2, trivial⟩ fun x _ => List.not_mem_nil).symm
    · refine (specified_of_block (['%', 'h'].map chr) none hs (by decide)
        ⟨h0, h1, trivial⟩ fun x hx hmem => ?_).symm
      have hfollow : followers formats (['%', 'h'].map chr) =
          ['h', 'h', 'u', 'i', 'h'].map chr := by decide
      cases h2.symm.trans hx
      rw [hfollow] at hmem
      simp only [List.map_cons, List.map_nil, List.mem_cons, List.not_mem_nil, or_false] at hmem
      obtain h | h | h | h | h := hmem
      · exact hh h
      · exact hh h
      · exact hu h
      · exact hi h
      · exact hh h

/-- The turn at the letter of a format. -/
theorem specifier_eq_specified (hs : CString P.view current s)
    (h0 : P.view current = some (chr '%')) (h1 : P.view (current + 1) = some c)
    (hc : c ∈ conversions) :
    P.specifier fuel b current args print = P.specified fuel b args print current s := by
  rw [specifier, read_eq h1]
  simp only [conversions, List.map_cons, List.map_nil, List.mem_cons, List.not_mem_nil,
    or_false] at hc
  obtain rfl | rfl | rfl | rfl | rfl | rfl | rfl | rfl | rfl | rfl := hc
  · exact caseString_eq_specified hs h0 h1
  · exact caseShort_eq_specified hs h0 h1
  · exact caseNumber_eq_specified .unsigned (fun _ _ => rfl) hs h0 h1 (by decide) (by decide)
      (by decide) (by decide)
  · exact caseNumber_eq_specified .signed (fun _ _ => rfl) hs h0 h1 (by decide) (by decide)
      (by decide) (by decide)
  · exact caseNumber_eq_specified .signed (fun _ _ => rfl) hs h0 h1 (by decide) (by decide)
      (by decide) (by decide)
  · exact caseDouble_eq.trans (specified_of_block (['%', 'f'].map chr) (some .double) hs
      (by decide) ⟨h0, h1, trivial⟩ fun x _ => List.not_mem_nil).symm
  · exact caseHex_eq.trans (specified_of_block (['%', 'p'].map chr) (some .hex) hs
      (by decide) ⟨h0, h1, trivial⟩ fun x _ => List.not_mem_nil).symm
  · exact caseHex_eq.trans (specified_of_block (['%', 'x'].map chr) (some .hex) hs
      (by decide) ⟨h0, h1, trivial⟩ fun x _ => List.not_mem_nil).symm
  · exact (specified_of_block (['%', 'c'].map chr) (some .char) hs
      (by decide) ⟨h0, h1, trivial⟩ fun x _ => List.not_mem_nil).symm
  · exact caseBool_eq.trans (specified_of_block (['%', 'b'].map chr) (some .bool) hs
      (by decide) ⟨h0, h1, trivial⟩ fun x _ => List.not_mem_nil).symm

theorem turn_eq_specified (hs : CString P.view current s) (hne : s ≠ []) :
    P.turn fuel b current args print = P.specified fuel b args print current s := by
  cases s with
  | nil => exact absurd rfl hne
  | cons c s =>
    obtain ⟨h0, hc0, hrest⟩ := hs
    by_cases hpercent : c = chr '%'
    · subst hpercent
      obtain ⟨d, h1⟩ := hrest.exists_view
      by_cases hmem : d ∈ conversions
      · rw [turn_of_percent h0]
        exact specifier_eq_specified ⟨h0, hc0, hrest⟩ h0 h1 hmem
      · have hnone : longest formats (chr '%' :: s) = none :=
          longest_eq_none_of_view ⟨h0, hc0, hrest⟩ fun _ e he => by
            rwa [← Option.some.inj (h1.symm.trans he)]
        rw [specified, hnone]
        by_cases hd : d = 0
        · subst hd
          rw [turn_of_zero h0 h1, hrest.eq_nil h1]
          rfl
        · obtain ⟨r, rfl, -⟩ := hrest.exists_cons h1 hd
          rw [turn_of_notMem h0 h1 hd hmem]
          rfl
    · have hnone : longest formats (c :: s) = none :=
        longest_eq_none_of_view ⟨h0, hc0, hrest⟩ fun h =>
          absurd (Option.some.inj (h0.symm.trans h)) hpercent
      rw [specified, hnone, turn_of_ne h0 hpercent]
      exact congrArg (fun n => Except.ok (Turn.mk [c] b n))
        (if_neg fun h => hpercent (List.cons_eq_cons.1 h).1).symm

end Printer

end Eterna
