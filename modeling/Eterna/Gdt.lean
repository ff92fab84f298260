import Eterna.Library.LastWrite
import Eterna.Library.SplitWords

/-!
# Segment descriptors

The entries of the global descriptor table, `gdt.hpp`.  The base, the limit and the flags of an
entry are scattered over its packed fields: the base over three, the limit over two, one of which it
shares with the flags, and the 64-bit base of the entry of a task state segment over four.

* `GdtEntry.view_apply`, `TssGdtEntry.view_apply` : what a setter does to the getters, so that an
  entry is a record of four independent values;
* `getters_after_setters` : hence each getter returns the last value set for it.
-/

namespace Eterna

/-- `GDTEntry`. -/
structure GdtEntry where
  /-- `Limit0`. -/
  limit0 : BitVec 16 := 0
  /-- `Base0`. -/
  base0 : BitVec 16 := 0
  /-- `Base1`. -/
  base1 : BitVec 8 := 0
  /-- `AccessByte`. -/
  accessByte : BitVec 8 := 0
  /-- `Limit1_flags`: the flags are in the upper half. -/
  limit1Flags : BitVec 8 := 0
  /-- `Base2`. -/
  base2 : BitVec 8 := 0
  deriving DecidableEq

namespace GdtEntry

/-- `base()`. -/
def base (e : GdtEntry) : BitVec 32 :=
  e.base0.setWidth 32 ||| e.base1.setWidth 32 <<< 16 ||| e.base2.setWidth 32 <<< 24

/-- `limit()`. -/
def limit (e : GdtEntry) : BitVec 32 :=
  e.limit0.setWidth 32 ||| (e.limit1Flags &&& 0xf#8).setWidth 32 <<< 16

/-- `access()`. -/
def access (e : GdtEntry) : BitVec 8 := e.accessByte

/-- `flags()`. -/
def flags (e : GdtEntry) : BitVec 8 := e.limit1Flags &&& 0xf0#8

/-- `set_limit`. -/
def setLimit (e : GdtEntry) (limit : BitVec 32) : GdtEntry :=
  let flags := e.limit1Flags &&& 0xf0#8
  let e := { e with limit0 := limit.setWidth 16 }
  let e := { e with limit1Flags := ((limit >>> 16) &&& 0x0f#32).setWidth 8 }
  { e with limit1Flags := e.limit1Flags ||| flags }

/-- `set_base`. -/
def setBase (e : GdtEntry) (base : BitVec 32) : GdtEntry :=
  { e with
    base0 := base.setWidth 16
    base1 := (base >>> 16).setWidth 8
    base2 := (base >>> 24).setWidth 8 }

/-- `set_access`. -/
def setAccess (e : GdtEntry) (access : BitVec 8) : GdtEntry := { e with accessByte := access }

/-- `set_flags`. -/
def setFlags (e : GdtEntry) (flags : BitVec 8) : GdtEntry :=
  let limitNibble := e.limit1Flags &&& 0x0f#8
  let e := { e with limit1Flags := flags &&& 0xf0#8 }
  { e with limit1Flags := e.limit1Flags ||| limitNibble }

/-- `GDTEntry(base, limit, access, flags)`. -/
def ofValues (base limit : BitVec 32) (access flags : BitVec 8) : GdtEntry :=
  let e : GdtEntry := {}
  let e := e.setBase base
  let e := e.setLimit limit
  let e := e.setAccess access
  e.setFlags flags

end GdtEntry

/-- `TSS_GDTEntry`. -/
structure TssGdtEntry extends GdtEntry where
  /-- `Base3`. -/
  base3 : BitVec 32 := 0
  /-- `Reserved`. -/
  reserved : BitVec 32 := 0
  deriving DecidableEq

namespace TssGdtEntry

/-- `TSS_GDTEntry(entry)`. -/
def ofEntry (entry : GdtEntry) : TssGdtEntry := { toGdtEntry := entry, reserved := 0 }

/-- `base()`, which hides that of `GDTEntry`. -/
def base (e : TssGdtEntry) : BitVec 64 :=
  e.toGdtEntry.base.setWidth 64 ||| e.base3.setWidth 64 <<< 32

/-- `set_base`, which hides that of `GDTEntry`. -/
def setBase (e : TssGdtEntry) (base : BitVec 64) : TssGdtEntry :=
  let e := { e with toGdtEntry := e.toGdtEntry.setBase (base.setWidth 32) }
  { e with base3 := (base >>> 32).setWidth 32 }

end TssGdtEntry

/-! ### Setter calls -/

/-- A call of a setter, for an entry whose base has `w` bits. -/
inductive GdtCall (w : ℕ) where
  | setBase (base : BitVec w)
  | setLimit (limit : BitVec 32)
  | setAccess (access : BitVec 8)
  | setFlags (flags : BitVec 8)
  deriving DecidableEq

/-- The effect of a call. -/
def GdtEntry.apply (e : GdtEntry) : GdtCall 32 → GdtEntry
  | .setBase base => e.setBase base
  | .setLimit limit => e.setLimit limit
  | .setAccess access => e.setAccess access
  | .setFlags flags => e.setFlags flags

/-- The effect of a call on an entry of a task state segment, which inherits all but `set_base`. -/
def TssGdtEntry.apply (e : TssGdtEntry) : GdtCall 64 → TssGdtEntry
  | .setBase base => e.setBase base
  | .setLimit limit => { e with toGdtEntry := e.toGdtEntry.setLimit limit }
  | .setAccess access => { e with toGdtEntry := e.toGdtEntry.setAccess access }
  | .setFlags flags => { e with toGdtEntry := e.toGdtEntry.setFlags flags }

/-- What the getters of an entry return. -/
@[ext] structure GdtView (w : ℕ) where
  /-- `base()`. -/
  base : BitVec w
  /-- `limit()`. -/
  limit : BitVec 32
  /-- `access()`. -/
  access : BitVec 8
  /-- `flags()`. -/
  flags : BitVec 8
  deriving DecidableEq

/-- The getters of an entry. -/
def GdtEntry.view (e : GdtEntry) : GdtView 32 := ⟨e.base, e.limit, e.access, e.flags⟩

/-- The getters of an entry of a task state segment. -/
def TssGdtEntry.view (e : TssGdtEntry) : GdtView 64 := ⟨e.base, e.limit, e.access, e.flags⟩

/-- A record of four values: a call changes one, of the limit it keeps the lowest 20 bits, and of
the flags the upper half. -/
def GdtView.set {w : ℕ} (v : GdtView w) : GdtCall w → GdtView w
  | .setBase base => { v with base := base }
  | .setLimit limit => { v with limit := limit % 0x100000#32 }
  | .setAccess access => { v with access := access }
  | .setFlags flags => { v with flags := flags &&& 0xf0#8 }

/-! ### One call -/

variable {w : ℕ} {e : GdtEntry}

theorem base_setBase (base : BitVec 32) : (e.setBase base).base = base := by
  have hlow : (base.setWidth 16).setWidth 32 ||| ((base >>> 16).setWidth 8).setWidth 32 <<< 16 =
      (base.setWidth 24).setWidth 32 := SplitWords.or_shiftLeft base 16 8
  calc (e.setBase base).base
      = (base.setWidth 24).setWidth 32 ||| ((base >>> 24).setWidth 8).setWidth 32 <<< 24 := by
        rw [← hlow]
        rfl
    _ = (base.setWidth 32).setWidth 32 := SplitWords.or_shiftLeft base 24 8
    _ = base := by simp

theorem setWidth_and_nibble (a : BitVec 8) :
    (a &&& 0x0f#8).setWidth 32 = (a.setWidth 4).setWidth 32 := by
  apply BitVec.eq_of_toNat_eq
  have hmask : a.toNat &&& 15 = a.toNat % 16 := Nat.and_two_pow_sub_one_eq_mod a.toNat 4
  simp only [BitVec.toNat_setWidth, BitVec.toNat_and, BitVec.toNat_ofNat]
  rw [show 15 % 2 ^ 8 = 15 from rfl, hmask]

theorem setWidth_eq_umod (a : BitVec 32) : (a.setWidth 20).setWidth 32 = a % 0x100000#32 := by
  apply BitVec.eq_of_toNat_eq
  simp
  omega

theorem limit_setLimit (limit : BitVec 32) : (e.setLimit limit).limit = limit % 0x100000#32 := by
  -- the flags, which are in the other half of the byte, are masked out
  have hnibble : (e.setLimit limit).limit1Flags &&& 0x0f#8 =
      (limit >>> 16).setWidth 8 &&& 0x0f#8 := by
    calc (e.setLimit limit).limit1Flags &&& 0x0f#8
        = ((limit >>> 16).setWidth 8 &&& 0x0f#8 ||| e.limit1Flags &&& 0xf0#8) &&& 0x0f#8 := by
          rw [GdtEntry.setLimit, BitVec.setWidth_and]
          rfl
      _ = (limit >>> 16).setWidth 8 &&& 0x0f#8 := SplitWords.or_and_mask _ _ (by decide)
  calc (e.setLimit limit).limit
      = (limit.setWidth 16).setWidth 32 |||
          ((e.setLimit limit).limit1Flags &&& 0x0f#8).setWidth 32 <<< 16 := rfl
    _ = (limit.setWidth 16).setWidth 32 ||| ((limit >>> 16).setWidth 4).setWidth 32 <<< 16 := by
        rw [hnibble, setWidth_and_nibble]
        simp
    _ = (limit.setWidth 20).setWidth 32 := SplitWords.or_shiftLeft limit 16 4
    _ = limit % 0x100000#32 := setWidth_eq_umod limit

theorem flags_setLimit (limit : BitVec 32) : (e.setLimit limit).flags = e.flags := by
  calc (e.setLimit limit).flags
      = (((limit >>> 16) &&& 0x0f#32).setWidth 8 ||| e.limit1Flags &&& 0xf0#8) &&& 0xf0#8 := rfl
    _ = (e.limit1Flags &&& 0xf0#8 ||| (limit >>> 16).setWidth 8 &&& 0x0f#8) &&& 0xf0#8 := by
        rw [BitVec.or_comm, BitVec.setWidth_and]
        rfl
    _ = e.limit1Flags &&& 0xf0#8 := SplitWords.or_and_mask _ _ (by decide)

theorem flags_setFlags (flags : BitVec 8) : (e.setFlags flags).flags = flags &&& 0xf0#8 :=
  SplitWords.or_and_mask _ _ (by decide)

theorem limit_setFlags (flags : BitVec 8) : (e.setFlags flags).limit = e.limit := by
  have hnibble : (e.setFlags flags).limit1Flags &&& 0x0f#8 = e.limit1Flags &&& 0x0f#8 := by
    calc (e.setFlags flags).limit1Flags &&& 0x0f#8
        = (e.limit1Flags &&& 0x0f#8 ||| flags &&& 0xf0#8) &&& 0x0f#8 := by
          rw [BitVec.or_comm]
          rfl
      _ = e.limit1Flags &&& 0x0f#8 := SplitWords.or_and_mask _ _ (by decide)
  calc (e.setFlags flags).limit
      = e.limit0.setWidth 32 ||| ((e.setFlags flags).limit1Flags &&& 0x0f#8).setWidth 32 <<< 16 :=
        rfl
    _ = e.limit := by
        rw [hnibble]
        rfl

/-- **A setter changes its own value only.** -/
theorem GdtEntry.view_apply (e : GdtEntry) (c : GdtCall 32) : (e.apply c).view = e.view.set c := by
  cases c with
  | setBase base =>
    simp only [GdtEntry.apply, GdtEntry.view, GdtView.set, base_setBase]
    rfl
  | setLimit limit =>
    simp only [GdtEntry.apply, GdtEntry.view, GdtView.set, limit_setLimit, flags_setLimit]
    rfl
  | setAccess access => rfl
  | setFlags flags =>
    simp only [GdtEntry.apply, GdtEntry.view, GdtView.set, flags_setFlags, limit_setFlags]
    rfl

theorem TssGdtEntry.base_setBase (e : TssGdtEntry) (base : BitVec 64) :
    (e.setBase base).base = base := by
  calc (e.setBase base).base
      = (base.setWidth 32).setWidth 64 ||| ((base >>> 32).setWidth 32).setWidth 64 <<< 32 := by
        rw [TssGdtEntry.base, TssGdtEntry.setBase, Eterna.base_setBase]
    _ = (base.setWidth 64).setWidth 64 := SplitWords.or_shiftLeft base 32 32
    _ = base := by simp

theorem TssGdtEntry.view_apply (e : TssGdtEntry) (c : GdtCall 64) :
    (e.apply c).view = e.view.set c := by
  cases c with
  | setBase base =>
    simp only [TssGdtEntry.apply, TssGdtEntry.view, GdtView.set, TssGdtEntry.base_setBase]
    rfl
  | setLimit limit =>
    simp only [TssGdtEntry.apply, TssGdtEntry.view, GdtView.set, limit_setLimit, flags_setLimit]
    rfl
  | setAccess access => rfl
  | setFlags flags =>
    simp only [TssGdtEntry.apply, TssGdtEntry.view, GdtView.set, flags_setFlags, limit_setFlags]
    rfl

theorem GdtEntry.view_ofValues (base limit : BitVec 32) (access flags : BitVec 8) :
    (GdtEntry.ofValues base limit access flags).view =
      ⟨base, limit % 0x100000#32, access, flags &&& 0xf0#8⟩ := by
  have hcalls : GdtEntry.ofValues base limit access flags =
      [GdtCall.setBase base, .setLimit limit, .setAccess access, .setFlags flags].foldl
        GdtEntry.apply {} := rfl
  simp only [hcalls, List.foldl_cons, List.foldl_nil, view_apply]
  rfl

theorem TssGdtEntry.view_ofEntry (entry : GdtEntry) :
    (TssGdtEntry.ofEntry entry).view =
      ⟨entry.base.setWidth 64, entry.limit, entry.access, entry.flags⟩ := by
  simp [TssGdtEntry.view, TssGdtEntry.ofEntry, TssGdtEntry.base]

/-! ### Any calls -/

namespace GdtCall

/-- The base that a call sets. -/
def base? : GdtCall w → Option (BitVec w)
  | .setBase base => some base
  | _ => none

/-- The limit that a call sets. -/
def limit? : GdtCall w → Option (BitVec 32)
  | .setLimit limit => some limit
  | _ => none

/-- The access byte that a call sets. -/
def access? : GdtCall w → Option (BitVec 8)
  | .setAccess access => some access
  | _ => none

/-- The flags that a call sets. -/
def flags? : GdtCall w → Option (BitVec 8)
  | .setFlags flags => some flags
  | _ => none

end GdtCall

open LastWrite

/-- What the getters return after the calls: of each value the last that was set, of the limit
modulo `2 ^ 20`, of the flags the upper half, or what they returned before. -/
def GdtView.after (v : GdtView w) (calls : List (GdtCall w)) : GdtView w where
  base := (lastValue GdtCall.base? calls).elim v.base id
  limit := (lastValue GdtCall.limit? calls).elim v.limit fun limit => limit % 0x100000#32
  access := (lastValue GdtCall.access? calls).elim v.access id
  flags := (lastValue GdtCall.flags? calls).elim v.flags fun flags => flags &&& 0xf0#8

theorem GdtView.foldl_set (v : GdtView w) (calls : List (GdtCall w)) :
    calls.foldl GdtView.set v = v.after calls := by
  have hbase : (calls.foldl GdtView.set v).base = (v.after calls).base :=
    read_foldl_value GdtView.base (fun v c => by cases c <;> rfl) v calls
  have hlimit : (calls.foldl GdtView.set v).limit = (v.after calls).limit :=
    read_foldl_value GdtView.limit (fun v c => by cases c <;> rfl) v calls
  have haccess : (calls.foldl GdtView.set v).access = (v.after calls).access :=
    read_foldl_value GdtView.access (fun v c => by cases c <;> rfl) v calls
  have hflags : (calls.foldl GdtView.set v).flags = (v.after calls).flags :=
    read_foldl_value GdtView.flags (fun v c => by cases c <;> rfl) v calls
  exact GdtView.ext hbase hlimit haccess hflags

/-- **Each getter returns the last value set for it**, of either kind of entry, whatever it held
before and in whichever order the setters are called. -/
theorem getters_after_setters :
    (∀ (e : GdtEntry) (calls : List (GdtCall 32)),
      (calls.foldl GdtEntry.apply e).view = e.view.after calls) ∧
    ∀ (e : TssGdtEntry) (calls : List (GdtCall 64)),
      (calls.foldl TssGdtEntry.apply e).view = e.view.after calls := by
  refine ⟨fun e calls => ?_, fun e calls => ?_⟩
  · rw [← GdtView.foldl_set]
    exact (List.foldl_hom GdtEntry.view fun e c => (e.view_apply c).symm).symm
  · rw [← GdtView.foldl_set]
    exact (List.foldl_hom TssGdtEntry.view fun e c => (e.view_apply c).symm).symm

end Eterna
