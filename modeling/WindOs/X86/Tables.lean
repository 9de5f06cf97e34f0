import WindOs.X86.Machine

namespace WindOs.X86

/-! # Descriptor tables

What the processor reads out of the eight bytes of a descriptor.
-/

/-- A descriptor of a segment. -/
abbrev SegmentBits : Type := BitVec 64

namespace SegmentBits

variable (bits : SegmentBits)

def base : Word := BitVec.extractLsb' 56 8 bits ++ BitVec.extractLsb' 16 24 bits

def limit : BitVec 20 := BitVec.extractLsb' 48 4 bits ++ BitVec.extractLsb' 0 16 bits

/-- The type of the segment with its privilege. -/
def access : BitVec 8 := BitVec.extractLsb' 40 8 bits

/-- The granularity and the size of the segment. -/
def flags : BitVec 4 := BitVec.extractLsb' 52 4 bits

end SegmentBits

/-- The kinds of segments that a descriptor stands for. -/
inductive SegmentKind where
  | data | code | system
deriving DecidableEq, Repr

/-- The kind and the privilege of a segment that is present.  A conforming segment is not one whose
privilege counts. -/
def segmentOf (access : BitVec 8) : Option (SegmentKind × Nat) :=
  if access.getLsbD 7 then
    let dpl := (access >>> 5 &&& 3).toNat
    if access.getLsbD 4 then
      if access.getLsbD 3 then if access.getLsbD 2 then none else some (.code, dpl)
      else some (.data, dpl)
    else some (.system, dpl)
  else none

/-- The entry of a table with `count` entries that a selector names. -/
def entryOf (table : Nat → SegmentBits) (count : Nat) (selector : Selector) : Option SegmentBits :=
  let index := selector.toNat / 8
  if selector.toNat / 4 % 2 = 0 ∧ index ≠ 0 ∧ index < count then some (table index) else none

/-- The privilege of a segment if it is of this kind. -/
def privilegeIn (kind : SegmentKind) (access : BitVec 8) : Option Nat :=
  match segmentOf access with
  | some (found, dpl) => if found = kind then some dpl else none
  | none => none

def privilegeOf (kind : SegmentKind) (table : Nat → SegmentBits) (count : Nat)
    (selector : Selector) : Option Nat :=
  (entryOf table count selector).bind fun bits => privilegeIn kind (SegmentBits.access bits)

/-- The privilege of a code segment that is readable; anyone may read a conforming one. -/
def readableIn (access : BitVec 8) : Option Nat :=
  if access.getLsbD 7 ∧ access.getLsbD 4 ∧ access.getLsbD 3 ∧ access.getLsbD 1 then
    some (if access.getLsbD 2 then 3 else (access >>> 5 &&& 3).toNat)
  else none

def Descriptors.ofTable (table : Nat → SegmentBits) (count : Nat) : Descriptors where
  data := privilegeOf .data table count
  code := privilegeOf .code table count
  readableCode selector :=
    (entryOf table count selector).bind fun bits => readableIn (SegmentBits.access bits)

/-- An entry of the interrupt descriptor table. -/
abbrev GateBits : Type := BitVec 64

/-- The gate that an entry stands for, unless it is absent or a gate of another type. -/
def Gate.ofBits (bits : GateBits) : Option Gate :=
  let kind : BitVec 5 := BitVec.extractLsb' 40 5 bits
  if bits.getLsbD 47 ∧ (kind = 0xE ∨ kind = 0xF) then
    some { offset := BitVec.extractLsb' 48 16 bits ++ BitVec.extractLsb' 0 16 bits
           selector := BitVec.extractLsb' 16 16 bits
           dpl := (BitVec.extractLsb' 45 2 bits).toNat
           isTrap := kind = 0xF }
  else none

end WindOs.X86
