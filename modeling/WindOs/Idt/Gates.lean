import WindOs.X86.Tables
import WindOs.Idt.Trap

namespace WindOs.Idt

open X86 Proc

/-! # The descriptor tables of the kernel

`gdt_init`, `idt_init` and `tss_init` fill the tables field by field.  What a process of the user
may do follows from the bits that the processor reads there.
-/

/-- `struct gdtdesc` -/
structure GdtDesc where
  limit0_15 : BitVec 16
  base0_15 : BitVec 16
  base16_23 : BitVec 8
  gateSign : BitVec 8
  limit16_19 : BitVec 4
  otherSign : BitVec 4
  base24_31 : BitVec 8
deriving DecidableEq, Repr

/-- The bytes of a `struct gdtdesc`, which is packed. -/
def GdtDesc.bits (desc : GdtDesc) : SegmentBits :=
  desc.base24_31 ++ desc.otherSign ++ desc.limit16_19 ++ desc.gateSign ++ desc.base16_23 ++
    desc.base0_15 ++ desc.limit0_15

abbrev GdtTable : Type := Nat → GdtDesc

/-- `set_seg_gate_desc` -/
def setSegGateDesc (gdt : GdtTable) (segNum : Nat) (base limit : BitVec 32) (gateSign otherSign : BitVec 8) :
    GdtTable :=
  Function.update gdt segNum
    { base0_15 := base.setWidth 16
      base16_23 := (base >>> 16).setWidth 8
      base24_31 := (base >>> 24).setWidth 8
      gateSign
      limit0_15 := limit.setWidth 16
      limit16_19 := (limit >>> 16).setWidth 4
      otherSign := otherSign.setWidth 4 }

/-- How many entries `gdt` has. -/
def gdtCount : Nat := 6

/-- `gdt_init` -/
def gdtInit (gdt : GdtTable) : GdtTable :=
  let gdt := setSegGateDesc gdt 0 0 0 0 0
  let gdt := setSegGateDesc gdt 1 0x00000000 0xFFFFFFFF 0x9A 0x0C
  let gdt := setSegGateDesc gdt 2 0x00000000 0xFFFFFFFF 0x92 0x0C
  let gdt := setSegGateDesc gdt 3 0x00000000 0xFFFFFFFF 0xFA 0x0C
  setSegGateDesc gdt 4 0x00000000 0xFFFFFFFF 0xF2 0x0C

/-- `struct idtdesc` -/
structure IdtDesc where
  offset0_15 : BitVec 16
  selector : BitVec 16
  noUse : BitVec 8
  gateSign : BitVec 5
  dpl : BitVec 2
  p : BitVec 1
  offset16_32 : BitVec 16
deriving DecidableEq, Repr

def IdtDesc.bits (desc : IdtDesc) : GateBits :=
  desc.offset16_32 ++ desc.p ++ desc.dpl ++ desc.gateSign ++ desc.noUse ++ desc.selector ++
    desc.offset0_15

abbrev IdtTable : Type := Nat → IdtDesc

/-- `IGD` and `TGD` -/
def igd : BitVec 8 := 0x1
def tgd : BitVec 8 := 0x2

/-- `set_intr_gate_desc`, which leaves the type of the gate alone when it knows none. -/
def setIntrGateDesc (idt : IdtTable) (interrupt : Nat) (offset : BitVec 32) (selector : BitVec 16)
    (gateSign dpl p : BitVec 8) : IdtTable :=
  Function.update idt interrupt
    { offset0_15 := offset.setWidth 16
      offset16_32 := (offset >>> 16).setWidth 16
      selector
      gateSign :=
        if gateSign = igd then 0xE else if gateSign = tgd then 0xF else (idt interrupt).gateSign
      dpl := dpl.setWidth 2
      p := p.setWidth 1
      noUse := 0 }

/-- The functions that are entered in `handlers`. -/
inductive Handler where
  | isrHandler | pageFault | timerHandler | kbdHandler | switchToUserHandler | switchToKernHandler
  | systemIntr
deriving DecidableEq, Repr

/-- What `gdt.c`, `idt.c` and `tss.c` set up. -/
structure Tables where
  gdt : GdtTable
  idt : IdtTable
  handlers : Nat → Handler

/-- `set_handler` -/
def setHandler (tables : Tables) (intrNo : Nat) (handler : Handler) : Tables :=
  { tables with handlers := Function.update tables.handlers intrNo handler }

/-- `idt_init`, with the table `_intrs` of `intr.S` -/
def idtInit (intrs : Nat → BitVec 32) (tables : Tables) : Tables :=
  let tables := (List.range 256).foldl (fun tables i => setHandler tables i .isrHandler) tables
  (List.range 256).foldl (fun tables i =>
    { tables with idt := setIntrGateDesc tables.idt i (intrs i) 0x08 igd 0x00 1 }) tables

/-- The address and the size of `tss0`. -/
structure TssPlace where
  tss0 : BitVec 32
  size : BitVec 32

/-- `tss_init`, without the members of `tss0` -/
def tssInit (intrs : Nat → BitVec 32) (place : TssPlace) (tables : Tables) : Tables :=
  let tables := { tables with gdt := setSegGateDesc tables.gdt 5 place.tss0 place.size 0x89 0x04 }
  let tables := { tables with idt := setIntrGateDesc tables.idt 121 (intrs 121) 0x08 igd 0x03 1 }
  let tables := setHandler tables 120 .switchToUserHandler
  let tables := setHandler tables 121 .switchToKernHandler
  let tables := { tables with idt := setIntrGateDesc tables.idt 0x80 (intrs 0x80) 0x08 igd 0x03 1 }
  setHandler tables 0x80 .systemIntr

/-- `init`, as far as it fills the tables: `pmm_init` sets the handler of page faults, the timer and
the keyboard set theirs. -/
def tablesInit (intrs : Nat → BitVec 32) (place : TssPlace) (tables : Tables) : Tables :=
  let tables := { tables with gdt := gdtInit tables.gdt }
  let tables := idtInit intrs tables
  let tables := setHandler tables 14 .pageFault
  let tables := tssInit intrs place tables
  let tables := setHandler tables 32 .timerHandler
  setHandler tables 33 .kbdHandler

section Read

variable {gdt : GdtTable} {idt : IdtTable} {segNum interrupt : Nat} {base limit offset : BitVec 32}
  {gateSign otherSign dpl p : BitVec 8} {selector : BitVec 16}

/-- The processor reads what `set_seg_gate_desc` was given. -/
theorem setSegGateDesc_read :
    let bits := (setSegGateDesc gdt segNum base limit gateSign otherSign segNum).bits
    bits.base = base ∧ bits.limit = limit.setWidth 20 ∧ bits.access = gateSign ∧
      bits.flags = otherSign.setWidth 4 := by
  intro bits
  have entry : bits = (base >>> 24).setWidth 8 ++ otherSign.setWidth 4 ++
      (limit >>> 16).setWidth 4 ++ gateSign ++ (base >>> 16).setWidth 8 ++ base.setWidth 16 ++
        limit.setWidth 16 := by
    simp only [bits, setSegGateDesc, Function.update_self, GdtDesc.bits]
  have first : BitVec.extractLsb' 56 8 bits ++ BitVec.extractLsb' 16 24 bits = base := by
    refine BitVec.eq_of_getLsbD_eq fun i small => ?_
    simp only [entry, BitVec.getLsbD_append, BitVec.getLsbD_extractLsb',
      BitVec.getLsbD_setWidth, BitVec.getLsbD_ushiftRight]
    grind
  have second : BitVec.extractLsb' 48 4 bits ++ BitVec.extractLsb' 0 16 bits =
      limit.setWidth 20 := by
    refine BitVec.eq_of_getLsbD_eq fun i small => ?_
    simp only [entry, BitVec.getLsbD_append, BitVec.getLsbD_extractLsb',
      BitVec.getLsbD_setWidth, BitVec.getLsbD_ushiftRight]
    grind
  refine ⟨first, second, ?_, ?_⟩
  · refine BitVec.eq_of_getLsbD_eq fun i small => ?_
    simp only [entry, SegmentBits.access, BitVec.getLsbD_append, BitVec.getLsbD_extractLsb']
    grind
  · refine BitVec.eq_of_getLsbD_eq fun i small => ?_
    simp only [entry, SegmentBits.flags, BitVec.getLsbD_append, BitVec.getLsbD_extractLsb',
      BitVec.getLsbD_setWidth]
    grind

/-- A present gate that `set_intr_gate_desc` makes. -/
theorem setIntrGateDesc_read (present : p.getLsbD 0) (known : gateSign = igd ∨ gateSign = tgd) :
    Gate.ofBits (setIntrGateDesc idt interrupt offset selector gateSign dpl p interrupt).bits =
      some { offset, selector, dpl := (dpl.setWidth 2).toNat, isTrap := gateSign = tgd } := by
  let sign : BitVec 5 := if gateSign = igd then 0xE else 0xF
  let bits : GateBits := (offset >>> 16).setWidth 16 ++ p.setWidth 1 ++ dpl.setWidth 2 ++ sign ++
    (0 : BitVec 8) ++ selector ++ offset.setWidth 16
  have entry : (setIntrGateDesc idt interrupt offset selector gateSign dpl p interrupt).bits =
      bits := by
    have same : (if gateSign = igd then 0xE else if gateSign = tgd then 0xF
        else (idt interrupt).gateSign) = sign := by
      rcases known with rfl | rfl <;> rfl
    simp only [bits, setIntrGateDesc, Function.update_self, IdtDesc.bits, same]
  have first : BitVec.extractLsb' 48 16 bits ++ BitVec.extractLsb' 0 16 bits = offset := by
    refine BitVec.eq_of_getLsbD_eq fun i small => ?_
    simp only [bits, BitVec.getLsbD_append, BitVec.getLsbD_extractLsb',
      BitVec.getLsbD_setWidth, BitVec.getLsbD_ushiftRight]
    grind
  have second : BitVec.extractLsb' 16 16 bits = selector := by
    refine BitVec.eq_of_getLsbD_eq fun i small => ?_
    simp only [bits, BitVec.getLsbD_append, BitVec.getLsbD_extractLsb']
    grind
  have third : BitVec.extractLsb' 45 2 bits = dpl.setWidth 2 := by
    refine BitVec.eq_of_getLsbD_eq fun i small => ?_
    simp only [bits, BitVec.getLsbD_append, BitVec.getLsbD_extractLsb', BitVec.getLsbD_setWidth]
    grind
  have fourth : BitVec.extractLsb' 40 5 bits = sign := by
    refine BitVec.eq_of_getLsbD_eq fun i small => ?_
    simp only [bits, BitVec.getLsbD_append, BitVec.getLsbD_extractLsb']
    grind
  have fifth : bits.getLsbD 47 = true := by
    simp only [bits, BitVec.getLsbD_append, BitVec.getLsbD_setWidth]
    grind
  rw [entry]
  simp only [Gate.ofBits, first, second, third, fourth, fifth, sign]
  rcases known with rfl | rfl <;> rfl

end Read

section Init

variable {intrs : Nat → BitVec 32} {place : TssPlace} {tables : Tables} {vector count : Nat}

/-- What the processor finds for a vector. -/
def Tables.gate (tables : Tables) (vector : Nat) : Option Gate :=
  if vector < 256 then Gate.ofBits (tables.idt vector).bits else none

def Tables.descriptors (tables : Tables) : Descriptors :=
  Descriptors.ofTable (fun index => (tables.gdt index).bits) gdtCount

/-- The first loop of `idt_init`. -/
theorem setHandlers_done :
    (List.range count).foldl (fun tables i => setHandler tables i .isrHandler) tables =
      { tables with handlers := fun vector =>
          if vector < count then .isrHandler else tables.handlers vector } := by
  induction count with
  | zero => simp
  | succ count ih =>
      rw [List.range_succ, List.foldl_append, ih]
      simp only [List.foldl_cons, List.foldl_nil, setHandler, Tables.mk.injEq, true_and]
      funext vector
      simp only [Function.update_apply]
      grind

/-- The second loop. -/
theorem setGates_done (inside : vector < count) :
    let after := (List.range count).foldl (fun tables i =>
      { tables with idt := setIntrGateDesc tables.idt i (intrs i) 0x08 igd 0x00 1 }) tables
    Gate.ofBits (after.idt vector).bits =
      some { offset := intrs vector, selector := 8, dpl := 0, isTrap := false } := by
  induction count with
  | zero => omega
  | succ count ih =>
      rw [List.range_succ, List.foldl_append, List.foldl_cons, List.foldl_nil]
      intro after
      by_cases last : vector = count
      · subst last
        exact setIntrGateDesc_read (by decide) (.inl rfl)
      · have same : after.idt vector = _ := Function.update_of_ne last _ _
        rw [same]
        exact ih (by omega)

theorem setGates_other :
    let after := (List.range count).foldl (fun tables i =>
      { tables with idt := setIntrGateDesc tables.idt i (intrs i) 0x08 igd 0x00 1 }) tables
    after.gdt = tables.gdt ∧ after.handlers = tables.handlers := by
  induction count with
  | zero => exact ⟨rfl, rfl⟩
  | succ count ih =>
      rw [List.range_succ, List.foldl_append, List.foldl_cons, List.foldl_nil]
      exact ih

/-- The vectors of `switch_to_kern_mode` and of the system calls. -/
def ForUser (vector : Nat) : Prop := vector = 121 ∨ vector = 0x80

instance : Decidable (ForUser vector) := inferInstanceAs (Decidable (_ ∨ _))

theorem tablesInit_gate (known : vector < 256) :
    (tablesInit intrs place tables).gate vector =
      some { offset := intrs vector, selector := 8, dpl := if ForUser vector then 3 else 0,
             isTrap := false } := by
  simp only [Tables.gate, if_pos known, tablesInit, setHandler, tssInit]
  by_cases call : vector = 0x80
  · subst call
    exact setIntrGateDesc_read (by decide) (.inl rfl)
  · by_cases kern : vector = 121
    · subst kern
      rw [setIntrGateDesc, Function.update_of_ne (by decide)]
      exact setIntrGateDesc_read (by decide) (.inl rfl)
    · have closed : ¬ ForUser vector := fun either => either.elim kern call
      rw [setIntrGateDesc, Function.update_of_ne call, setIntrGateDesc, Function.update_of_ne kern,
        if_neg closed]
      exact setGates_done known

/-- `trap` calls the handler of the vector that is in the frame. -/
def Tables.trap (tables : Tables) (frame : IdtFrame) : Handler :=
  tables.handlers (frame .intrNo).toNat

/-- The handler of each vector after the initialisation. -/
def handlerOf (vector : Nat) : Handler :=
  if vector = 14 then .pageFault
  else if vector = 32 then .timerHandler
  else if vector = 33 then .kbdHandler
  else if vector = 120 then .switchToUserHandler
  else if vector = 121 then .switchToKernHandler
  else if vector = 0x80 then .systemIntr
  else .isrHandler

theorem tablesInit_handlers (known : vector < 256) :
    (tablesInit intrs place tables).handlers vector = handlerOf vector := by
  have first (tables : Tables) : (idtInit intrs tables).handlers vector = .isrHandler := by
    rw [idtInit, setGates_other.2, setHandlers_done]
    exact if_pos known
  simp only [tablesInit, setHandler, tssInit, Function.update_apply, first, handlerOf]
  grind

/-- The code of a vector leads to its handler. -/
theorem tablesInit_trap {s : State} {code : Word} (known : vector < 256) :
    (tablesInit intrs place tables).trap (frameOf s vector code) = handlerOf vector := by
  have number : (frameOf s vector code .intrNo).toNat = vector := by
    simp only [frameOf, BitVec.toNat_ofNat]
    omega
  rw [Tables.trap, number, tablesInit_handlers known]

theorem idtInit_gdt : (idtInit intrs tables).gdt = tables.gdt := by
  rw [idtInit, setGates_other.1, setHandlers_done]

theorem setSegGateDesc_of_ne {gdt : GdtTable} {segNum index : Nat} {base limit : BitVec 32}
    {gateSign otherSign : BitVec 8} (other : index ≠ segNum) :
    setSegGateDesc gdt segNum base limit gateSign otherSign index = gdt index :=
  Function.update_of_ne other _ _

/-- The types of the segments: none, the code and the data of the kernel, the code and the data of the
user, and the task state segment. -/
def accessOf (index : Nat) : BitVec 8 := [0, 0x9A, 0x92, 0xFA, 0xF2, 0x89].getD index 0

theorem tablesInit_access {index : Nat} (inside : index < gdtCount) :
    SegmentBits.access ((tablesInit intrs place tables).gdt index).bits = accessOf index := by
  have kept : (tablesInit intrs place tables).gdt =
      setSegGateDesc (gdtInit tables.gdt) 5 place.tss0 place.size 0x89 0x04 := by
    simp only [tablesInit, setHandler, tssInit, idtInit_gdt]
  have members : index = 0 ∨ index = 1 ∨ index = 2 ∨ index = 3 ∨ index = 4 ∨ index = 5 := by
    simp only [gdtCount] at inside
    omega
  rw [kept]
  by_cases task : index = 5
  · subst task
    exact setSegGateDesc_read.2.2.1
  · rw [setSegGateDesc_of_ne task, gdtInit]
    rcases members with rfl | rfl | rfl | rfl | rfl | rfl
    · iterate 4 rw [setSegGateDesc_of_ne (by decide)]
      exact setSegGateDesc_read.2.2.1
    · iterate 3 rw [setSegGateDesc_of_ne (by decide)]
      exact setSegGateDesc_read.2.2.1
    · iterate 2 rw [setSegGateDesc_of_ne (by decide)]
      exact setSegGateDesc_read.2.2.1
    · rw [setSegGateDesc_of_ne (by decide)]
      exact setSegGateDesc_read.2.2.1
    · exact setSegGateDesc_read.2.2.1
    · exact absurd rfl task

theorem tablesInit_privilege {kind : SegmentKind} {selector : Selector} :
    privilegeOf kind (fun index => ((tablesInit intrs place tables).gdt index).bits) gdtCount selector =
      if selector.toNat / 4 % 2 = 0 ∧ selector.toNat / 8 ≠ 0 ∧ selector.toNat / 8 < gdtCount then
        privilegeIn kind (accessOf (selector.toNat / 8))
      else none := by
  simp only [privilegeOf, entryOf]
  split
  · rename_i here
    rw [Option.bind_some, tablesInit_access here.2.2]
  · rfl

/-- The data segments are the entries 2 and 4. -/
theorem tablesInit_data {selector : Selector} :
    (tablesInit intrs place tables).descriptors.data selector =
      if selector.toNat / 4 = 4 then some 0 else if selector.toNat / 4 = 8 then some 3 else none := by
  have half : selector.toNat / 8 = selector.toNat / 4 / 2 := by omega
  refine (@tablesInit_privilege intrs place tables .data selector).trans ?_
  rw [half, gdtCount]
  generalize selector.toNat / 4 = q
  by_cases small : q < 12
  · revert q
    decide
  · rw [if_neg (by omega), if_neg (by omega), if_neg (by omega)]

/-- The code segments are the entries 1 and 3. -/
theorem tablesInit_code {selector : Selector} :
    (tablesInit intrs place tables).descriptors.code selector =
      if selector.toNat / 4 = 2 then some 0 else if selector.toNat / 4 = 6 then some 3 else none := by
  have half : selector.toNat / 8 = selector.toNat / 4 / 2 := by omega
  refine (@tablesInit_privilege intrs place tables .code selector).trans ?_
  rw [half, gdtCount]
  generalize selector.toNat / 4 = q
  by_cases small : q < 12
  · revert q
    decide
  · rw [if_neg (by omega), if_neg (by omega), if_neg (by omega)]

/-- Both code segments can be read. -/
theorem tablesInit_readableCode {selector : Selector} :
    (tablesInit intrs place tables).descriptors.readableCode selector =
      if selector.toNat / 4 = 2 then some 0 else if selector.toNat / 4 = 6 then some 3 else none := by
  have half : selector.toNat / 8 = selector.toNat / 4 / 2 := by omega
  have entry : (tablesInit intrs place tables).descriptors.readableCode selector =
      if selector.toNat / 4 % 2 = 0 ∧ selector.toNat / 8 ≠ 0 ∧ selector.toNat / 8 < gdtCount then
        readableIn (accessOf (selector.toNat / 8))
      else none := by
    simp only [Tables.descriptors, Descriptors.ofTable, entryOf]
    split
    · rename_i here
      rw [Option.bind_some, tablesInit_access here.2.2]
    · rfl
  rw [entry, half, gdtCount]
  generalize selector.toNat / 4 = q
  by_cases small : q < 12
  · revert q
    decide
  · rw [if_neg (by omega), if_neg (by omega), if_neg (by omega)]

theorem tablesInit_kernel : KernelSegments (tablesInit intrs place tables).descriptors :=
  ⟨tablesInit_code, tablesInit_data⟩

/-- The processor with the tables of the kernel. -/
def cpuOf (tables : Tables) (instr : Address → Option (Instr × Address)) : Cpu :=
  { descriptors := tables.descriptors, gate := tables.gate, instr }

section Rights

variable {labels : Labels} {instr : Address → Option (Instr × Address)} {s : State} {next : Address}

/-- An interrupt instruction that the gate allows begins the handler, on the kernel stack. -/
theorem int_done (known : vector < 256) (noError : ¬ HasError vector)
    (allowed : s.cpl ≤ if ForUser vector then 3 else 0) (tss : s.cpl ≠ 0 → s.ss0 = 0x10) :
    (cpuOf (tablesInit labels.intr place tables) instr).exec s next (.int vector) =
      some (delivered labels { s with eip := next } vector 0) := by
  let cpu := cpuOf (tablesInit labels.intr place tables) instr
  have gate : cpu.gate vector = some (intrGate labels vector (if ForUser vector then 3 else 0)) :=
    tablesInit_gate known
  have taken := @deliver_done cpu labels { s with eip := next } vector
    (if ForUser vector then 3 else 0) 0 tablesInit_kernel
    fun outer => ⟨tss outer ▸ tablesInit_data, tss outer ▸ by decide⟩
  rw [if_neg noError] at taken
  have opened : s.cpl ≤ (intrGate labels vector (if ForUser vector then 3 else 0)).dpl := allowed
  simp only [Cpu.exec, cpu, gate]
  rw [if_pos opened]
  exact taken

theorem int_denied (denied : ¬ s.cpl ≤ if ForUser vector then 3 else 0) :
    (cpuOf (tablesInit labels.intr place tables) instr).exec s next (.int vector) = none := by
  let cpu := cpuOf (tablesInit labels.intr place tables) instr
  by_cases known : vector < 256
  · have gate : cpu.gate vector =
        some (intrGate labels vector (if ForUser vector then 3 else 0)) := tablesInit_gate known
    have closed : ¬ s.cpl ≤ (intrGate labels vector (if ForUser vector then 3 else 0)).dpl := denied
    simp only [Cpu.exec, cpu, gate]
    rw [if_neg closed]
  · have none : cpu.gate vector = none := if_neg known
    simp only [Cpu.exec, cpu, none]

/-- Of all interrupts a process of the user can only cause those that are meant for it, and these
begin in the kernel with the frame on the kernel stack.  Of all segments it can only load its own, of
which the one for the code can be read as well. -/
theorem user_rights (tables : Tables) (place : TssPlace) (user : s.cpl = 3) (tss : s.ss0 = 0x10) :
    let cpu := cpuOf (tablesInit labels.intr place tables) instr
    (∀ vector next, cpu.exec s next (.int vector) =
      if ForUser vector then some (delivered labels { s with eip := next } vector 0) else none) ∧
    ∀ selector : Selector, cpu.descriptors.usable 3 selector = true ↔
      selector.toNat / 4 = 0 ∨ selector.toNat / 4 = 8 ∨ selector.toNat / 4 = 6 := by
  intro cpu
  refine ⟨fun vector next => ?_, fun selector => ?_⟩
  · by_cases meant : ForUser vector
    · rw [if_pos meant]
      refine int_done ?_ ?_ ?_ fun _ => tss
      · rcases meant with rfl | rfl <;> decide
      · rcases meant with rfl | rfl <;> decide
      · rw [if_pos meant, user]
    · rw [if_neg meant]
      refine int_denied ?_
      rw [if_neg meant, user]
      decide
  · have data : cpu.descriptors.data selector = if selector.toNat / 4 = 4 then some 0
        else if selector.toNat / 4 = 8 then some 3 else none := tablesInit_data
    have code : cpu.descriptors.readableCode selector = if selector.toNat / 4 = 2 then some 0
        else if selector.toNat / 4 = 6 then some 3 else none := tablesInit_readableCode
    have asked : selector.rpl ≤ 3 := by
      simp only [Selector.rpl]
      omega
    unfold Descriptors.usable
    rw [Descriptors.readable, data, code]
    generalize selector.toNat / 4 = q
    by_cases own : q = 8 ∨ q = 6
    · rcases own with rfl | rfl <;> simp [asked]
    · by_cases kernel : q = 4 ∨ q = 2
      · rcases kernel with rfl | rfl <;> simp
      · have others : q ≠ 8 ∧ q ≠ 6 ∧ q ≠ 4 ∧ q ≠ 2 := by omega
        simp [others]

/-- Tables that nothing is written in yet. -/
def emptyTables : Tables where
  gdt := fun _ => ⟨0, 0, 0, 0, 0, 0, 0⟩
  idt := fun _ => ⟨0, 0, 0, 0, 0, 0, 0⟩
  handlers := fun _ => .isrHandler

theorem user_rights_userState :
    let cpu := cpuOf (tablesInit placedLabels.intr ⟨0xC0120000, 104⟩ emptyTables) (placedCpu []).instr
    (∀ vector next, cpu.exec userState next (.int vector) =
      if ForUser vector then some (delivered placedLabels { userState with eip := next } vector 0)
      else none) ∧
    ∀ selector : Selector, cpu.descriptors.usable 3 selector = true ↔
      selector.toNat / 4 = 0 ∨ selector.toNat / 4 = 8 ∨ selector.toNat / 4 = 6 :=
  user_rights emptyTables ⟨0xC0120000, 104⟩ (by decide) (by decide)

end Rights

end Init

end WindOs.Idt
