/-
  Emulation of CSR instructions (kernel/handler_illegal_insn.c).

  An illegal instruction of the untrusted software traps to the monitor: the
  entry code saves the registers to a frame (common/syscall_helpers.S),
  `illegal_instruction_trap_handler` emulates accesses to eight CSRs and
  `sfence.vma`, and the registers are restored from the frame.  Any other
  instruction ends in a panic.

  * `illegalInsnTrap_ok`: what a trap that returns has done;
  * `csr_emulation`: over a sequence of traps the address translation stays in
    mode Sv39, and each emulated instruction has the effect of Zicsr;
  * `satp_hidden_iff`: two machines that differ in `satp` are told apart by a
    trap from U-mode exactly if the instruction reads `satp` without writing it.
-/
import SecurityMonitor.Lib.Run
import SecurityMonitor.Lib.Zicsr
import SecurityMonitor.State

namespace SecurityMonitor

open ByteMem Zicsr

/-! ## The hart -/

/-- The CSRs that are emulated. -/
inductive Csr where
  | satp
  | cycle
  | time
  | instret
  | mhpmcounter3
  | mhpmcounter4
  | mhpmevent3
  | mhpmevent4
  deriving DecidableEq

/-- kernel/encoding.h -/
def Csr.num : Csr → BitVec 12
  | satp => 0x180
  | cycle => 0xc00
  | time => 0xc01
  | instret => 0xc02
  | mhpmcounter3 => 0xb03
  | mhpmcounter4 => 0xb04
  | mhpmevent3 => 0x323
  | mhpmevent4 => 0x324

/-- The case of `switch (num)`. -/
def Csr.ofNum (num : BitVec 32) : Option Csr :=
  [satp, cycle, time, instret, mhpmcounter3, mhpmcounter4, mhpmevent3, mhpmevent4].find?
    fun c => c.num.setWidth 32 == num

/-- A hart at a trap: `regs` is the frame on the machine stack and `x` are the
    registers of the interrupted software. -/
structure TrapHart extends Hart where
  x : Fin 32 → Word
  satp : Word
  scounteren : Word
  mcycle : Word
  minstret : Word
  mhpmcounter3 : Word
  mhpmcounter4 : Word
  mhpmevent3 : Word
  mhpmevent4 : Word
  /-- the clock, which is mapped to memory -/
  mtime : Word

namespace TrapHart
variable (h : TrapHart)

/-- What a register reads as. -/
def gpr (r : Fin 32) : Word := if r = 0 then 0 else h.x r

def csr : Csr → Word
  | .satp => h.satp
  | .cycle => h.mcycle
  | .time => h.mtime
  | .instret => h.minstret
  | .mhpmcounter3 => h.mhpmcounter3
  | .mhpmcounter4 => h.mhpmcounter4
  | .mhpmevent3 => h.mhpmevent3
  | .mhpmevent4 => h.mhpmevent4

def setCsr (v : Word) : Csr → TrapHart
  | .satp => { h with satp := v }
  | .cycle => { h with mcycle := v }
  | .time => { h with mtime := v }
  | .instret => { h with minstret := v }
  | .mhpmcounter3 => { h with mhpmcounter3 := v }
  | .mhpmcounter4 => { h with mhpmcounter4 := v }
  | .mhpmevent3 => { h with mhpmevent3 := v }
  | .mhpmevent4 => { h with mhpmevent4 := v }

/-- `.save_regs_and_set_args`, with the slots that the trap vector has saved. -/
def saveRegs : TrapHart := { h with regs := h.gpr }

/-- `.restore_regs` and `.perform_mret_ecall` -/
def restoreRegs : TrapHart :=
  { h with x := fun r => if r = 0 then h.x 0 else h.regs r, mepc := h.mepc + 4 }

end TrapHart

/-! ## The handler -/

def extractField (val which : Word) : Word := (val &&& which) / (which &&& ~~~(which - 1))

def mpp (mstatus : Word) : Word := extractField mstatus mstatusMppMask

def prvU : Word := 0
def prvS : Word := 1
def satpModeOffset : ℕ := 60
def satpSv39 : Word := 8
def sfenceVmaFunct7 : Word := 0b0001001
def opcodeMask : Word := 0x7F
def opcodeSystem : Word := 0b1110011

def shRd : ℕ := 7
def shRs1 : ℕ := 15
def logRegbytes : ℕ := 3

def getRm (insn : Word) : Word := (insn >>> 12) &&& 7
def getFunct7 (insn : Word) : Word := (insn >>> 25) &&& 0x7f

/-- The slot of the frame at the byte offset that `GET_REG` computes. -/
def getReg (insn : Word) (pos : ℕ) : Fin 32 :=
  ⟨((insn >>> (pos - logRegbytes)) &&& 0xF8).toNat / 2 ^ logRegbytes, by
    have : ((insn >>> (pos - logRegbytes)) &&& 0xF8).toNat ≤ 0xF8 := by
      rw [BitVec.toNat_and]
      exact Nat.and_le_right
    exact Nat.div_lt_of_lt_mul (this.trans_lt (by decide))⟩

/-- The bit of `scounteren` that a read from U-mode needs. -/
def Csr.counterBit : Csr → Option ℕ
  | satp | mhpmevent3 | mhpmevent4 => none
  | cycle => some 0
  | time => some 1
  | instret => some 2
  | mhpmcounter3 => some 3
  | mhpmcounter4 => some 4

/-- `emulate_read_csr`; it gives nothing where the source returns `-1`. -/
def emulateReadCsr (num : BitVec 32) (mstatus : Word) (h : TrapHart) : Option Word := do
  let counteren := if mpp mstatus = prvU then h.scounteren else -1
  let c ← Csr.ofNum num
  match c.counterBit with
  | none => some (h.csr c)
  | some k => if (counteren >>> k) &&& 1 = 0 then none else some (h.csr c)

/-- `emulate_write_csr` with its return value.  A panic ends in an error that
    carries the hart. -/
def emulateWriteCsr (num : BitVec 32) (value mstatus : Word) (h : TrapHart) :
    Except TrapHart (ℤ × TrapHart) :=
  match Csr.ofNum num with
  | some .satp =>
    -- the instruction has to come from S-mode
    if mpp mstatus ≠ prvS then .error h
    else if value >>> satpModeOffset = satpSv39 then .ok (0, h.setCsr value .satp)
    else .ok (0, h)
  | some .time | none => .ok (-1, h)
  | some c => .ok (0, h.setCsr value c)

/-- `truly_illegal_insn` panics. -/
def trulyIllegalInsn {α : Type} (h : TrapHart) : Except TrapHart α := .error h

/-- `new_csr_val` and `do_write` for the cases of `switch (rd)` that do not panic. -/
def newCsrVal (rd csrVal rs1Val rs1Num : Word) : Option (Word × Word) :=
  match rd.toNat with
  | 1 => some (rs1Val, 1)
  | 2 => some (csrVal ||| rs1Val, rs1Num)
  | 3 => some (csrVal &&& ~~~rs1Val, rs1Num)
  | 5 => some (rs1Num, 1)
  | 6 => some (csrVal ||| rs1Num, rs1Num)
  | 7 => some (csrVal &&& ~~~rs1Num, rs1Num)
  | _ => none

/-- `SET_RD` -/
def setRd (insn : Word) (h : TrapHart) (v : Word) : TrapHart :=
  { h with regs := Function.update h.regs (getReg insn shRd) v }

def emulateSystemOpcode (mstatus insn : Word) (h : TrapHart) : Except TrapHart TrapHart :=
  let rs1Num := (insn >>> 15) &&& 0x1f
  let rs1Val := h.regs (getReg insn shRs1)
  let rd := getRm insn
  let csrNum := insn.setWidth 32 >>> 20
  let funct3 := getRm insn
  let funct7 := getFunct7 insn
  if funct3 = 0 ∧ rd = 0 ∧ funct7 = sfenceVmaFunct7 then
    if mpp mstatus ≠ prvS then .error h else .ok h
  else
    match emulateReadCsr csrNum mstatus h with
    | none => trulyIllegalInsn h
    | some csrVal =>
      match newCsrVal rd csrVal rs1Val rs1Num with
      | none => trulyIllegalInsn h
      | some (value, doWrite) =>
        if doWrite ≠ 0 then
          match emulateWriteCsr csrNum value mstatus h with
          | .error h => .error h
          | .ok (err, h) => if err ≠ 0 then trulyIllegalInsn h else .ok (setRd insn h csrVal)
        else .ok (setRd insn h csrVal)

/-- `illegal_instruction_trap_handler`, where `fetched` is the word that
    `get_insn` reads at `mepc`. -/
def illegalInstructionTrapHandler (mtval : Word) (fetched : Insn) (h : TrapHart) :
    Except TrapHart TrapHart :=
  let insn := if mtval = 0 then fetched.setWidth 64 else mtval
  if (insn &&& opcodeMask) ^^^ opcodeSystem = 0 then emulateSystemOpcode h.mstatus insn h
  else trulyIllegalInsn h

/-- `.illegal_insn_trap` -/
def illegalInsnTrap (mtval : Word) (fetched : Insn) (h : TrapHart) : Except TrapHart TrapHart :=
  match illegalInstructionTrapHandler mtval fetched h.saveRegs with
  | .error h => .error h
  | .ok h => .ok h.restoreRegs

/-! ## The fields of an instruction -/

section
variable (i : Insn)

theorem toNat_setWidth_insn : (i.setWidth 64).toNat = i.toNat := by
  rw [BitVec.toNat_setWidth, Nat.mod_eq_of_lt (i.isLt.trans (by decide))]

/-- The byte offset of a slot is eight times the register's number. -/
theorem getReg_val (pos : ℕ) (hpos : logRegbytes ≤ pos) :
    (getReg (i.setWidth 64) pos).val = i.toNat >>> pos % 2 ^ 5 := by
  show ((i.setWidth 64 >>> (pos - logRegbytes)) &&& 0xF8).toNat / 2 ^ logRegbytes = _
  rw [BitVec.toNat_and, BitVec.toNat_ushiftRight, toNat_setWidth_insn, ← Nat.shiftRight_eq_div_pow,
    Nat.shiftRight_and_distrib, ← Nat.shiftRight_add, Nat.sub_add_cancel hpos]
  exact Nat.and_two_pow_sub_one_eq_mod _ 5

@[simp] theorem getReg_rd : getReg (i.setWidth 64) shRd = rd i :=
  Fin.ext ((getReg_val i shRd (by decide)).trans (toNat_rd i).symm)

@[simp] theorem getReg_rs1 : getReg (i.setWidth 64) shRs1 = rs1 i :=
  Fin.ext ((getReg_val i shRs1 (by decide)).trans (toNat_rs1 i).symm)

theorem getRm_toNat : (getRm (i.setWidth 64)).toNat = (funct3 i).toNat := by
  rw [getRm, BitVec.toNat_and, BitVec.toNat_ushiftRight, toNat_setWidth_insn, toNat_funct3]
  exact Nat.and_two_pow_sub_one_eq_mod _ 3

theorem rs1Num_eq : ((i.setWidth 64) >>> 15) &&& 0x1f = BitVec.ofNat 64 (rs1 i) := by
  apply BitVec.eq_of_toNat_eq
  rw [BitVec.toNat_and, BitVec.toNat_ushiftRight, toNat_setWidth_insn, BitVec.toNat_ofNat,
    Nat.mod_eq_of_lt ((rs1 i).isLt.trans (by decide)), toNat_rs1]
  exact Nat.and_two_pow_sub_one_eq_mod _ 5

theorem csrNum_eq : (i.setWidth 64).setWidth 32 >>> 20 = (Zicsr.csr i).setWidth 32 := by
  apply BitVec.eq_of_toNat_eq
  rw [BitVec.toNat_ushiftRight, BitVec.toNat_setWidth, toNat_setWidth_insn, Nat.mod_eq_of_lt i.isLt,
    BitVec.toNat_setWidth, toNat_csr, Nat.mod_eq_of_lt]
  rw [Nat.shiftRight_eq_div_pow]
  have := i.isLt
  omega

theorem isSystem_iff :
    ((i.setWidth 64) &&& opcodeMask) ^^^ opcodeSystem = 0 ↔ opcode i = 0b1110011 := by
  have h : ((i.setWidth 64) &&& opcodeMask).toNat = (opcode i).toNat := by
    rw [BitVec.toNat_and, toNat_setWidth_insn, toNat_opcode]
    exact Nat.and_two_pow_sub_one_eq_mod _ 7
  show _ ^^^ _ = 0#64 ↔ _
  rw [BitVec.xor_eq_zero_iff, ← BitVec.toNat_inj, ← BitVec.toNat_inj, h]
  rfl

end

theorem Csr.ofNum_num {n : BitVec 12} {c : Csr} (h : Csr.ofNum (n.setWidth 32) = some c) : n = c.num := by
  have h : c.num.setWidth 32 = n.setWidth 32 := by
    simpa using List.find?_some h
  apply BitVec.eq_of_toNat_eq
  have := congrArg BitVec.toNat h
  rw [BitVec.toNat_setWidth, BitVec.toNat_setWidth, Nat.mod_eq_of_lt (c.num.isLt.trans (by decide)),
    Nat.mod_eq_of_lt (n.isLt.trans (by decide))] at this
  exact this.symm

theorem Csr.ofNum_self (c : Csr) : Csr.ofNum (c.num.setWidth 32) = some c := by
  cases c <;> decide

theorem newCsrVal_eq (i : Insn) (x : Fin 32 → Word) (old : Word) :
    newCsrVal (getRm (i.setWidth 64)) old (x (rs1 i)) (BitVec.ofNat 64 (rs1 i)) =
      (op i).map fun p => (p.1.apply old (operand x i p.2),
        if p.1 = .write then 1 else BitVec.ofNat 64 (rs1 i)) := by
  have hlt := (funct3 i).isLt
  rw [newCsrVal, op, getRm_toNat]
  generalize (funct3 i).toNat = n at hlt
  interval_cases n <;> rfl

theorem doWrite_iff {i : Insn} {o : Op} :
    (if o = .write then 1 else BitVec.ofNat 64 (rs1 i)) ≠ (0 : Word) ↔ Writes i o := by
  have h : BitVec.ofNat 64 (rs1 i) = (0 : Word) ↔ rs1 i = 0 := by
    rw [← BitVec.toNat_inj, BitVec.toNat_ofNat, Nat.mod_eq_of_lt ((rs1 i).isLt.trans (by decide)), Fin.ext_iff]
    rfl
  rw [Writes]
  split_ifs with ho
  · exact iff_of_true (by decide) (.inl ho)
  · rw [Ne, h, or_iff_right ho]

/-! ## What a trap does -/

/-- The hart after the write of an instruction. -/
def TrapHart.written (h : TrapHart) (c : Csr) (v : Word) : TrapHart :=
  if c = .satp ∧ v >>> satpModeOffset ≠ satpSv39 then h else h.setCsr v c

theorem emulateReadCsr_some {n : BitVec 12} {mstatus v : Word} {h : TrapHart}
    (hr : emulateReadCsr (n.setWidth 32) mstatus h = some v) :
    ∃ c, Csr.ofNum (n.setWidth 32) = some c ∧ v = h.csr c := by
  rw [emulateReadCsr, Option.bind_eq_bind, Option.bind_eq_some_iff] at hr
  obtain ⟨c, hc, hr⟩ := hr
  refine ⟨c, hc, ?_⟩
  split at hr
  · exact (Option.some.inj hr).symm
  · obtain ⟨-, hr⟩ := Option.ite_none_left_eq_some.1 hr
    exact (Option.some.inj hr).symm

theorem emulateWriteCsr_cases {num : BitVec 32} {c : Csr} (hc : Csr.ofNum num = some c)
    (value mstatus : Word) (h : TrapHart) :
    emulateWriteCsr num value mstatus h = .error h ∨
      emulateWriteCsr num value mstatus h = .ok (-1, h) ∨
      emulateWriteCsr num value mstatus h = .ok (0, h.written c value) := by
  rw [emulateWriteCsr, hc]
  cases c with
  | satp =>
    by_cases hs : mpp mstatus ≠ prvS
    · exact .inl (if_pos hs)
    · refine .inr (.inr ((if_neg hs).trans ?_))
      by_cases hv : value >>> satpModeOffset = satpSv39
      · rw [if_pos hv, TrapHart.written, if_neg fun h => h.2 hv]
      · rw [if_neg hv, TrapHart.written, if_pos ⟨rfl, hv⟩]
  | time => exact .inr (.inl rfl)
  | cycle | instret | mhpmcounter3 | mhpmcounter4 | mhpmevent3 | mhpmevent4 => exact .inr (.inr rfl)

/-- The result of an instruction that does not panic, on the frame. -/
inductive Emulated (i : Insn) (h : TrapHart) : TrapHart → Prop
  | sfence (hop : op i = none) (hs : mpp h.mstatus = prvS) : Emulated i h h
  | csr {c : Csr} {o : Op} {imm : Bool} (hc : Zicsr.csr i = c.num) (hop : op i = some (o, imm)) :
      Emulated i h (setRd (i.setWidth 64)
        (if Writes i o then h.written c (o.apply (h.csr c) (operand h.regs i imm)) else h) (h.csr c))

/-- **The cases of the handler.** -/
theorem emulateSystemOpcode_cases (i : Insn) (h : TrapHart) :
    emulateSystemOpcode h.mstatus (i.setWidth 64) h = .error h ∨
      ∃ h', emulateSystemOpcode h.mstatus (i.setWidth 64) h = .ok h' ∧ Emulated i h h' := by
  simp only [emulateSystemOpcode, rs1Num_eq, csrNum_eq, getReg_rs1, newCsrVal_eq]
  split_ifs with hf hs
  · exact .inl rfl
  · refine .inr ⟨h, rfl, .sfence ?_ (not_not.1 hs)⟩
    rw [op, ← getRm_toNat, hf.1]
    rfl
  · cases hr : emulateReadCsr ((Zicsr.csr i).setWidth 32) h.mstatus h with
    | none => exact .inl rfl
    | some old =>
      obtain ⟨c, hc, rfl⟩ := emulateReadCsr_some hr
      cases hop : op i with
      | none => exact .inl rfl
      | some p =>
        obtain ⟨o, imm⟩ := p
        have hE := Emulated.csr (h := h) (Csr.ofNum_num hc) hop
        simp only [Option.map_some, doWrite_iff]
        by_cases hw : Writes i o
        · rw [if_pos hw] at hE ⊢
          obtain he | he | he := emulateWriteCsr_cases hc (o.apply (h.csr c) (operand h.regs i imm)) h.mstatus h
          · rw [he]
            exact .inl rfl
          · rw [he]
            exact .inl rfl
          · rw [he]
            exact .inr ⟨_, rfl, hE⟩
        · rw [if_neg hw] at hE ⊢
          exact .inr ⟨_, rfl, hE⟩

section
variable {i : Insn} {mtval : Word} {s s' : TrapHart}

/-- The trap value holds the instruction or nothing. -/
def Faults (i : Insn) (mtval : Word) : Prop := mtval = i.setWidth 64 ∨ mtval = 0

instance (i : Insn) (mtval : Word) : Decidable (Faults i mtval) := inferInstanceAs (Decidable (_ ∨ _))

theorem illegalInsnTrap_eq (hm : Faults i mtval) (s : TrapHart) :
    illegalInsnTrap mtval i s =
      if opcode i = 0b1110011 then
        match emulateSystemOpcode s.mstatus (i.setWidth 64) s.saveRegs with
        | .error h => .error h
        | .ok h => .ok h.restoreRegs
      else .error s.saveRegs := by
  have hinsn : (if mtval = 0 then i.setWidth 64 else mtval) = i.setWidth 64 := by
    split_ifs with h0
    · rfl
    · exact hm.resolve_right h0
  simp only [illegalInsnTrap, illegalInstructionTrapHandler, hinsn, isSystem_iff]
  split_ifs
  · rfl
  · rfl

theorem illegalInsnTrap_cases (hm : Faults i mtval) (s : TrapHart) :
    illegalInsnTrap mtval i s = .error s.saveRegs ∨
      ∃ h', illegalInsnTrap mtval i s = .ok h'.restoreRegs ∧ Emulated i s.saveRegs h' := by
  rw [illegalInsnTrap_eq hm]
  split_ifs
  · obtain he | ⟨h', he, hE⟩ := emulateSystemOpcode_cases i s.saveRegs
    · exact .inl (by rw [show s.mstatus = s.saveRegs.mstatus from rfl, he])
    · exact .inr ⟨h', by rw [show s.mstatus = s.saveRegs.mstatus from rfl, he], hE⟩
  · exact .inl rfl

/-! ## The effect on the interrupted software -/

/-- The mode of the address translation is Sv39. -/
def Sv39Mode (satp : Word) : Prop := satp >>> satpModeOffset = satpSv39

instance (satp : Word) : Decidable (Sv39Mode satp) := inferInstanceAs (Decidable (_ = _))

/-- The effect of a CSR instruction on the CSR `c` and the registers.  A value of
    `satp` with another mode than Sv39 is not written. -/
structure CsrEffect (i : Insn) (c : Csr) (o : Op) (imm : Bool) (s s' : TrapHart) : Prop where
  csr : s'.csr c =
    let v := o.apply (s.csr c) (operand s.gpr i imm)
    if Writes i o ∧ (c = .satp → Sv39Mode v) then v else s.csr c
  others : ∀ c' ≠ c, s'.csr c' = s.csr c'
  rd : rd i ≠ 0 → s'.gpr (rd i) = s.csr c
  regs : ∀ r ≠ Zicsr.rd i, s'.gpr r = s.gpr r

/-- What a trap that returns has done: nothing for `sfence.vma`, and the effect of
    the instruction otherwise. -/
def Returns (i : Insn) (s s' : TrapHart) : Prop :=
  s'.gpr 0 = 0 ∧ s'.mepc = s.mepc + 4 ∧
    ((op i = none ∧ s'.gpr = s.gpr ∧ s'.csr = s.csr) ∨
      ∃ c o imm, Zicsr.csr i = c.num ∧ op i = some (o, imm) ∧ CsrEffect i c o imm s s')

theorem gpr_restoreRegs {h : TrapHart} {r : Fin 32} (hr : r ≠ 0) : h.restoreRegs.gpr r = h.regs r := by
  rw [TrapHart.gpr, if_neg hr]
  exact if_neg hr

theorem gpr_zero (h : TrapHart) : h.gpr 0 = 0 := if_pos rfl

theorem csr_setCsr (h : TrapHart) (c : Csr) (v : Word) :
    (h.setCsr v c).csr = Function.update h.csr c v := by
  funext c'
  cases c <;> cases c' <;> rfl

theorem write_eq (h : TrapHart) (c : Csr) (v : Word) (w : Prop) [Decidable w] {h' : TrapHart}
    (hh : h' = if w then h.written c v else h) :
    h'.csr = (if w ∧ (c = .satp → Sv39Mode v) then Function.update h.csr c v else h.csr) ∧
      h'.regs = h.regs ∧ h'.mepc = h.mepc := by
  by_cases hw : w
  · rw [if_pos hw, TrapHart.written] at hh
    by_cases hv : c = .satp ∧ v >>> satpModeOffset ≠ satpSv39
    · rw [if_pos hv] at hh
      rw [hh, if_neg fun h => hv.2 (h.2 hv.1)]
      exact ⟨rfl, rfl, rfl⟩
    · have hmode : c = .satp → Sv39Mode v := fun h => not_not.1 fun hn => hv ⟨h, hn⟩
      rw [if_neg hv] at hh
      rw [hh, if_pos ⟨hw, hmode⟩, csr_setCsr]
      cases c <;> exact ⟨rfl, rfl, rfl⟩
  · rw [if_neg hw] at hh
    rw [hh, if_neg fun h => hw h.1]
    exact ⟨rfl, rfl, rfl⟩

/-- **An emulated instruction, as the interrupted software sees it.** -/
theorem Emulated.returns {h' : TrapHart} (hE : Emulated i s.saveRegs h') : Returns i s h'.restoreRegs := by
  cases hE with
  | sfence hop hs =>
    refine ⟨gpr_zero _, rfl, .inl ⟨hop, ?_, rfl⟩⟩
    funext r
    by_cases hr : r = 0
    · rw [hr, gpr_zero, gpr_zero]
    · rw [gpr_restoreRegs hr]
      rfl
  | @csr c o imm hc hop =>
    generalize hw : (if Writes i o then _ else _ : TrapHart) = w
    obtain ⟨hcsr, hregs, hmepc⟩ := write_eq _ _ _ _ hw.symm
    refine ⟨gpr_zero _, congrArg (· + 4) hmepc, .inr ⟨c, o, imm, hc, hop, ?_, ?_, ?_, ?_⟩⟩
    · show w.csr c = _
      rw [hcsr]
      dsimp only
      split_ifs with h₁ h₂ h₂
      · exact Function.update_self ..
      · exact absurd h₁ h₂
      · exact absurd h₂ h₁
      · rfl
    · intro c' hc'
      show w.csr c' = s.csr c'
      rw [hcsr]
      split_ifs
      · exact Function.update_of_ne hc' ..
      · rfl
    · intro hrd
      rw [gpr_restoreRegs hrd, setRd, getReg_rd]
      exact Function.update_self ..
    · intro r hr
      by_cases h0 : r = 0
      · rw [h0, gpr_zero, gpr_zero]
      · rw [gpr_restoreRegs h0, setRd, getReg_rd]
        refine (Function.update_of_ne hr ..).trans ?_
        rw [hregs]
        rfl

/-! ## Sequences of traps -/

/-- A trap: the hart when the instruction `insn` traps. -/
structure Trap where
  insn : Insn
  mtval : Word
  before : TrapHart

/-- Between two traps everything may change but `satp`: every access to it traps. -/
structure Trap.Follows (e : Trap) (s : TrapHart) : Prop where
  satp : e.before.satp = s.satp
  faults : Faults e.insn e.mtval

def Trap.outcome (e : Trap) : Except TrapHart TrapHart := illegalInsnTrap e.mtval e.insn e.before

/-- A trap that returns. -/
def TrapStep (s : TrapHart) (e : Trap) (s' : TrapHart) : Prop := e.Follows s ∧ e.outcome = .ok s'

theorem Returns.sv39 (h : Returns i s s') (hs : Sv39Mode s.satp) : Sv39Mode s'.satp := by
  obtain ⟨-, -, ⟨-, -, hcsr⟩ | ⟨c, o, imm, -, -, hE⟩⟩ := h
  · have hsatp : s'.satp = s.satp := congrFun hcsr .satp
    rwa [hsatp]
  · by_cases hc : c = .satp
    · subst hc
      have hcsr : s'.satp = _ := hE.csr
      rw [hcsr]
      dsimp only
      split_ifs with hw
      · exact hw.2 rfl
      · exact hs
    · have hsatp : s'.satp = s.satp := hE.others .satp (Ne.symm hc)
      rwa [hsatp]

theorem Trap.Follows.outcome {e : Trap} (he : e.Follows s) :
    e.outcome = .error e.before.saveRegs ∨ ∃ s', e.outcome = .ok s' ∧ Returns e.insn e.before s' := by
  obtain h | ⟨h', h, hE⟩ := illegalInsnTrap_cases he.faults e.before
  · exact .inl h
  · exact .inr ⟨_, h, hE.returns⟩

theorem TrapStep.returns {e : Trap} (h : TrapStep s e s') : Returns e.insn e.before s' := by
  obtain he | ⟨s₁, he, hR⟩ := h.1.outcome
  · exact absurd (he.symm.trans h.2) (by simp)
  · exact Except.ok.inj (he.symm.trans h.2) ▸ hR

theorem sv39_of_runs {es : List Trap} (hs : Sv39Mode s.satp) (hr : Runs TrapStep s es s') :
    Sv39Mode s'.satp := by
  induction hr with
  | nil => exact hs
  | snoc _ h ih =>
    rw [← h.1.satp] at ih
    exact h.returns.sv39 ih

/-- **Emulation of CSR instructions.**  After any sequence of traps from Sv39 mode, a
    further trap leaves `satp` in Sv39 mode; unless it panics it has the effect of
    the instruction. -/
theorem csr_emulation {es : List Trap} {e : Trap} (hs : Sv39Mode s.satp)
    (hr : Runs TrapStep s es s') (he : e.Follows s') :
    match e.outcome with
    | .error h => Sv39Mode h.satp
    | .ok h => Sv39Mode h.satp ∧ Returns e.insn e.before h := by
  have hmode : Sv39Mode e.before.satp := he.satp ▸ sv39_of_runs hs hr
  obtain h | ⟨s₁, h, hR⟩ := he.outcome
  · rw [h]
    exact hmode
  · rw [h]
    exact ⟨hR.sv39 hmode, hR⟩

/-- A hart with the translation on, in U-mode or S-mode by its `mstatus`. -/
def sampleHart (mstatus : Word) : TrapHart where
  mepc := 0x80000000
  mtvec := 0
  mscratch := 0
  mstatus := mstatus
  mevbase := 0
  mevmask := 0
  mmrbm := 0
  memrbm := 0
  meparbase := 0
  meparmask := 0
  meatp := 0
  mie := 0
  mideleg := 0
  medeleg := 0
  timecmp := 0
  regs _ := 0
  x r := BitVec.ofNat 64 r
  satp := 0x8000000000000001
  scounteren := 7
  mcycle := 100
  minstret := 0
  mhpmcounter3 := 0
  mhpmcounter4 := 0
  mhpmevent3 := 0
  mhpmevent4 := 0
  mtime := 0

/-- `csrrw a0, satp, a1` in S-mode, with a value that would turn the translation off. -/
def translationOff : Trap := ⟨0x18059573, 0x18059573, sampleHart 0x800⟩

/-- `csrrs a0, cycle, zero` after it. -/
theorem csr_emulation_off : ∃ h, Runs TrapStep (sampleHart 0x800) [translationOff] h ∧
    let e : Trap := ⟨0xC0002573, 0, h⟩
    match e.outcome with
    | .error h => Sv39Mode h.satp
    | .ok h => Sv39Mode h.satp ∧ Returns e.insn e.before h := by
  have he : translationOff.Follows (sampleHart 0x800) := ⟨rfl, .inl rfl⟩
  obtain h | ⟨h, hout, -⟩ := he.outcome
  · exact absurd (congrArg Except.isOk h) (by decide +kernel)
  · have hr : Runs TrapStep (sampleHart 0x800) [translationOff] h := .snoc (.nil _) ⟨he, hout⟩
    exact ⟨h, hr, csr_emulation (by decide) hr ⟨rfl, .inr rfl⟩⟩

/-! ## Traps from U-mode -/

def TrapHart.withSatp (h : TrapHart) (v : Word) : TrapHart := { h with satp := v }

/-- What the software and the other CSRs show of a hart: everything but `satp` and
    the frame, which the next trap overwrites. -/
def TrapHart.observed (h : TrapHart) : TrapHart := { h with satp := 0, regs := fun _ => 0, x := h.gpr }

/-- Both traps panic, or both return with the same observations and the value of
    `satp` before. -/
def SameOutcome (s t : TrapHart) : Except TrapHart TrapHart → Except TrapHart TrapHart → Prop
  | .error _, .error _ => True
  | .ok s', .ok t' => s'.observed = t'.observed ∧ s'.satp = s.satp ∧ t'.satp = t.satp
  | _, _ => False

/-- The instruction moves `satp` to a register and does not write it. -/
def ReadsSatp (i : Insn) : Prop :=
  opcode i = 0b1110011 ∧ Zicsr.csr i = Csr.num .satp ∧ (∃ p, op i = some p ∧ ¬Writes i p.1) ∧ rd i ≠ 0

/-- From U-mode `sfence.vma` panics. -/
theorem emulateSystemOpcode_user {mstatus : Word} (hU : mpp mstatus = prvU) (h : TrapHart) :
    emulateSystemOpcode mstatus (i.setWidth 64) h =
      match emulateReadCsr ((Zicsr.csr i).setWidth 32) mstatus h, op i with
      | some old, some (o, imm) =>
        if Writes i o then
          match emulateWriteCsr ((Zicsr.csr i).setWidth 32) (o.apply old (operand h.regs i imm)) mstatus h with
          | .error h => .error h
          | .ok (err, h) => if err ≠ 0 then .error h else .ok (setRd (i.setWidth 64) h old)
        else .ok (setRd (i.setWidth 64) h old)
      | _, _ => .error h := by
  have hS : mpp mstatus ≠ prvS := by
    rw [hU]
    decide
  simp only [emulateSystemOpcode, rs1Num_eq, csrNum_eq, getReg_rs1, newCsrVal_eq, if_pos hS, trulyIllegalInsn]
  split_ifs with hf
  · have hop : op i = none := by
      rw [op, ← getRm_toNat, hf.1]
      rfl
    rw [hop]
    cases emulateReadCsr ((Zicsr.csr i).setWidth 32) mstatus h <;> rfl
  · cases emulateReadCsr ((Zicsr.csr i).setWidth 32) mstatus h with
    | none => rfl
    | some old =>
      cases op i with
      | none => rfl
      | some p => simp only [Option.map_some, doWrite_iff]

theorem emulateSystemOpcode_user_satp {mstatus : Word} (hU : mpp mstatus = prvU)
    (hc : Zicsr.csr i = Csr.num .satp) (h : TrapHart) :
    emulateSystemOpcode mstatus (i.setWidth 64) h =
      match op i with
      | some (o, _) => if Writes i o then .error h else .ok (setRd (i.setWidth 64) h h.satp)
      | none => .error h := by
  have hS : mpp mstatus ≠ prvS := by
    rw [hU]
    decide
  have hread : emulateReadCsr ((Csr.num .satp).setWidth 32) mstatus h = some h.satp := by
    rw [emulateReadCsr, Csr.ofNum_self]
    rfl
  have hwrite : ∀ v, emulateWriteCsr ((Csr.num .satp).setWidth 32) v mstatus h = .error h := fun v => by
    rw [emulateWriteCsr, Csr.ofNum_self]
    exact if_pos hS
  rw [emulateSystemOpcode_user hU, hc, hread]
  cases op i with
  | none => rfl
  | some p => simp only [hwrite]

theorem illegalInsnTrap_read {p : Op × Bool} (hm : Faults i mtval) (hU : mpp s.mstatus = prvU)
    (hop : opcode i = 0b1110011) (hc : Zicsr.csr i = Csr.num .satp) (ho : op i = some p) (hw : ¬Writes i p.1) :
    illegalInsnTrap mtval i s =
      .ok (setRd (i.setWidth 64) s.saveRegs s.saveRegs.satp).restoreRegs := by
  rw [illegalInsnTrap_eq hm, if_pos hop, emulateSystemOpcode_user_satp hU hc, ho]
  simp only [if_neg hw]

section
variable {num : BitVec 32}

theorem emulateReadCsr_withSatp {mstatus : Word} (hc : Csr.ofNum num ≠ some .satp) (h : TrapHart) (v : Word) :
    emulateReadCsr num mstatus (h.withSatp v) = emulateReadCsr num mstatus h := by
  cases hnum : Csr.ofNum num with
  | none => rw [emulateReadCsr, emulateReadCsr, hnum]; rfl
  | some c =>
    rw [emulateReadCsr, emulateReadCsr, hnum]
    cases c with
    | satp => exact absurd hnum hc
    | cycle | time | instret | mhpmcounter3 | mhpmcounter4 | mhpmevent3 | mhpmevent4 => rfl

theorem emulateWriteCsr_withSatp (hc : Csr.ofNum num ≠ some .satp) (value mstatus : Word) (h : TrapHart)
    (v : Word) :
    ∃ err h', emulateWriteCsr num value mstatus h = .ok (err, h') ∧
      emulateWriteCsr num value mstatus (h.withSatp v) = .ok (err, h'.withSatp v) ∧ h'.satp = h.satp := by
  simp only [emulateWriteCsr]
  cases hnum : Csr.ofNum num with
  | none => exact ⟨_, _, rfl, rfl, rfl⟩
  | some c =>
    cases c with
    | satp => exact absurd hnum hc
    | cycle | time | instret | mhpmcounter3 | mhpmcounter4 | mhpmevent3 | mhpmevent4 =>
      exact ⟨_, _, rfl, rfl, rfl⟩

end

/-- An instruction on another CSR does not depend on `satp`. -/
theorem emulateSystemOpcode_user_other {mstatus : Word} (hU : mpp mstatus = prvU)
    (hc : Zicsr.csr i ≠ Csr.num .satp) (h : TrapHart) (v : Word) :
    (∃ h₁ h₂, emulateSystemOpcode mstatus (i.setWidth 64) h = .error h₁ ∧
      emulateSystemOpcode mstatus (i.setWidth 64) (h.withSatp v) = .error h₂) ∨
    ∃ h', emulateSystemOpcode mstatus (i.setWidth 64) h = .ok h' ∧
      emulateSystemOpcode mstatus (i.setWidth 64) (h.withSatp v) = .ok (h'.withSatp v) ∧ h'.satp = h.satp := by
  have hnum : Csr.ofNum ((Zicsr.csr i).setWidth 32) ≠ some .satp := fun h => hc (Csr.ofNum_num h)
  rw [emulateSystemOpcode_user hU, emulateSystemOpcode_user hU, emulateReadCsr_withSatp hnum]
  cases emulateReadCsr ((Zicsr.csr i).setWidth 32) mstatus h with
  | none => exact .inl ⟨_, _, rfl, rfl⟩
  | some old =>
    cases op i with
    | none => exact .inl ⟨_, _, rfl, rfl⟩
    | some p =>
      obtain ⟨o, imm⟩ := p
      by_cases hw : Writes i o
      · obtain ⟨err, h', h₁, h₂, hsatp⟩ := emulateWriteCsr_withSatp hnum
          (o.apply old (operand h.regs i imm)) mstatus h v
        have hregs : (h.withSatp v).regs = h.regs := rfl
        simp only [if_pos hw, h₁, hregs, h₂]
        by_cases he : err ≠ 0
        · rw [if_pos he, if_pos he]
          exact .inl ⟨_, _, rfl, rfl⟩
        · rw [if_neg he, if_neg he]
          exact .inr ⟨_, rfl, rfl, hsatp⟩
      · simp only [if_neg hw]
        exact .inr ⟨_, rfl, rfl, rfl⟩

/-- A read of `satp` shows its value, unless it goes to `x0`. -/
theorem sameOutcome_read_iff {v : Word} :
    SameOutcome s (s.withSatp v) (.ok (setRd (i.setWidth 64) s.saveRegs s.saveRegs.satp).restoreRegs)
        (.ok (setRd (i.setWidth 64) (s.withSatp v).saveRegs (s.withSatp v).saveRegs.satp).restoreRegs) ↔
      (s.satp = v ∨ ¬rd i ≠ 0) := by
  have hgpr : ∀ (h : TrapHart) (w : Word) (r : Fin 32), r ≠ 0 →
      (setRd (i.setWidth 64) h w).restoreRegs.gpr r = Function.update h.regs (rd i) w r := fun h w r hr => by
    rw [gpr_restoreRegs hr, setRd, getReg_rd]
  constructor
  · rintro ⟨hobs, -, -⟩
    refine or_iff_not_imp_right.2 fun hrd => ?_
    have hx : (setRd (i.setWidth 64) s.saveRegs s.satp).restoreRegs.gpr (rd i) =
        (setRd (i.setWidth 64) (s.withSatp v).saveRegs v).restoreRegs.gpr (rd i) :=
      congrFun (congrArg TrapHart.x hobs) (rd i)
    rwa [hgpr _ _ _ (not_not.1 hrd), hgpr _ _ _ (not_not.1 hrd), Function.update_self,
      Function.update_self] at hx
  · intro h
    refine ⟨?_, rfl, rfl⟩
    have hx : (setRd (i.setWidth 64) s.saveRegs s.satp).restoreRegs.gpr =
        (setRd (i.setWidth 64) (s.withSatp v).saveRegs v).restoreRegs.gpr := by
      funext r
      by_cases hr : r = 0
      · rw [hr, gpr_zero, gpr_zero]
      · rw [hgpr _ _ _ hr, hgpr _ _ _ hr]
        rcases h with rfl | hrd
        · rfl
        · rw [not_not.1 hrd, Function.update_of_ne hr, Function.update_of_ne hr]
          rfl
    exact congrArg (fun x => ({ s with satp := 0, regs := fun _ => 0, x := x, mepc := s.mepc + 4 } : TrapHart)) hx

/-- **What U-mode learns about `satp`.**  Traps of two harts that differ only in
    `satp` have the same outcome, unless the instruction reads `satp` without
    writing it. -/
theorem satp_hidden_iff {v : Word} (hm : Faults i mtval) (hU : mpp s.mstatus = prvU) :
    SameOutcome s (s.withSatp v) (illegalInsnTrap mtval i s) (illegalInsnTrap mtval i (s.withSatp v)) ↔
      (s.satp = v ∨ ¬ReadsSatp i) := by
  have hU' : mpp (s.withSatp v).mstatus = prvU := hU
  by_cases hread : opcode i = 0b1110011 ∧ Zicsr.csr i = Csr.num .satp ∧ ∃ p, op i = some p ∧ ¬Writes i p.1
  · obtain ⟨hop, hc, p, ho, hw⟩ := hread
    rw [illegalInsnTrap_read hm hU hop hc ho hw, illegalInsnTrap_read hm hU' hop hc ho hw, sameOutcome_read_iff]
    refine or_congr_right (not_congr ?_).symm
    exact ⟨fun h => h.2.2.2, fun h => ⟨hop, hc, ⟨p, ho, hw⟩, h⟩⟩
  · refine iff_of_true ?_ (.inr fun h => hread ⟨h.1, h.2.1, h.2.2.1⟩)
    rw [illegalInsnTrap_eq hm, illegalInsnTrap_eq hm]
    by_cases hop : opcode i = 0b1110011
    · rw [if_pos hop, if_pos hop]
      by_cases hc : Zicsr.csr i = Csr.num .satp
      · -- every other instruction on `satp` panics
        rw [emulateSystemOpcode_user_satp hU hc, emulateSystemOpcode_user_satp hU' hc]
        cases ho : op i with
        | none => trivial
        | some p =>
          have hw : Writes i p.1 := not_not.1 fun hw => hread ⟨hop, hc, p, ho, hw⟩
          simp only [if_pos hw]
          trivial
      · obtain ⟨h₁, h₂, he₁, he₂⟩ | ⟨h', he₁, he₂, hsatp⟩ :=
          emulateSystemOpcode_user_other hU hc s.saveRegs v
        · rw [he₁, show (s.withSatp v).mstatus = s.mstatus from rfl,
            show (s.withSatp v).saveRegs = s.saveRegs.withSatp v from rfl, he₂]
          trivial
        · rw [he₁, show (s.withSatp v).mstatus = s.mstatus from rfl,
            show (s.withSatp v).saveRegs = s.saveRegs.withSatp v from rfl, he₂]
          exact ⟨rfl, hsatp, rfl⟩
    · rw [if_neg hop, if_neg hop]
      trivial

/-- `csrrs a0, cycle, zero` -/
theorem satp_hidden_cycle :
    SameOutcome (sampleHart 0) ((sampleHart 0).withSatp 0x8000000000000002)
      (illegalInsnTrap 0xC0002573 0xC0002573 (sampleHart 0))
      (illegalInsnTrap 0xC0002573 0xC0002573 ((sampleHart 0).withSatp 0x8000000000000002)) :=
  (satp_hidden_iff (.inl (by decide)) (by decide)).2 (.inr fun h => absurd h.2.1 (by decide))

/-- `csrrs a0, satp, zero` in U-mode returns `satp`. -/
theorem satp_hidden_fails :
    mpp (sampleHart 0).mstatus = prvU ∧ Sv39Mode (sampleHart 0).satp ∧ Sv39Mode 0x8000000000000002 ∧
      ¬SameOutcome (sampleHart 0) ((sampleHart 0).withSatp 0x8000000000000002)
        (illegalInsnTrap 0x18002573 0x18002573 (sampleHart 0))
        (illegalInsnTrap 0x18002573 0x18002573 ((sampleHart 0).withSatp 0x8000000000000002)) := by
  have hU : mpp (sampleHart 0).mstatus = prvU := by decide
  have hread : ∀ h : TrapHart, mpp h.mstatus = prvU → illegalInsnTrap 0x18002573 0x18002573 h =
      .ok (setRd (BitVec.setWidth 64 (0x18002573 : Insn)) h.saveRegs h.saveRegs.satp).restoreRegs := fun h hU =>
    illegalInsnTrap_read (.inl (by decide)) hU (by decide) (by decide)
      (show op 0x18002573 = some (.set, false) by decide) (by decide)
  refine ⟨hU, by decide, by decide, ?_⟩
  rw [hread (sampleHart 0) hU, hread ((sampleHart 0).withSatp 0x8000000000000002) hU, sameOutcome_read_iff]
  decide

end

end SecurityMonitor
