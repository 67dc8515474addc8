/-
  The CSR instructions of RISC-V (extension Zicsr).

  * the fields of a 32-bit SYSTEM instruction: `rd`, `funct3`, `rs1`, `csr`;
  * `op`: the six forms, that is three operations with a register or an
    immediate operand;
  * `Op.apply` is the value an operation writes; the write is left out if
    `Writes` fails.
-/
import Mathlib

namespace Zicsr

abbrev Insn := BitVec 32

section
variable (i : Insn)

def opcode : BitVec 7 := i.extractLsb' 0 7
def rd : Fin 32 := (i.extractLsb' 7 5).toFin
def funct3 : BitVec 3 := i.extractLsb' 12 3
def rs1 : Fin 32 := (i.extractLsb' 15 5).toFin
def csr : BitVec 12 := i.extractLsb' 20 12

end

/-- `csrrw`, `csrrs` and `csrrc` -/
inductive Op where
  | write
  | set
  | clear
  deriving DecidableEq

/-- The operation, and whether its operand is the immediate in the `rs1` field. -/
def op (i : Insn) : Option (Op × Bool) :=
  match (funct3 i).toNat with
  | 1 => some (.write, false)
  | 2 => some (.set, false)
  | 3 => some (.clear, false)
  | 5 => some (.write, true)
  | 6 => some (.set, true)
  | 7 => some (.clear, true)
  | _ => none

def operand (x : Fin 32 → BitVec 64) (i : Insn) (imm : Bool) : BitVec 64 :=
  if imm then BitVec.ofNat 64 (rs1 i) else x (rs1 i)

def Op.apply : Op → BitVec 64 → BitVec 64 → BitVec 64
  | write, _, v => v
  | set, old, v => old ||| v
  | clear, old, v => old &&& ~~~v

/-- The write is suppressed for the set and clear forms whose `rs1` field is zero. -/
def Writes (i : Insn) (o : Op) : Prop := o = .write ∨ rs1 i ≠ 0

instance (i : Insn) (o : Op) : Decidable (Writes i o) := inferInstanceAs (Decidable (_ ∨ _))

theorem toNat_rd (i : Insn) : (rd i).val = i.toNat >>> 7 % 2 ^ 5 := BitVec.extractLsb'_toNat ..

theorem toNat_rs1 (i : Insn) : (rs1 i).val = i.toNat >>> 15 % 2 ^ 5 := BitVec.extractLsb'_toNat ..

theorem toNat_funct3 (i : Insn) : (funct3 i).toNat = i.toNat >>> 12 % 2 ^ 3 :=
  BitVec.extractLsb'_toNat ..

theorem toNat_csr (i : Insn) : (csr i).toNat = i.toNat >>> 20 := by
  rw [csr, BitVec.extractLsb'_toNat, Nat.mod_eq_of_lt]
  have := i.isLt
  rw [Nat.shiftRight_eq_div_pow]
  omega

theorem toNat_opcode (i : Insn) : (opcode i).toNat = i.toNat % 2 ^ 7 := by
  rw [opcode, BitVec.extractLsb'_toNat, Nat.shiftRight_zero]

end Zicsr
