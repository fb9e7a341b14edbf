import Lox.Operator

/-!
# Opcodes

The instructions of the machine. An instruction is one byte, its opcode, and an operand of no, one or
two bytes; `Opcode.form` says which.
-/

namespace Lox

inductive Opcode where
  | nop
  | binary (op : BinaryOp)
  | unary (op : UnaryOp)
  | pushConstant
  | pushNil
  | pushTrue
  | pushFalse
  | pop
  | print
  | defineGlobal
  | setGlobal
  | getGlobal
  | setLocal
  | getLocal
  | jump
  /-- Jumps forward if the topmost value does not hold, and leaves it. -/
  | jumpIfFalse
  /-- Jumps forward if the topmost value holds, and leaves it. -/
  | jumpIfTrue
  | jumpSigned
  /-- Stands for what the machine does not do, and always faults. -/
  | trap
deriving DecidableEq, Repr

/-- How the operand of an instruction is written. -/
inductive OperandForm where
  | none
  | byte
  /-- Two bytes, the lower first. -/
  | word
  /-- Two bytes in two's complement, the lower first. -/
  | signedWord
deriving DecidableEq, Repr

def OperandForm.size : OperandForm → Nat
  | none => 0
  | byte => 1
  | word => 2
  | signedWord => 2

namespace Opcode

def form : Opcode → OperandForm
  | pushConstant | defineGlobal | setGlobal | getGlobal | setLocal | getLocal => .byte
  | jump | jumpIfFalse | jumpIfTrue => .word
  | jumpSigned => .signedWord
  | nop | binary _ | unary _ | pushNil | pushTrue | pushFalse | pop | print | trap => .none

/-- How many bytes the operand takes. -/
def operandSize : Opcode → Nat
  | pushConstant | defineGlobal | setGlobal | getGlobal | setLocal | getLocal => 1
  | jump | jumpIfFalse | jumpIfTrue | jumpSigned => 2
  | nop | binary _ | unary _ | pushNil | pushTrue | pushFalse | pop | print | trap => 0

theorem operandSize_eq (op : Opcode) : op.operandSize = op.form.size := by
  cases op <;> rfl

def toByte : Opcode → UInt8
  | nop => 0
  | binary .add => 1
  | binary .subtract => 2
  | binary .multiply => 3
  | binary .divide => 4
  | unary .negate => 5
  | unary .not => 6
  | binary .less => 7
  | binary .lessEqual => 8
  | binary .greater => 9
  | binary .greaterEqual => 10
  | binary .equal => 11
  | binary .notEqual => 12
  | pushConstant => 13
  | pushNil => 14
  | pushTrue => 15
  | pushFalse => 16
  | pop => 17
  | print => 18
  | defineGlobal => 19
  | setGlobal => 20
  | getGlobal => 21
  | setLocal => 22
  | getLocal => 23
  | jump => 24
  | jumpIfFalse => 25
  | jumpIfTrue => 26
  | jumpSigned => 27
  | trap => 255

/-- The opcode that a byte stands for. -/
def ofByte? : UInt8 → Option Opcode
  | 0 => some nop
  | 1 => some (binary .add)
  | 2 => some (binary .subtract)
  | 3 => some (binary .multiply)
  | 4 => some (binary .divide)
  | 5 => some (unary .negate)
  | 6 => some (unary .not)
  | 7 => some (binary .less)
  | 8 => some (binary .lessEqual)
  | 9 => some (binary .greater)
  | 10 => some (binary .greaterEqual)
  | 11 => some (binary .equal)
  | 12 => some (binary .notEqual)
  | 13 => some pushConstant
  | 14 => some pushNil
  | 15 => some pushTrue
  | 16 => some pushFalse
  | 17 => some pop
  | 18 => some print
  | 19 => some defineGlobal
  | 20 => some setGlobal
  | 21 => some getGlobal
  | 22 => some setLocal
  | 23 => some getLocal
  | 24 => some jump
  | 25 => some jumpIfFalse
  | 26 => some jumpIfTrue
  | 27 => some jumpSigned
  | 255 => some trap
  | _ => Option.none

/-- The opcode as listings show it. -/
def mnemonic : Opcode → String
  | nop => "nop"
  | binary .add => "add"
  | binary .subtract => "sub"
  | binary .multiply => "mul"
  | binary .divide => "div"
  | unary .negate => "neg"
  | unary .not => "not"
  | binary .less => "less"
  | binary .lessEqual => "less_equal"
  | binary .greater => "greater"
  | binary .greaterEqual => "greater_equal"
  | binary .equal => "equal"
  | binary .notEqual => "not_equal"
  | pushConstant => "push_constant"
  | pushNil => "push_nil"
  | pushTrue => "push_true"
  | pushFalse => "push_false"
  | pop => "pop"
  | print => "print"
  | defineGlobal => "define_global"
  | setGlobal => "set_global"
  | getGlobal => "get_global"
  | setLocal => "set_local"
  | getLocal => "get_local"
  | jump => "jmp"
  | jumpIfFalse => "jmp_false"
  | jumpIfTrue => "jmp_true"
  | jumpSigned => "jmp_signed"
  | trap => "trap"

/-- A byte and the opcode it stands for name each other. -/
theorem ofByte?_toByte (op : Opcode) : ofByte? op.toByte = some op := by
  cases op with
  | binary op => cases op <;> rfl
  | unary op => cases op <;> rfl
  | _ => rfl

end Opcode

end Lox
