import Lox.Proofs.Loading

/-!
# Executing assembly

A step of the machine executes the line of assembly that stands at its offset.

* `Machine.Runs m out` : the machine has loaded the compiled program;
* `Line.execute` : what an instruction does, its operand and its span being known;
* `Machine.step_eq` : the step of the machine is that of the line;
* `Machine.Reaches n m m'` : `m` gets to `m'` in `n` steps; `Machine.Stops m f m'` : `m` ends with the
  failure `f`.
-/

namespace Lox

/-! ## Reading an instruction -/

namespace Machine

def goto (m : Machine) (o : Nat) : Machine :=
  { m with reader := { m.reader with offset := o } }

structure Runs (m : Machine) (out : Compiled) : Prop where
  code : m.reader.code = out.code
  spans : m.spans = out.spans
  constants : m.constants = (out.pool.constants.map Constant.value).toArray

theorem loaded_runs (m : Machine) (out : Compiled) : (m.loaded out).Runs out :=
  ⟨rfl, rfl, rfl⟩

/-- Whether a machine executes a program does not depend on its values. -/
theorem Runs.congr {m m' : Machine} {out : Compiled} (h : m.Runs out) (hcode : m'.reader.code = m.reader.code)
    (hspans : m'.spans = m.spans) (hconstants : m'.constants = m.constants) : m'.Runs out :=
  ⟨hcode.trans h.code, hspans.trans h.spans, hconstants.trans h.constants⟩

theorem Runs.goto {m : Machine} {out : Compiled} (h : m.Runs out) (o : Nat) : (m.goto o).Runs out :=
  ⟨h.code, h.spans, h.constants⟩

end Machine

namespace Reader

variable {r : Reader}

theorem opcode_apply {op : Opcode} (h : r.code[r.offset]? = some op.toByte) : opcode r = .ok op (r.skip 1) := by
  unfold opcode
  rw [apply_bind_of_ok (apply_get r), apply_bind_of_ok (byte_apply h)]
  simp only [Opcode.ofByte?_toByte]
  rfl

theorem word_apply {w : Nat} (hw : w < 0x10000)
    (h : ∀ j b, (toLittleEndian 2 w)[j]? = some b → r.code[r.offset + j]? = some b) :
    word r = .ok w (r.skip 2) := by
  have hvalue : littleEndian [UInt8.ofNat w, UInt8.ofNat (w / 256)] = w := by
    have hmod : w % 256 ^ 2 = w := Nat.mod_eq_of_lt hw
    exact (littleEndian_toLittleEndian 2 w).trans hmod
  have hlow : r.code[r.offset]? = some (UInt8.ofNat w) := h 0 _ rfl
  have hhigh : r.code[r.offset + 1]? = some (UInt8.ofNat (w / 256)) := h 1 _ rfl
  unfold word
  rw [hlow, hhigh]
  simp only [hvalue]
  rfl

theorem signed_emod {d : Int} (hlow : -0x8000 ≤ d) (hhigh : d < 0x8000) : signed (d % 0x10000).toNat = d := by
  unfold signed
  split <;> omega

theorem signedWord_apply {d : Int} (hlow : -0x8000 ≤ d) (hhigh : d < 0x8000)
    (h : ∀ j b, (toLittleEndian 2 (d % 0x10000).toNat)[j]? = some b → r.code[r.offset + j]? = some b) :
    signedWord r = .ok d (r.skip 2) := by
  unfold signedWord
  rw [apply_bind_of_ok (word_apply (by omega) h), apply_pure, signed_emod hlow hhigh]

theorem jump_apply {d : Int} {target : Nat} (htarget : (r.offset : Int) + d = target) (hle : target ≤ r.code.size) :
    jump d r = .ok () { r with offset := target } := by
  unfold jump
  rw [apply_bind_of_ok (apply_get r), htarget, seek, if_pos ⟨Int.natCast_nonneg _, Int.ofNat_le.mpr hle⟩]
  rfl

end Reader

namespace Execution

variable {m : Machine} {out : Compiled} {o : Nat}

theorem decode_byte {b : UInt8} (h : m.reader.code[o]? = some b) :
    decode Reader.byte (m.goto o) = .ok b (m.goto (o + 1)) :=
  decode_apply (Reader.byte_apply h)

theorem decode_opcode {op : Opcode} (h : m.reader.code[o]? = some op.toByte) :
    decode Reader.opcode (m.goto o) = .ok op (m.goto (o + 1)) :=
  decode_apply (Reader.opcode_apply h)

theorem decode_word {w : Nat} (hw : w < 0x10000)
    (h : ∀ j b, (toLittleEndian 2 w)[j]? = some b → m.reader.code[o + j]? = some b) :
    decode Reader.word (m.goto o) = .ok w (m.goto (o + 2)) :=
  decode_apply (Reader.word_apply hw h)

theorem decode_signedWord {d : Nat} (hd : d ≤ 0x8000)
    (h : ∀ j b, (toLittleEndian 2 (-(d : Int) % 0x10000).toNat)[j]? = some b → m.reader.code[o + j]? = some b) :
    decode Reader.signedWord (m.goto o) = .ok (-(d : Int)) (m.goto (o + 2)) :=
  decode_apply (Reader.signedWord_apply (by omega) (by omega) h)

theorem raise_apply (hm : m.Runs out) {span : Span} (h : out.spans.spanAt? o = some span)
    (e : Span → RuntimeError) : (raise o e : Execution Unit) m = .error (.runtime (e span)) m := by
  unfold raise
  rw [apply_bind_of_ok (apply_get m), hm.spans, h]
  rfl

theorem pop_eq_ok {v : Value} {m' : Machine} (h : pop m = .ok v m') :
    ∃ rest, m.stack = v :: rest ∧ m' = { m with stack := rest } := by
  unfold pop at h
  split at h
  · cases h
  · cases h
    exact ⟨_, ‹_›, rfl⟩

theorem top_eq_ok {v : Value} {m' : Machine} (h : top m = .ok v m') :
    (∃ rest, m.stack = v :: rest) ∧ m' = m := by
  unfold top at h
  rw [apply_bind_of_ok (apply_get m)] at h
  cases hs : m.stack with
  | nil => rw [hs] at h; cases h
  | cons u rest =>
      rw [hs] at h
      cases h
      exact ⟨⟨rest, rfl⟩, rfl⟩

/-- The value of a constant in the pool is in the table of the machine, at the index of the constant. -/
theorem constant_apply (hm : m.Runs out) (hlen : out.pool.constants.length ≤ 256) {k : Constant}
    (hk : k ∈ out.pool.constants)
    (h : m.reader.code[o]? = some (UInt8.ofNat (out.pool.constants.idxOf k))) :
    constant (m.goto o) = .ok (UInt8.ofNat (out.pool.constants.idxOf k), k.value) (m.goto (o + 1)) := by
  have hlt : out.pool.constants.idxOf k < out.pool.constants.length := List.idxOf_lt_length_of_mem hk
  have hindex : (UInt8.ofNat (out.pool.constants.idxOf k)).toNat = out.pool.constants.idxOf k :=
    UInt8.toNat_ofNat_of_lt' (Nat.lt_of_lt_of_le hlt hlen)
  have hvalue : (m.goto (o + 1)).constants[out.pool.constants.idxOf k]? = some k.value := by
    rw [(hm.goto _).constants, List.getElem?_toArray, List.getElem?_map, List.getElem?_idxOf hk]
    rfl
  unfold constant
  rw [apply_bind_of_ok (decode_byte h), apply_bind_of_ok (apply_get _), hindex, hvalue]
  rfl

theorem globalName_apply (hm : m.Runs out) (hlen : out.pool.constants.length ≤ 256) {name : String}
    (hk : Constant.string name ∈ out.pool.constants)
    (h : m.reader.code[o]? = some (UInt8.ofNat (out.pool.constants.idxOf (.string name)))) :
    globalName (m.goto o) = .ok name (m.goto (o + 1)) := by
  unfold globalName
  rw [apply_bind_of_ok (constant_apply hm hlen hk h)]
  rfl

end Execution

/-! ## Lines as instructions of the machine -/

open Execution in
/-- What the instruction of a line does, where `start` is the offset it stands at and the machine has
already read it. -/
def Line.execute (start : Nat) (l : Line) : Execution Unit :=
  match l.instr with
  | .binary op => do
    let b ← pop
    let a ← pop
    match op.apply a b with
    | .ok v => push v
    | .error .divisionByZero => throw (.runtime (.divisionByZero l.span))
    | .error .unsupported => throw (.runtime (.unsupportedBinary op a.type b.type l.span))
  | .unary op => do
    let v ← pop
    match op.apply v with
    | .ok r => push r
    | .error _ => throw (.runtime (.unsupportedUnary op v.type l.span))
  | .pushConstant k => push k.value
  | .pushNil => push .nil
  | .pushTrue => push (.boolean true)
  | .pushFalse => push (.boolean false)
  | .pop => do
    let _ ← pop
  | .print => do
    let v ← pop
    printLine v.text
  | .defineGlobal name => do
    let v ← pop
    modify fun m => { m with globals := m.globals.insert name v }
  | .setGlobal name => do
    let v ← top
    if (← get).globals.contains name then
      modify fun m => { m with globals := m.globals.insert name v }
    else
      throw (.runtime (.undefinedGlobal name l.span))
  | .getGlobal name => do
    match (← get).globals[name]? with
    | some v => push v
    | none => throw (.runtime (.undefinedGlobal name l.span))
  | .setLocal slot => do
    let v ← top
    let i ← place (UInt8.ofNat slot)
    modify fun m => { m with stack := m.stack.set i v }
  | .getLocal slot => do
    let i ← place (UInt8.ofNat slot)
    push ((← get).stack.getD i .nil)
  | .jump d => decode (Reader.jump d)
  | .jumpIfFalse d => do
    if (← top).truthy = false then decode (Reader.jump d)
  | .jumpIfTrue d => do
    if (← top).truthy = true then decode (Reader.jump d)
  | .loop d => decode (Reader.jump (-d))
  | .trap => fault (.trap start)

namespace Machine

theorem Runs.pop {m m' : Machine} {out : Compiled} {v : Value} (h : m.Runs out)
    (hpop : Execution.pop m = .ok v m') : m'.Runs out := by
  obtain ⟨rest, -, rfl⟩ := Execution.pop_eq_ok hpop
  exact ⟨h.code, h.spans, h.constants⟩

variable {m : Machine} {out : Compiled} {l : Line}

/-- Reading an opcode leaves the operand to be read. -/
theorem step_eq_perform (hm : m.Runs out) (hl : out.HoldsLine m.reader.offset l) :
    step m = Execution.perform m.reader.offset l.instr.opcode (m.goto (m.reader.offset + 1)) := by
  have hop : m.reader.code[m.reader.offset]? = some l.instr.opcode.toByte := by
    rw [hm.code]
    exact hl.bytes 0 _ rfl
  unfold step
  rw [apply_bind_of_ok (apply_get m)]
  exact apply_bind_of_ok (Execution.decode_opcode hop)

theorem operand_byte (hm : m.Runs out) (hl : out.HoldsLine m.reader.offset l) {b : UInt8}
    (h : l.instr.operand out.pool.constants = [b]) : m.reader.code[m.reader.offset + 1]? = some b := by
  rw [hm.code]
  apply hl.bytes 1
  rw [Instr.bytes, h]
  rfl

theorem operand_word (hm : m.Runs out) (hl : out.HoldsLine m.reader.offset l) {w : Nat}
    (h : l.instr.operand out.pool.constants = toLittleEndian 2 w) (j : Nat) (b : UInt8)
    (hj : (toLittleEndian 2 w)[j]? = some b) : m.reader.code[m.reader.offset + 1 + j]? = some b := by
  rw [hm.code, Nat.add_assoc, Nat.add_comm 1 j]
  apply hl.bytes (j + 1)
  rw [Instr.bytes, h]
  exact hj

/-- A step executes the line that stands at the offset of the machine. -/
theorem step_eq (hm : m.Runs out) (hsound : out.pool.Sound) (hl : out.HoldsLine m.reader.offset l) :
    step m = l.execute m.reader.offset (m.goto (m.reader.offset + l.instr.size)) := by
  rw [step_eq_perform hm hl]
  have hlen := hsound.length_le
  have hbyte := @operand_byte m out l hm hl
  have hword := @operand_word m out l hm hl
  have hspan := hl.span
  have hfits := hl.fits
  have hraise := fun (m' : Machine) (h : m'.Runs out) e => Execution.raise_apply h hspan e
  generalize m.reader.offset = o at *
  obtain ⟨i, span, height⟩ := l
  cases i with
  | binary op =>
      refine apply_bind_congr fun b m₁ h₁ => apply_bind_congr fun a m₂ h₂ => ?_
      have hm₂ : m₂.Runs out := ((hm.goto _).pop h₁).pop h₂
      cases op.apply a b with
      | ok v => rfl
      | error r => cases r <;> exact hraise m₂ hm₂ _
  | unary op =>
      refine apply_bind_congr fun v m₁ h₁ => ?_
      have hm₁ : m₁.Runs out := (hm.goto _).pop h₁
      cases op.apply v with
      | ok r => rfl
      | error r => exact hraise m₁ hm₁ _
  | pushConstant k =>
      change Execution.perform o .pushConstant (m.goto (o + 1)) = Execution.push k.value (m.goto (o + 2))
      rw [Execution.perform, apply_bind_of_ok (Execution.constant_apply hm hlen hfits (hbyte rfl))]
  | pushNil => rfl
  | pushTrue => rfl
  | pushFalse => rfl
  | pop => rfl
  | print => rfl
  | defineGlobal name =>
      change Execution.perform o .defineGlobal (m.goto (o + 1)) = _
      rw [Execution.perform, apply_bind_of_ok (Execution.globalName_apply hm hlen hfits (hbyte rfl))]
      rfl
  | setGlobal name =>
      change Execution.perform o .setGlobal (m.goto (o + 1)) = _
      rw [Execution.perform, apply_bind_of_ok (Execution.globalName_apply hm hlen hfits (hbyte rfl))]
      refine apply_bind_congr fun v m₁ h₁ => apply_bind_congr fun m₂ m₃ h₃ => ?_
      obtain ⟨-, rfl⟩ := Execution.top_eq_ok h₁
      obtain ⟨rfl, rfl⟩ := EStateM.Result.ok.inj h₃
      split
      · rfl
      · exact hraise _ (hm.goto _) _
  | getGlobal name =>
      change Execution.perform o .getGlobal (m.goto (o + 1)) = _
      rw [Execution.perform, apply_bind_of_ok (Execution.globalName_apply hm hlen hfits (hbyte rfl))]
      refine apply_bind_congr fun m₂ m₃ h₃ => ?_
      obtain ⟨rfl, rfl⟩ := EStateM.Result.ok.inj h₃
      cases (m.goto (o + 2)).globals[name]? with
      | some v => rfl
      | none => exact hraise _ (hm.goto _) _
  | setLocal slot =>
      change Execution.perform o .setLocal (m.goto (o + 1)) = _
      rw [Execution.perform, apply_bind_of_ok (Execution.decode_byte (hbyte rfl))]
      rfl
  | getLocal slot =>
      change Execution.perform o .getLocal (m.goto (o + 1)) = _
      rw [Execution.perform, apply_bind_of_ok (Execution.decode_byte (hbyte rfl))]
      rfl
  | jump d =>
      change Execution.perform o .jump (m.goto (o + 1)) = _
      rw [Execution.perform, apply_bind_of_ok (Execution.decode_word (Nat.lt_succ_of_le hfits) (hword rfl))]
      rfl
  | jumpIfFalse d =>
      change Execution.jumpWhen false (m.goto (o + 1)) = _
      rw [Execution.jumpWhen, apply_bind_of_ok (Execution.decode_word (Nat.lt_succ_of_le hfits) (hword rfl))]
      rfl
  | jumpIfTrue d =>
      change Execution.jumpWhen true (m.goto (o + 1)) = _
      rw [Execution.jumpWhen, apply_bind_of_ok (Execution.decode_word (Nat.lt_succ_of_le hfits) (hword rfl))]
      rfl
  | loop d =>
      change Execution.perform o .jumpSigned (m.goto (o + 1)) = _
      have hread : Execution.decode Reader.signedWord (m.goto (o + 1)) = .ok (-(d : Int)) (m.goto (o + 3)) :=
        Execution.decode_signedWord hfits (hword rfl)
      rw [Execution.perform, apply_bind_of_ok hread]
      rfl
  | trap => rfl

/-! ## Many steps -/

theorem atEnd_of_holdsLine (hm : m.Runs out) (hl : out.HoldsLine m.reader.offset l) : m.reader.atEnd = false := by
  have hop : out.code[m.reader.offset]? = some l.instr.opcode.toByte := hl.bytes 0 _ rfl
  obtain ⟨hlt, -⟩ := Array.getElem?_eq_some_iff.mp hop
  rw [Reader.atEnd, hm.code, decide_eq_false_iff_not]
  omega

/-- From `m` the machine gets to `m'` in `n` steps. -/
def Reaches (n : Nat) (m m' : Machine) : Prop :=
  ∀ fuel, run (n + fuel) m = run fuel m'

/-- From `m` the machine goes on for a while and then fails, and is left as `m'`. -/
def Stops (m : Machine) (f : Failure) (m' : Machine) : Prop :=
  ∃ n, ∀ fuel, run (n + fuel) m = .ended (.error f m')

variable {m' m'' : Machine} {n k : Nat} {f : Failure}

theorem Reaches.refl (m : Machine) : Reaches 0 m m := by
  intro fuel
  rw [Nat.zero_add]

theorem Reaches.trans (h : Reaches n m m') (h' : Reaches k m' m'') : Reaches (n + k) m m'' := by
  intro fuel
  rw [Nat.add_assoc, h, h']

theorem Reaches.stops (h : Reaches n m m') (h' : Stops m' f m'') : Stops m f m'' := by
  obtain ⟨k, hk⟩ := h'
  exact ⟨n + k, fun fuel => by rw [Nat.add_assoc, h, hk]⟩

theorem run_succ (hend : m.reader.atEnd = false) (fuel : Nat) :
    run (1 + fuel) m = match step m with
      | .ok _ m' => run fuel m'
      | .error f m' => .ended (.error f m') := by
  rw [Nat.add_comm, run, hend]
  rfl

/-- A line that is executed without failure. -/
theorem reaches_of_execute (hm : m.Runs out) (hsound : out.pool.Sound)
    (hl : out.HoldsLine m.reader.offset l)
    (h : l.execute m.reader.offset (m.goto (m.reader.offset + l.instr.size)) = .ok () m') : Reaches 1 m m' := by
  intro fuel
  rw [run_succ (atEnd_of_holdsLine hm hl), step_eq hm hsound hl, h]

/-- A line whose execution fails. -/
theorem stops_of_execute (hm : m.Runs out) (hsound : out.pool.Sound)
    (hl : out.HoldsLine m.reader.offset l)
    (h : l.execute m.reader.offset (m.goto (m.reader.offset + l.instr.size)) = .error f m') : Stops m f m' := by
  refine ⟨1, fun fuel => ?_⟩
  rw [run_succ (atEnd_of_holdsLine hm hl), step_eq hm hsound hl, h]

/-- A run that is over stays over. -/
theorem run_add_of_ended {r : EStateM.Result Failure Machine Unit} (h : run n m = .ended r) (k : Nat) :
    run (n + k) m = .ended r := by
  induction n generalizing m with
  | zero => cases h
  | succ n ih =>
      rw [Nat.add_right_comm, run]
      rw [run] at h
      split at h <;> rename_i hend
      · rw [if_pos hend, h]
      · rw [if_neg hend]
        cases hstep : step m with
        | ok _ m' =>
            rw [hstep] at h
            exact ih h
        | error f m' =>
            rw [hstep] at h
            exact h

/-- A run is over in one way only. -/
theorem ended_unique {r s : EStateM.Result Failure Machine Unit} (h : run n m = .ended r) (h' : run k m = .ended s) :
    r = s := by
  have h₁ := run_add_of_ended h k
  have h₂ := run_add_of_ended h' n
  rw [Nat.add_comm, h₂] at h₁
  exact (Progress.ended.inj h₁).symm

/-- A run that is over is over from each machine on that it reaches. -/
theorem Reaches.ended {r : EStateM.Result Failure Machine Unit} (h : Reaches k m m') (hrun : run n m = .ended r) :
    run n m' = .ended r := by
  rw [← h, Nat.add_comm]
  exact run_add_of_ended hrun k

end Machine

/-! ## What each line does -/

section

variable {m : Machine} {o start h slot target : Nat} {s : Span} {v a b : Value} {rest : List Value}

theorem Execution.pop_of_cons (hstack : m.stack = v :: rest) : pop m = .ok v { m with stack := rest } := by
  rw [pop, hstack]

theorem Execution.top_of_cons (hstack : m.stack = v :: rest) : top m = .ok v m := by
  unfold top
  rw [apply_bind_of_ok (apply_get m), hstack]
  rfl

theorem Execution.place_apply (hslot : slot < 256) (hlt : slot < m.stack.length) :
    place (UInt8.ofNat slot) m = .ok (m.stack.length - 1 - slot) m := by
  unfold place
  rw [apply_bind_of_ok (apply_get m), UInt8.toNat_ofNat_of_lt' hslot, if_pos hlt]
  rfl

theorem Execution.jump_apply {d : Int} (htarget : (o : Int) + d = target) (hle : target ≤ m.reader.code.size) :
    decode (Reader.jump d) (m.goto o) = .ok () (m.goto target) :=
  decode_apply (Reader.jump_apply htarget hle)

namespace Line

theorem execute_binary {op : BinaryOp} (hstack : m.stack = b :: a :: rest) :
    execute start ⟨.binary op, s, h⟩ m = match op.apply a b with
      | .ok v => .ok () { m with stack := v :: rest }
      | .error .divisionByZero => .error (.runtime (.divisionByZero s)) { m with stack := rest }
      | .error .unsupported =>
        .error (.runtime (.unsupportedBinary op a.type b.type s)) { m with stack := rest } := by
  simp only [execute]
  rw [apply_bind_of_ok (Execution.pop_of_cons hstack), apply_bind_of_ok (Execution.pop_of_cons rfl)]
  cases op.apply a b with
  | ok v => rfl
  | error r => cases r <;> rfl

theorem execute_unary {op : UnaryOp} (hstack : m.stack = v :: rest) :
    execute start ⟨.unary op, s, h⟩ m = match op.apply v with
      | .ok r => .ok () { m with stack := r :: rest }
      | .error _ => .error (.runtime (.unsupportedUnary op v.type s)) { m with stack := rest } := by
  simp only [execute]
  rw [apply_bind_of_ok (Execution.pop_of_cons hstack)]
  cases op.apply v <;> rfl

theorem execute_pop (hstack : m.stack = v :: rest) :
    execute start ⟨.pop, s, h⟩ m = .ok () { m with stack := rest } :=
  apply_bind_of_ok (Execution.pop_of_cons hstack)

theorem execute_print (hstack : m.stack = v :: rest) :
    execute start ⟨.print, s, h⟩ m = Execution.printLine v.text { m with stack := rest } :=
  apply_bind_of_ok (Execution.pop_of_cons hstack)

theorem execute_defineGlobal {name : String} (hstack : m.stack = v :: rest) :
    execute start ⟨.defineGlobal name, s, h⟩ m =
      .ok () { m with stack := rest, globals := m.globals.insert name v } :=
  apply_bind_of_ok (Execution.pop_of_cons hstack)

theorem execute_setGlobal {name : String} (hstack : m.stack = v :: rest) :
    execute start ⟨.setGlobal name, s, h⟩ m =
      if m.globals.contains name then .ok () { m with globals := m.globals.insert name v }
      else .error (.runtime (.undefinedGlobal name s)) m := by
  simp only [execute]
  rw [apply_bind_of_ok (Execution.top_of_cons hstack), apply_bind_of_ok (apply_get m)]
  split <;> rfl

theorem execute_getGlobal {name : String} :
    execute start ⟨.getGlobal name, s, h⟩ m = match m.globals[name]? with
      | some v => .ok () { m with stack := v :: m.stack }
      | none => .error (.runtime (.undefinedGlobal name s)) m := by
  simp only [execute]
  rw [apply_bind_of_ok (apply_get m)]
  cases m.globals[name]? <;> rfl

theorem execute_setLocal (hstack : m.stack = v :: rest) (hslot : slot < 256) (hlt : slot < m.stack.length) :
    execute start ⟨.setLocal slot, s, h⟩ m =
      .ok () { m with stack := m.stack.set (m.stack.length - 1 - slot) v } := by
  simp only [execute]
  rw [apply_bind_of_ok (Execution.top_of_cons hstack), apply_bind_of_ok (Execution.place_apply hslot hlt)]
  rfl

theorem execute_getLocal (hslot : slot < 256) (hlt : slot < m.stack.length) :
    execute start ⟨.getLocal slot, s, h⟩ m =
      .ok () { m with stack := m.stack.getD (m.stack.length - 1 - slot) .nil :: m.stack } := by
  simp only [execute]
  rw [apply_bind_of_ok (Execution.place_apply hslot hlt)]
  rfl

theorem execute_jump {d : Nat} (hle : o + d ≤ m.reader.code.size) :
    execute start ⟨.jump d, s, h⟩ (m.goto o) = .ok () (m.goto (o + d)) :=
  Execution.jump_apply (by omega) hle

theorem execute_loop {d : Nat} (hd : d ≤ o) (hle : o ≤ m.reader.code.size) :
    execute start ⟨.loop d, s, h⟩ (m.goto o) = .ok () (m.goto (o - d)) :=
  Execution.jump_apply (by omega) (by omega)

theorem execute_jumpIfFalse {d : Nat} (hstack : m.stack = v :: rest) (hle : o + d ≤ m.reader.code.size) :
    execute start ⟨.jumpIfFalse d, s, h⟩ (m.goto o) = .ok () (m.goto (if v.truthy then o else o + d)) := by
  have htop : Execution.top (m.goto o) = .ok v (m.goto o) := Execution.top_of_cons hstack
  simp only [execute]
  rw [apply_bind_of_ok htop]
  cases v.truthy with
  | true => rfl
  | false => exact Execution.jump_apply (Int.natCast_add o d).symm hle

theorem execute_jumpIfTrue {d : Nat} (hstack : m.stack = v :: rest) (hle : o + d ≤ m.reader.code.size) :
    execute start ⟨.jumpIfTrue d, s, h⟩ (m.goto o) = .ok () (m.goto (if v.truthy then o + d else o)) := by
  have htop : Execution.top (m.goto o) = .ok v (m.goto o) := Execution.top_of_cons hstack
  simp only [execute]
  rw [apply_bind_of_ok htop]
  cases v.truthy with
  | true => exact Execution.jump_apply (Int.natCast_add o d).symm hle
  | false => rfl

end Line

end

end Lox
