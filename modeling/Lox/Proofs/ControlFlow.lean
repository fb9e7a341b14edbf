import Lox.Proofs.Landing
import Lox.Proofs.Stepping

/-!
# Decoding the code of a program

Code is decoded from its first instruction on, each instruction behind the one before it, whether or not the
machine ever gets there.

* `Reader.decoded`, `Reader.sweep` : one instruction, and all up to the end of the code;
* `Assembly.decoded` : the instructions of assembly as they stand in code; `Reader.sweep_apply` says that they are
  what is found there;
* `Compiled.Decodes` : the instructions are those of the table of spans, and each jump leads to one of them or, if
  it leads forward, to the end;
* `compile_decodes` : so it is in every compiled program.
-/

namespace Lox

/-! ## One instruction after the other -/

structure Decoded where
  offset : Nat
  opcode : Opcode
  operand : List UInt8

/-- Where the operand leads to, if it is the distance of a jump. It counts from behind the operand. -/
def Decoded.target (i : Decoded) : Int :=
  let distance := littleEndian i.operand
  i.offset + 1 + i.operand.length + if i.opcode = .jumpSigned then Reader.signed distance else distance

namespace Reader

def bytes : Nat → Decoder (List UInt8)
  | 0 => return []
  | n + 1 => do
    let b ← byte
    return b :: (← bytes n)

/-- Reads an opcode and as many bytes as its operand has. -/
def decoded : Decoder Decoded := do
  let offset := (← get).offset
  let opcode ← opcode
  let operand ← bytes opcode.operandSize
  return { offset, opcode, operand }

/-- Reads instructions up to the end of the code, at most `n`. -/
def sweep : Nat → Decoder (List Decoded)
  | 0 => return []
  | n + 1 => do
    if (← get).atEnd then
      return []
    else
      let i ← decoded
      return i :: (← sweep n)

variable {r : Reader}

theorem bytes_apply (bs : List UInt8) (h : ∀ j b, bs[j]? = some b → r.code[r.offset + j]? = some b) :
    bytes bs.length r = .ok bs (r.skip bs.length) := by
  induction bs generalizing r with
  | nil => rfl
  | cons b bs ih =>
      have hrest : ∀ j c, bs[j]? = some c → (r.skip 1).code[(r.skip 1).offset + j]? = some c := by
        intro j c hj
        have hc := h (j + 1) c hj
        rwa [Nat.add_comm j, ← Nat.add_assoc] at hc
      rw [List.length_cons, bytes, apply_bind_of_ok (byte_apply (h 0 b rfl)), apply_bind_of_ok (ih hrest),
        apply_pure, skip, skip, skip, Nat.add_assoc, Nat.add_comm 1]

end Reader

def Line.decoded (pool : List Constant) (o : Nat) (l : Line) : Decoded :=
  ⟨o, l.instr.opcode, l.instr.operand pool⟩

namespace Assembly

/-- The lines as they stand in code from offset `o` on. -/
def decoded (pool : List Constant) : Nat → Assembly → List Decoded
  | _, [] => []
  | o, l :: a => l.decoded pool o :: decoded pool (o + l.instr.size) a

variable {pool : List Constant} {o start : Nat} {a : Assembly}

theorem map_offset_decoded (pool : List Constant) (o : Nat) (a : Assembly) :
    (a.decoded pool o).map Decoded.offset = (a.entries o).map Prod.fst := by
  induction a generalizing o with
  | nil => rfl
  | cons l a ih => rw [decoded, List.map_cons, ih, entries_cons, List.map_cons, Line.decoded]

theorem mem_decoded {i : Decoded} :
    i ∈ a.decoded pool start ↔
      ∃ (pre : Assembly) (l : Line) (post : Assembly),
        a = pre ++ l :: post ∧ i = l.decoded pool (start + pre.size) := by
  induction a generalizing start with
  | nil => simp [decoded]
  | cons l a ih =>
      rw [decoded, List.mem_cons, ih]
      constructor
      · rintro (rfl | ⟨pre, l', post, rfl, rfl⟩)
        · exact ⟨[], l, a, rfl, rfl⟩
        · exact ⟨l :: pre, l', post, rfl, by rw [size_cons, Nat.add_assoc]⟩
      · rintro ⟨pre, l', post, ha, rfl⟩
        cases pre with
        | nil =>
            cases ha
            exact .inl rfl
        | cons l'' pre =>
            cases ha
            exact .inr ⟨pre, l', post, rfl, by rw [size_cons, Nat.add_assoc]⟩

theorem length_le_size (a : Assembly) : a.length ≤ a.size := by
  induction a with
  | nil => exact Nat.le_refl 0
  | cons l a ih =>
      have := l.instr.size_pos
      rw [List.length_cons, size_cons]
      omega

end Assembly

/-! ## What stands in the code -/

namespace Reader

variable {out : Compiled} {o : Nat} {l : Line}

theorem decoded_apply (h : out.HoldsLine o l) :
    decoded ⟨out.code, o⟩ = .ok (l.decoded out.pool.constants o) ⟨out.code, o + l.instr.size⟩ := by
  have hopcode : opcode ⟨out.code, o⟩ = .ok l.instr.opcode ⟨out.code, o + 1⟩ :=
    opcode_apply (h.bytes 0 _ rfl)
  have hoperand := @bytes_apply ⟨out.code, o + 1⟩ (l.instr.operand out.pool.constants) (by
    intro j b hj
    rw [Nat.add_assoc, Nat.add_comm 1]
    exact h.bytes (j + 1) b hj)
  rw [Instr.length_operand] at hoperand
  unfold decoded
  rw [apply_bind_of_ok (apply_get _), apply_bind_of_ok hopcode, apply_bind_of_ok hoperand, apply_pure, skip,
    Nat.add_assoc]
  rfl

/-- Where assembly ends with the code, its lines are found and nothing else. -/
theorem sweep_apply {a : Assembly} {n : Nat} (h : out.Holds o a) (hend : o + a.size = out.code.size)
    (hn : a.length ≤ n) :
    sweep n ⟨out.code, o⟩ = .ok (a.decoded out.pool.constants o) ⟨out.code, out.code.size⟩ := by
  induction a generalizing o n with
  | nil =>
      rw [Assembly.size_nil, Nat.add_zero] at hend
      subst hend
      cases n with
      | zero => rfl
      | succ n =>
          have hatEnd : (⟨out.code, out.code.size⟩ : Reader).atEnd = true := by simp [atEnd]
          rw [sweep, apply_bind_of_ok (apply_get _), if_pos hatEnd]
          rfl
  | cons l a ih =>
      rw [List.length_cons] at hn
      obtain ⟨n, rfl⟩ : ∃ j, n = j + 1 := ⟨n - 1, by omega⟩
      have hpos := l.instr.size_pos
      have hle := h.1.le_size
      have hatEnd : ¬(⟨out.code, o⟩ : Reader).atEnd = true := by
        rw [atEnd, decide_eq_true_eq]
        dsimp only
        omega
      rw [Assembly.size_cons, ← Nat.add_assoc] at hend
      rw [sweep, apply_bind_of_ok (apply_get _), if_neg hatEnd, apply_bind_of_ok (decoded_apply h.1),
        apply_bind_of_ok (ih h.2 hend (by omega)), apply_pure, Assembly.decoded]

end Reader

/-! ## Targets -/

namespace Line

variable {pool : List Constant} {o h d : Nat} {s : Span} {l : Line}

theorem target_decoded_loop (hd : d ≤ 0x8000) :
    (decoded pool o ⟨.loop d, s, h⟩).target = (o : Int) + 3 - d := by
  have hword : littleEndian (toLittleEndian 2 (-(d : Int) % 0x10000).toNat) = (-(d : Int) % 0x10000).toNat := by
    rw [littleEndian_toLittleEndian, Nat.mod_eq_of_lt (by omega)]
  have hopcode : (decoded pool o ⟨.loop d, s, h⟩).opcode = .jumpSigned := rfl
  have hoperand : (decoded pool o ⟨.loop d, s, h⟩).operand = toLittleEndian 2 (-(d : Int) % 0x10000).toNat := rfl
  rw [Decoded.target, hopcode, hoperand, if_pos rfl, hword, Reader.signed_emod (by omega) (by omega), length_toLittleEndian]
  change (o : Int) + 1 + 2 + -d = o + 3 - d
  omega

/-- The lines that jump forward lead where their operand says. -/
theorem target_mem_next (hfits : l.instr.Fits pool) (hop : l.instr.opcode ∈ [.jump, .jumpIfFalse, .jumpIfTrue]) :
    ∃ t ∈ l.instr.next o, (l.decoded pool o).target = t ∧ o < t := by
  have key : ∀ d ≤ 0xffff, ((o : Int) + 1 + (toLittleEndian 2 d).length + littleEndian (toLittleEndian 2 d)) =
      (o + 3 + d : Nat) := by
    intro d hd
    rw [littleEndian_toLittleEndian, Nat.mod_eq_of_lt (by omega), length_toLittleEndian]
    omega
  obtain ⟨i, s, h⟩ := l
  cases i with
  | jump d => exact ⟨o + 3 + d, by simp [Instr.next], key d hfits, by omega⟩
  | jumpIfFalse d => exact ⟨o + 3 + d, by simp [Instr.next], key d hfits, by omega⟩
  | jumpIfTrue d => exact ⟨o + 3 + d, by simp [Instr.next], key d hfits, by omega⟩
  | _ => simp [Instr.opcode] at hop

end Line

/-! ## Compiled programs -/

/-- What is found in the code of a compiled program, from its first instruction on. -/
structure Compiled.Decodes (out : Compiled) (is : List Decoded) : Prop where
  /-- Nothing else stands there, up to the end. -/
  sweep : Reader.sweep out.code.size { code := out.code, offset := out.start } =
    .ok is { code := out.code, offset := out.code.size }
  /-- Each instruction has its entry in the table of spans, in the same order. -/
  offsets : is.map Decoded.offset = out.spans.entries.toList.map Prod.fst
  ascending : (is.map Decoded.offset).Pairwise (· < ·)
  located : ∀ o, (out.spans.spanAt? o).isSome = true ↔ o ∈ is.map Decoded.offset
  forward : ∀ i ∈ is, i.opcode ∈ [.jump, .jumpIfFalse, .jumpIfTrue] →
    i.offset < i.target ∧ ((∃ j ∈ is, i.target = j.offset) ∨ i.target = out.code.size)
  backward : ∀ i ∈ is, i.opcode = .jumpSigned →
    ∃ j ∈ is, i.target = j.offset ∧ j.offset < i.offset ∧ out.start ≤ j.offset

section Programs

variable {p : Program} {out : Compiled}

/-- A jump forward leads to a later instruction or to the end. -/
theorem Program.forward_target (h : out.Carries p.assembly) {i : Decoded}
    (hi : i ∈ p.assembly.decoded out.pool.constants out.start)
    (hop : i.opcode ∈ [.jump, .jumpIfFalse, .jumpIfTrue]) :
    i.offset < i.target ∧ ((∃ j ∈ p.assembly.decoded out.pool.constants out.start, i.target = j.offset) ∨
      i.target = out.code.size) := by
  obtain ⟨pre, l, post, ha, rfl⟩ := Assembly.mem_decoded.mp hi
  have hfits : l.instr.Fits out.pool.constants := h.fits l (by simp [ha])
  obtain ⟨t, ht, htarget, hlt⟩ := Line.target_mem_next hfits hop
  have hlands := ((p.lands out.start).line ha).next t ht
  refine ⟨by rw [htarget]; exact_mod_cast hlt, ?_⟩
  rcases hlands.line_or_end with ⟨pre', l', post', ha', rfl⟩ | rfl
  · exact .inl ⟨_, Assembly.mem_decoded.mpr ⟨pre', l', post', ha', rfl⟩, htarget⟩
  · exact .inr (by rw [htarget, h.size_code])

/-- A jump either way leads back to an earlier instruction. -/
theorem Program.backward_target (h : out.Carries p.assembly) {i : Decoded}
    (hi : i ∈ p.assembly.decoded out.pool.constants out.start) (hop : i.opcode = .jumpSigned) :
    ∃ j ∈ p.assembly.decoded out.pool.constants out.start,
      i.target = j.offset ∧ j.offset < i.offset ∧ out.start ≤ j.offset := by
  obtain ⟨pre, ⟨instr, s, height⟩, post, ha, rfl⟩ := Assembly.mem_decoded.mp hi
  obtain ⟨d, rfl⟩ : ∃ d, instr = .loop d := by
    cases instr with
    | loop d => exact ⟨d, rfl⟩
    | _ => cases hop
  have hfits : d ≤ 0x8000 := h.fits ⟨.loop d, s, height⟩ (by simp [ha])
  obtain ⟨hnext, hback⟩ := (p.lands out.start).line ha
  obtain ⟨hd, hle⟩ := hback d rfl
  have hsize := congrArg Assembly.size ha
  rw [Assembly.size_append, Assembly.size_cons] at hsize
  rcases (hnext _ (List.mem_singleton_self _)).line_or_end with ⟨pre', l', post', ha', ho'⟩ | hend
  · refine ⟨_, Assembly.mem_decoded.mpr ⟨pre', l', post', ha', rfl⟩, ?_, ?_, Nat.le_add_right ..⟩
    · rw [Line.target_decoded_loop hfits]
      change _ = ((out.start + pre'.size : Nat) : Int)
      omega
    · change out.start + pre'.size < out.start + pre.size
      omega
  · omega

/-- **The code of a program is what the table of spans says it is, and no jump leads out of it.** -/
theorem compile_decodes (hc : compile p = .ok out) : ∃ is, out.Decodes is := by
  have h := compile_carries hc
  have hoffsets : (p.assembly.decoded out.pool.constants out.start).map Decoded.offset =
      out.spans.entries.toList.map Prod.fst := by
    rw [Assembly.map_offset_decoded, h.entries_spans]
  have hlength : p.assembly.length ≤ out.code.size := by
    have := p.assembly.length_le_size
    have := h.size_code
    omega
  refine ⟨_, ⟨Reader.sweep_apply h.holds h.size_code.symm hlength, hoffsets, ?_, ?_,
    fun i => Program.forward_target h, fun i => Program.backward_target h⟩⟩
  · rw [Assembly.map_offset_decoded]
    exact Assembly.pairwise_fst_entries _ _
  · intro o
    rw [hoffsets]
    exact h.spans_ascending.isSome_spanAt? o

end Programs

def Program.declaringBranch : Program :=
  [.whileLoop (.logical .or (.var "a" {}) (.var "b" {}) {})
    (.ifElse (.var "a" {}) (.var "c" none {}) (some (.print (.var "b" {}) {})) {}) {}]

theorem compile_decodes_declaringBranch :
    ¬Program.declaringBranch.WellFormed ∧
      ∃ out is, compile Program.declaringBranch = .ok out ∧ out.Decodes is := by
  have hok : (compile Program.declaringBranch).isOk = true := by decide +kernel
  cases hc : compile Program.declaringBranch with
  | error e => rw [hc] at hok; cases hok
  | ok out =>
      obtain ⟨is, his⟩ := compile_decodes hc
      exact ⟨by decide, out, is, rfl, his⟩

end Lox
