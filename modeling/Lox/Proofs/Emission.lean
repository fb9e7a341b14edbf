import Lox.Proofs.Assembly
import Lox.Computation
import Lox.Proofs.Induction
import Lox.Proofs.Pool

/-!
# What the compiler writes

`compile` writes the assembly of the program, and nothing else.

* `Emits c a c'` : from `c` to `c'` the compiler writes `a` behind what is there; `Emits.trans` joins two
  pieces, `Emits.patch` fixes the distance of a jump in the middle;
* `Compiler.Within c σ` : the local variables of the compiler are those of the scope;
* `expression_writes`, `statement_emits` : expressions and statements write their assembly;
* `compile_carries` : so do programs.
-/

namespace Lox

/-! ## Larger pools -/

/-- A larger pool numbers the constants of a smaller one alike. -/
theorem Instr.operand_of_isPrefix {pool pool' : List Constant} {i : Instr} (hi : i.Fits pool)
    (h : pool <+: pool') : i.operand pool' = i.operand pool := by
  obtain ⟨more, rfl⟩ := h
  cases i <;> simp only [operand, Fits] at hi ⊢ <;> rw [List.idxOf_append_of_mem hi]

theorem Instr.Fits.of_isPrefix {pool pool' : List Constant} {i : Instr} (hi : i.Fits pool)
    (h : pool <+: pool') : i.Fits pool' := by
  cases i <;> simp only [Fits] at hi ⊢ <;> first | exact h.subset hi | exact hi

theorem Assembly.bytes_of_isPrefix {pool pool' : List Constant} {a : Assembly}
    (ha : ∀ l ∈ a, l.instr.Fits pool) (h : pool <+: pool') : a.bytes pool' = a.bytes pool := by
  induction a with
  | nil => rfl
  | cons l a ih =>
      have hl := ha l List.mem_cons_self
      rw [bytes_cons, bytes_cons, ih fun l' hl' => ha l' (List.mem_cons_of_mem _ hl'), Instr.bytes,
        Instr.bytes, Instr.operand_of_isPrefix hl h]

/-! ## Writing -/

/-- From `c` to `c'` the compiler writes `a` behind what is there. -/
structure Emits (c : Compiler) (a : Assembly) (c' : Compiler) : Prop where
  code : c'.chunk.code.toList = c.chunk.code.toList ++ a.bytes c'.pool.constants
  spans : c'.chunk.spans.entries.toList = c.chunk.spans.entries.toList ++ a.entries c.chunk.offset
  grows : c.pool.constants <+: c'.pool.constants
  fits : ∀ l ∈ a, l.instr.Fits c'.pool.constants
  sound : c.pool.Sound → c'.pool.Sound

namespace Emits

variable {c c₁ c₂ c' : Compiler} {a b : Assembly}

theorem offset_eq (h : Emits c a c') : c'.chunk.offset = c.chunk.offset + a.size := by
  have := congrArg List.length h.code
  rwa [List.length_append, Assembly.length_bytes, Array.length_toList, Array.length_toList] at this

theorem refl (c : Compiler) : Emits c [] c :=
  ⟨by simp, by simp, List.prefix_refl _, by simp, id⟩

theorem trans (h₁ : Emits c a c₁) (h₂ : Emits c₁ b c₂) : Emits c (a ++ b) c₂ where
  code := by
    rw [h₂.code, h₁.code, Assembly.bytes_append, Assembly.bytes_of_isPrefix h₁.fits h₂.grows,
      List.append_assoc]
  spans := by rw [h₂.spans, h₁.spans, Assembly.entries_append, h₁.offset_eq, List.append_assoc]
  grows := h₁.grows.trans h₂.grows
  fits := by
    intro l hl
    rcases List.mem_append.mp hl with hl | hl
    · exact (h₁.fits l hl).of_isPrefix h₂.grows
    · exact h₂.fits l hl
  sound := h₂.sound ∘ h₁.sound

/-- Changes to the pool alone write nothing. -/
theorem of_pool {p : ConstantPool} (hgrows : c.pool.constants <+: p.constants)
    (hsound : c.pool.Sound → p.Sound) : Emits c [] { c with pool := p } :=
  ⟨by simp, by simp, hgrows, by simp, hsound⟩

/-- What is written does not depend on the local variables. -/
theorem congr {locals : List Local} {depth : Nat} (h : Emits c a c') :
    Emits c a { c' with locals, depth } :=
  ⟨h.code, h.spans, h.grows, h.fits, h.sound⟩

theorem congr_left {locals : List Local} {depth : Nat} (h : Emits { c with locals, depth } a c') :
    Emits c a c' :=
  ⟨h.code, h.spans, h.grows, h.fits, h.sound⟩

/-- An instruction written with its operand. -/
theorem single {l : Line} {operand : List UInt8} (hfits : l.instr.Fits c.pool.constants)
    (hop : l.instr.operand c.pool.constants = operand) :
    Emits c [l] { c with chunk := { code := c.chunk.code.push l.instr.opcode.toByte ++ operand,
                                    spans := c.chunk.spans.record c.chunk.offset l.span } } where
  code := by simp [Instr.bytes, hop]
  spans := by simp [SpanTable.record]
  grows := List.prefix_refl _
  fits := by simpa using hfits
  sound := id

end Emits

structure Writes (c : Compiler) (a : Assembly) (c' : Compiler) : Prop extends Emits c a c' where
  locals : c'.locals = c.locals
  depth : c'.depth = c.depth

theorem Writes.refl (c : Compiler) : Writes c [] c :=
  ⟨Emits.refl c, rfl, rfl⟩

theorem Writes.trans {c c₁ c₂ : Compiler} {a b : Assembly} (h₁ : Writes c a c₁) (h₂ : Writes c₁ b c₂) :
    Writes c (a ++ b) c₂ :=
  ⟨h₁.toEmits.trans h₂.toEmits, h₂.locals.trans h₁.locals, h₂.depth.trans h₁.depth⟩

/-- A forward jump: the instructions `f d`, with opcode `op`, differ in their distance only. -/
structure IsForwardJump (op : Opcode) (f : Nat → Instr) : Prop where
  opcode : ∀ d, (f d).opcode = op
  operand : ∀ pool d, (f d).operand pool = toLittleEndian 2 d
  fits : ∀ pool d, (f d).Fits pool ↔ d ≤ 0xffff

theorem isForwardJump_jump : IsForwardJump .jump .jump :=
  ⟨fun _ => rfl, fun _ _ => rfl, fun _ _ => Iff.rfl⟩

theorem isForwardJump_jumpIfFalse : IsForwardJump .jumpIfFalse .jumpIfFalse :=
  ⟨fun _ => rfl, fun _ _ => rfl, fun _ _ => Iff.rfl⟩

theorem isForwardJump_shortCircuit (op : LogicalOp) :
    IsForwardJump (Compilation.shortCircuit op) (op.instr ·) := by
  cases op <;> exact ⟨fun _ => rfl, fun _ _ => rfl, fun _ _ => Iff.rfl⟩

theorem IsForwardJump.size_eq {op : Opcode} {f : Nat → Instr} (hf : IsForwardJump op f) (d : Nat) :
    (f d).size = 3 := by
  rw [← Instr.length_bytes [], Instr.bytes, List.length_cons, hf.operand]
  rfl

theorem set_set_append (xs ys : List UInt8) (x y u v : UInt8) (n : Nat) (hn : xs.length = n) :
    ((xs ++ x :: y :: ys).set n u).set (n + 1) v = xs ++ u :: v :: ys := by
  subst hn
  simp

namespace Chunk

theorem patchJump_apply (operand : Nat) (c : Chunk) :
    patchJump operand c =
      if 0xffff < c.offset - operand - 2 then
        .error (.jumpTooLarge ((c.spans.spanAt? (operand - 1)).getD {})) c
      else
        .ok () { c with
          code := (c.code.setIfInBounds operand (UInt8.ofNat (c.offset - operand - 2))).setIfInBounds
            (operand + 1) (UInt8.ofNat ((c.offset - operand - 2) / 256)) } := by
  unfold patchJump maxDistance
  rw [apply_bind_of_ok (apply_get c)]
  split_ifs <;> rfl

theorem writeLoop_apply (start : Nat) (span : Span) (c : Chunk) :
    writeLoop start span c =
      if (start : Int) - (c.offset + 3 : Nat) < -0x8000 ∨ 0x8000 ≤ (start : Int) - (c.offset + 3 : Nat) then
        .error (.jumpTooLarge span) c
      else
        .ok () (c.writeWord .jumpSigned ((start - (c.offset + 3 : Nat) : Int) % 0x10000).toNat span) := by
  unfold writeLoop
  rw [apply_bind_of_ok (apply_get c)]
  split_ifs <;> rfl

end Chunk

namespace Compilation

theorem patchJump_apply (operand : Nat) (c : Compiler) :
    patchJump operand c =
      if 0xffff < c.chunk.offset - operand - 2 then
        .error (.jumpTooLarge ((c.chunk.spans.spanAt? (operand - 1)).getD {})) c
      else
        .ok () { c with chunk := { c.chunk with
          code := (c.chunk.code.setIfInBounds operand (UInt8.ofNat (c.chunk.offset - operand - 2))).setIfInBounds
            (operand + 1) (UInt8.ofNat ((c.chunk.offset - operand - 2) / 256)) } } := by
  unfold patchJump onChunk
  rw [Chunk.patchJump_apply]
  split_ifs <;> rfl

theorem emitLoop_apply (start : Nat) (span : Span) (c : Compiler) :
    emitLoop start span c =
      if (start : Int) - (c.chunk.offset + 3 : Nat) < -0x8000 ∨ 0x8000 ≤ (start : Int) - (c.chunk.offset + 3 : Nat) then
        .error (.jumpTooLarge span) c
      else
        .ok () { c with
          chunk := c.chunk.writeWord .jumpSigned ((start - (c.chunk.offset + 3 : Nat) : Int) % 0x10000).toNat span } := by
  unfold emitLoop onChunk
  rw [Chunk.writeLoop_apply]
  split_ifs <;> rfl

end Compilation

/-- Patching a jump sets its distance to the size of what is written behind it. -/
theorem Emits.patch {c c₁ c₂ : Compiler} {a b : Assembly} {op : Opcode} {f : Nat → Instr} {d h : Nat}
    {span : Span} (hf : IsForwardJump op f) (he : Emits c (a ++ ⟨f d, span, h⟩ :: b) c₁)
    (hp : Compilation.patchJump (c.chunk.offset + a.size + 1) c₁ = .ok () c₂) :
    Emits c (a ++ ⟨f b.size, span, h⟩ :: b) c₂ := by
  have hoffset := he.offset_eq
  simp only [Assembly.size_append, Assembly.size_cons, hf.size_eq] at hoffset
  have hdist : c₁.chunk.offset - (c.chunk.offset + a.size + 1) - 2 = b.size := by omega
  rw [Compilation.patchJump_apply, hdist] at hp
  split_ifs at hp with hlarge
  obtain rfl := (EStateM.Result.ok.inj hp).2
  refine ⟨?_, ?_, he.grows, ?_, he.sound⟩
  · have hcode := he.code
    simp only [Assembly.bytes_append, Assembly.bytes_cons, Instr.bytes, hf.opcode, hf.operand] at hcode ⊢
    rw [Array.toList_setIfInBounds, Array.toList_setIfInBounds, hcode]
    have hsplit := set_set_append
      (c.chunk.code.toList ++ a.bytes c₁.pool.constants ++ [op.toByte]) (b.bytes c₁.pool.constants)
      (UInt8.ofNat d) (UInt8.ofNat (d / 256)) (UInt8.ofNat b.size) (UInt8.ofNat (b.size / 256))
      (c.chunk.offset + a.size + 1) (by simp [Assembly.length_bytes, Chunk.offset, Nat.add_assoc])
    simpa [toLittleEndian] using hsplit
  · rw [he.spans, Assembly.entries_append, Assembly.entries_append, Assembly.entries_cons,
      Assembly.entries_cons, hf.size_eq, hf.size_eq]
  · intro l hl
    simp only [List.mem_append, List.mem_cons] at hl
    rcases hl with hl | rfl | hl
    · exact he.fits l (by simp [hl])
    · exact (hf.fits _ _).mpr (by omega)
    · exact he.fits l (by simp [hl])

/-! ## The steps of the compiler -/

namespace Compilation

variable {c c' : Compiler} {span : Span}

theorem emit_writes {i : Instr} (h : Nat) (hi : i.opcode.operandSize = 0)
    (he : emit i.opcode span c = .ok () c') : Writes c [⟨i, span, h⟩] c' := by
  obtain rfl := (EStateM.Result.ok.inj he).2
  have hop : i.operand c.pool.constants = [] := by
    rw [← List.length_eq_zero_iff, Instr.length_operand, hi]
  have hfits : i.Fits c.pool.constants := by
    cases i <;> simp_all [Instr.opcode, Opcode.operandSize, Instr.Fits]
  exact ⟨by simpa [Chunk.write] using Emits.single (l := ⟨i, span, h⟩) hfits hop, rfl, rfl⟩

theorem emitByte_writes {i : Instr} {operand : UInt8} (h : Nat) (hfits : i.Fits c.pool.constants)
    (hop : i.operand c.pool.constants = [operand])
    (he : emitByte i.opcode operand span c = .ok () c') : Writes c [⟨i, span, h⟩] c' := by
  obtain rfl := (EStateM.Result.ok.inj he).2
  exact ⟨by simpa [Chunk.writeByte, Chunk.write] using Emits.single (l := ⟨i, span, h⟩) hfits hop, rfl, rfl⟩

theorem emitJump_writes {op : Opcode} {f : Nat → Instr} {operand : Nat} (h : Nat) (hf : IsForwardJump op f)
    (he : emitJump op span c = .ok operand c') :
    Writes c [⟨f 0xffff, span, h⟩] c' ∧ operand = c.chunk.offset + 1 := by
  obtain ⟨rfl, rfl⟩ := EStateM.Result.ok.inj he
  have hfits : (f 0xffff).Fits c.pool.constants := (hf.fits _ _).mpr (Nat.le_refl _)
  have hsingle := Emits.single (l := ⟨f 0xffff, span, h⟩) hfits (hf.operand _ _)
  rw [hf.opcode] at hsingle
  exact ⟨⟨hsingle, rfl, rfl⟩, by simp [Chunk.writeWord, Chunk.write, Chunk.offset, toLittleEndian]⟩

theorem emitLoop_writes {start : Nat} (h : Nat) (hle : start ≤ c.chunk.offset)
    (he : emitLoop start span c = .ok () c') :
    Writes c [⟨.loop (c.chunk.offset + 3 - start), span, h⟩] c' := by
  rw [emitLoop_apply] at he
  split_ifs at he with hfar
  obtain rfl := (EStateM.Result.ok.inj he).2
  have hdist : (start : Int) - (c.chunk.offset + 3 : Nat) = -((c.chunk.offset + 3 - start : Nat) : Int) := by
    omega
  refine ⟨?_, rfl, rfl⟩
  rw [hdist]
  exact Emits.single (l := ⟨.loop (c.chunk.offset + 3 - start), span, h⟩)
    (show c.chunk.offset + 3 - start ≤ 0x8000 by omega) rfl

theorem patchJump_frame {operand : Nat} (he : patchJump operand c = .ok () c') :
    c'.locals = c.locals ∧ c'.depth = c.depth ∧ c'.pool = c.pool := by
  rw [patchJump_apply] at he
  split_ifs at he
  obtain rfl := (EStateM.Result.ok.inj he).2
  exact ⟨rfl, rfl, rfl⟩

theorem patchJump_offset {operand : Nat} (he : patchJump operand c = .ok () c') :
    c'.chunk.offset = c.chunk.offset := by
  rw [patchJump_apply] at he
  split_ifs at he with hfar
  obtain rfl := (EStateM.Result.ok.inj he).2
  simp [Chunk.offset]

theorem constant_spec {k : Constant} {i : UInt8} (hc : c.pool.Sound) (he : constant k span c = .ok i c') :
    Writes c [] c' ∧ k ∈ c'.pool.constants ∧ i = UInt8.ofNat (c'.pool.constants.idxOf k) := by
  unfold constant at he
  split at he
  · rename_i j p hp
    obtain ⟨rfl, rfl⟩ := EStateM.Result.ok.inj he
    obtain ⟨hgrows, hmem, hidx, hsound⟩ := hc.intern hp
    exact ⟨⟨Emits.of_pool hgrows fun _ => hsound, rfl, rfl⟩, hmem, hidx⟩
  · cases he

/-- Naming a constant in an instruction: the constant is interned, then the instruction written. -/
theorem emitConstant_writes {i : Instr} {k : Constant} (h : Nat) (hc : c.pool.Sound) (hk : i.constant? = some k)
    (he : (constant k span >>= fun j => emitByte i.opcode j span) c = .ok () c') :
    Writes c [⟨i, span, h⟩] c' := by
  obtain ⟨j, c₁, hconstant, hb⟩ := apply_bind_eq_ok.mp he
  obtain ⟨hw, hmem, rfl⟩ := constant_spec hc hconstant
  refine hw.trans (emitByte_writes h ?_ ?_ hb)
  · cases i <;> simp_all [Instr.constant?, Instr.Fits]
  · cases i <;> simp_all [Instr.constant?, Instr.operand]

end Compilation

/-! ## Local variables -/

namespace Scope

def locals : Scope → List Local
  | [] => []
  | block :: outer => block.map (fun n => { name := n, depth := some (outer.length + 1) }) ++ locals outer

theorem length_locals (σ : Scope) : σ.locals.length = σ.height := by
  induction σ with
  | nil => rfl
  | cons block outer ih => simp [locals, height, ih]

theorem map_name_locals (σ : Scope) : σ.locals.map (·.name) = σ.flatten := by
  induction σ with
  | nil => rfl
  | cons block outer ih => simp [locals, ih, Function.comp_def]

/-- All variables of a scope can be used, and none is nested deeper than the scope. -/
theorem depth_of_mem_locals {σ : Scope} {v : Local} (hv : v ∈ σ.locals) :
    ∃ d, v.depth = some d ∧ d ≤ σ.length := by
  induction σ with
  | nil => simp [locals] at hv
  | cons block outer ih =>
      rcases List.mem_append.mp hv with hv | hv
      · obtain ⟨n, -, rfl⟩ := List.mem_map.mp hv
        exact ⟨_, rfl, Nat.le_refl _⟩
      · obtain ⟨d, hd, hle⟩ := ih hv
        exact ⟨d, hd, Nat.le_succ_of_le hle⟩

/-- Closing a block drops just its own variables. -/
theorem takeWhile_isDeeper (block : List String) (outer : Scope) :
    ((locals (block :: outer)).takeWhile (·.isDeeper outer.length)).length = block.length := by
  have hown : ∀ v ∈ block.map (fun n => ({ name := n, depth := some (outer.length + 1) } : Local)),
      v.isDeeper outer.length = true := by
    intro v hv
    obtain ⟨n, -, rfl⟩ := List.mem_map.mp hv
    simp [Local.isDeeper]
  have hrest : outer.locals.takeWhile (·.isDeeper outer.length) = [] := by
    cases hl : outer.locals with
    | nil => rfl
    | cons v vs =>
        obtain ⟨d, hd, hle⟩ := depth_of_mem_locals (σ := outer) (v := v) (by rw [hl]; exact List.mem_cons_self)
        refine List.takeWhile_cons_of_neg ?_
        simp only [Local.isDeeper, hd, Option.any_some, decide_eq_true_eq]
        omega
  rw [locals, List.takeWhile_append_of_pos hown, hrest, List.append_nil, List.length_map]

end Scope

/-- The slot of a variable is its place among the names. -/
theorem Local.lookup_eq (name : String) (vs : List Local) :
    (Local.lookup name vs).map (·.1) = slotIn name (vs.map (·.name)) := by
  induction vs with
  | nil => rfl
  | cons v vs ih =>
      simp only [lookup, List.map_cons, slotIn]
      split_ifs
      · simp
      · exact ih

theorem slotIn_lt {name : String} {names : List String} {slot : Nat} (h : slotIn name names = some slot) :
    slot < names.length := by
  induction names with
  | nil => simp [slotIn] at h
  | cons n names ih =>
      simp only [slotIn] at h
      split_ifs at h
      · simp_all
      · exact Nat.lt_succ_of_lt (ih h)

/-- The variables in scope are those of `σ`, and perhaps one whose initializer is being compiled. -/
structure Compiler.Sees (c : Compiler) (σ : Scope) : Prop where
  locals : c.locals = σ.locals ∨ ∃ name, c.locals = { name } :: σ.locals
  height_le : σ.height ≤ 256
  sound : c.pool.Sound

theorem Compiler.Sees.of_writes {c c' : Compiler} {a : Assembly} {σ : Scope} (h : c.Sees σ)
    (hw : Writes c a c') : c'.Sees σ :=
  ⟨by rw [hw.locals]; exact h.locals, h.height_le, hw.sound h.sound⟩

namespace Compilation

variable {c c' : Compiler} {span : Span} {σ : Scope}

theorem slot?_spec {name : String} {r : Option UInt8} (hs : c.Sees σ)
    (he : slot? name span c = .ok r c') :
    c' = c ∧ r = (σ.slot? name).map UInt8.ofNat ∧ ∀ slot, σ.slot? name = some slot → slot < 256 := by
  have hlt : ∀ slot, σ.slot? name = some slot → slot < 256 := fun slot h =>
    Nat.lt_of_lt_of_le (slotIn_lt h) hs.height_le
  have hslot : (Local.lookup name σ.locals).map (·.1) = σ.slot? name := by
    rw [Local.lookup_eq, σ.map_name_locals]; rfl
  unfold slot? at he
  simp only [apply_bind_of_ok (apply_get c)] at he
  have hlook : Local.lookup name c.locals = Local.lookup name σ.locals := by
    rcases hs.locals with hl | ⟨n, hl⟩
    · rw [hl]
    · rw [hl, Local.lookup] at he ⊢
      split_ifs at he ⊢ with hn
      · cases he
      · rfl
  rw [hlook] at he
  cases hl : Local.lookup name σ.locals with
  | none =>
      rw [hl] at he hslot
      obtain ⟨rfl, rfl⟩ := EStateM.Result.ok.inj he
      exact ⟨rfl, by rw [← hslot]; rfl, hlt⟩
  | some p =>
      obtain ⟨slot, v⟩ := p
      rw [hl] at he hslot
      simp only at he
      split_ifs at he
      · cases he
      · obtain ⟨rfl, rfl⟩ := EStateM.Result.ok.inj he
        exact ⟨rfl, by rw [← hslot]; rfl, hlt⟩

/-- Accessing a variable writes the one instruction for it. -/
theorem access_writes {toLocal : Nat → Instr} {toGlobal : String → Instr} {local_ global : Opcode}
    {name : String} (h : Nat) (hs : c.Sees σ)
    (hlocal : ∀ slot < 256, ∀ pool, (toLocal slot).opcode = local_ ∧ (toLocal slot).Fits pool ∧
      (toLocal slot).operand pool = [UInt8.ofNat slot])
    (hglobal : (toGlobal name).opcode = global ∧ (toGlobal name).constant? = some (.string name))
    (he : access local_ global name span c = .ok () c') :
    Writes c [⟨σ.access toLocal toGlobal name, span, h⟩] c' := by
  unfold access at he
  obtain ⟨r, c₁, hslot, he⟩ := apply_bind_eq_ok.mp he
  obtain ⟨rfl, rfl, hlt⟩ := slot?_spec hs hslot
  unfold Scope.access
  cases hfound : σ.slot? name with
  | some slot =>
      rw [hfound] at he
      obtain ⟨rfl, hfits, hop⟩ := hlocal slot (hlt slot hfound) c₁.pool.constants
      exact emitByte_writes h hfits hop he
  | none =>
      rw [hfound] at he
      obtain ⟨rfl, hk⟩ := hglobal
      exact emitConstant_writes h hs.sound hk he

theorem literal_writes {v : Value} (h : Nat) (hc : c.pool.Sound) (he : literal span v c = .ok () c') :
    Writes c [⟨v.instr, span, h⟩] c' := by
  cases v with
  | nil => exact emit_writes (i := .pushNil) h rfl he
  | boolean b => cases b <;> exact emit_writes (i := Value.instr _) h rfl he
  | number x => exact emitConstant_writes (i := .pushConstant (.number x)) h hc rfl he
  | string s => exact emitConstant_writes (i := .pushConstant (.string s)) h hc rfl he

/-- **An expression writes its assembly.** -/
theorem expression_writes (e : Expr) (h : Nat) (hs : c.Sees σ) (he : expression e c = .ok () c') :
    Writes c (e.assembly σ h) c' := by
  induction e generalizing c c' h with
  | literal v s => exact literal_writes h hs.sound he
  | var name s =>
      exact access_writes h hs (fun slot hslot pool => ⟨rfl, hslot, rfl⟩) ⟨rfl, rfl⟩ he
  | assign name value s ih =>
      obtain ⟨_, c₁, hvalue, haccess⟩ := apply_bind_eq_ok.mp he
      have hw := ih h hs hvalue
      exact hw.trans (access_writes (h + 1) (hs.of_writes hw)
        (fun slot hslot pool => ⟨rfl, hslot, rfl⟩) ⟨rfl, rfl⟩ haccess)
  | unary op operand s ih =>
      obtain ⟨_, c₁, hoperand, hemit⟩ := apply_bind_eq_ok.mp he
      exact (ih h hs hoperand).trans (emit_writes (i := .unary op) (h + 1) rfl hemit)
  | binary op left right s ihl ihr =>
      obtain ⟨_, c₁, hleft, he⟩ := apply_bind_eq_ok.mp he
      obtain ⟨_, c₂, hright, hemit⟩ := apply_bind_eq_ok.mp he
      have hl := ihl h hs hleft
      have hr := ihr (h + 1) (hs.of_writes hl) hright
      exact (hl.trans hr).trans (emit_writes (i := .binary op) (h + 2) rfl hemit)
  | logical op left right s ihl ihr =>
      obtain ⟨_, c₁, hleft, he⟩ := apply_bind_eq_ok.mp he
      obtain ⟨past, c₂, hjump, he⟩ := apply_bind_eq_ok.mp he
      obtain ⟨_, c₃, hpop, he⟩ := apply_bind_eq_ok.mp he
      obtain ⟨_, c₄, hright, hpatch⟩ := apply_bind_eq_ok.mp he
      have hl := ihl h hs hleft
      obtain ⟨hj, rfl⟩ := emitJump_writes (h + 1) (isForwardJump_shortCircuit op) hjump
      have hp := emit_writes (i := .pop) (h + 1) rfl hpop
      have hr := ihr h (((hs.of_writes hl).of_writes hj).of_writes hp) hright
      have hall := hl.trans (hj.trans (hp.trans hr))
      rw [hl.offset_eq] at hpatch
      have hpatched := hall.toEmits.patch (isForwardJump_shortCircuit op) hpatch
      obtain ⟨hlocals, hdepth, -⟩ := patchJump_frame hpatch
      refine ⟨?_, hlocals.trans hall.locals, hdepth.trans hall.depth⟩
      simpa [Expr.assembly, Nat.add_comm] using hpatched
  | grouping inner s ih => exact ih h hs he
  | call callee arguments s ih => exact emit_writes (i := .trap) h rfl he

theorem initial_writes {value : Option Expr} (h : Nat) (hs : c.Sees σ)
    (he : initial span value c = .ok () c') : Writes c (Expr.initial σ h span value) c' := by
  cases value with
  | none => exact emit_writes (i := .pushNil) h rfl he
  | some e => exact expression_writes e h hs he

theorem emitPops_writes {n : Nat} (h : Nat) (he : emitPops span n c = .ok () c') :
    Writes c (Assembly.pops span h n) c' := by
  induction n generalizing c with
  | zero =>
      obtain rfl := (EStateM.Result.ok.inj he).2
      exact Writes.refl c
  | succ n ih =>
      obtain ⟨_, c₁, hpop, hrest⟩ := apply_bind_eq_ok.mp he
      exact (emit_writes (i := .pop) (h + n + 1) rfl hpop).trans (ih hrest)

end Compilation

structure Compiler.Within (c : Compiler) (σ : Scope) : Prop where
  locals : c.locals = σ.locals
  depth : c.depth = σ.length
  height_le : σ.height ≤ 256
  sound : c.pool.Sound

theorem Compiler.within_empty : Compiler.Within {} [] :=
  ⟨rfl, rfl, Nat.zero_le _, ConstantPool.holds_empty.sound⟩

theorem Compiler.Within.openScope {c : Compiler} {σ : Scope} (h : c.Within σ) :
    Compiler.Within { c with depth := c.depth + 1 } ([] :: σ) :=
  ⟨h.locals, congrArg (· + 1) h.depth, h.height_le, h.sound⟩

theorem Compiler.Within.sees {c : Compiler} {σ : Scope} (h : c.Within σ) : c.Sees σ :=
  ⟨Or.inl h.locals, h.height_le, h.sound⟩

theorem Compiler.Within.sees_declared {c : Compiler} {σ : Scope} (h : c.Within σ) (name : String) :
    Compiler.Sees { c with locals := { name } :: c.locals } σ :=
  ⟨Or.inr ⟨name, by rw [h.locals]⟩, h.height_le, h.sound⟩

theorem Compiler.Within.of_writes {c c' : Compiler} {a : Assembly} {σ : Scope} (h : c.Within σ)
    (hw : Writes c a c') : c'.Within σ :=
  ⟨hw.locals.trans h.locals, hw.depth.trans h.depth, h.height_le, hw.sound h.sound⟩

theorem Compiler.Within.of_patchJump {c c' : Compiler} {operand : Nat} {σ : Scope} (h : c.Within σ)
    (hp : Compilation.patchJump operand c = .ok () c') : c'.Within σ := by
  obtain ⟨hlocals, hdepth, hpool⟩ := Compilation.patchJump_frame hp
  exact ⟨hlocals.trans h.locals, hdepth.trans h.depth, h.height_le, hpool ▸ h.sound⟩

namespace Compilation

variable {c c' : Compiler} {span : Span} {σ : Scope}

theorem declare_spec {name : String} (he : declare name span c = .ok () c') :
    c' = { c with locals := { name } :: c.locals } ∧ c.locals.length < 256 := by
  unfold declare at he
  simp only [apply_bind_of_ok (apply_get c)] at he
  split_ifs at he with hdup hmany
  · cases he
  · cases he
  · exact ⟨((EStateM.Result.ok.inj he).2).symm, Nat.lt_of_not_le hmany⟩

theorem ready_apply {v : Local} {older : List Local} (h : c.locals = v :: older) :
    ready c = .ok () { c with locals := { v with depth := some c.depth } :: older } := by
  unfold ready
  rw [apply_modify, h]

theorem variableDeclaration_emits {name : String} {value : Option Expr} (hc : c.Within σ)
    (he : variableDeclaration name value span c = .ok () c') :
    Emits c (σ.declaration name value span) c' ∧ c'.Within (σ.extend [name]) := by
  unfold variableDeclaration at he
  simp only [apply_bind_of_ok (apply_get c), hc.depth] at he
  cases σ with
  | nil =>
      simp only [List.length_nil, Nat.lt_irrefl, if_false] at he
      obtain ⟨_, c₁, hinit, hdef⟩ := apply_bind_eq_ok.mp he
      have hi := initial_writes (Scope.height []) hc.sees hinit
      have hd := emitConstant_writes (i := .defineGlobal name) (Scope.height [] + 1) (hc.of_writes hi).sound rfl hdef
      exact ⟨(hi.trans hd).toEmits, (hc.of_writes hi).of_writes hd⟩
  | cons block outer =>
      simp only [List.length_cons, Nat.zero_lt_succ, if_true] at he
      obtain ⟨_, c₁, hdeclare, he⟩ := apply_bind_eq_ok.mp he
      obtain ⟨_, c₂, hinit, hready⟩ := apply_bind_eq_ok.mp he
      obtain ⟨rfl, hfew⟩ := declare_spec hdeclare
      have hi := initial_writes (Scope.height (block :: outer)) (hc.sees_declared name) hinit
      rw [ready_apply hi.locals] at hready
      obtain rfl := (EStateM.Result.ok.inj hready).2
      refine ⟨hi.toEmits.congr_left.congr, ⟨?_, hi.depth.trans hc.depth, ?_, hi.sound hc.sound⟩⟩
      · simp [hi.depth, hc.depth, hc.locals, Scope.extend, Scope.locals]
      · rw [hc.locals, Scope.length_locals] at hfew
        simp only [Scope.extend, Scope.height, List.flatten_cons, List.length_append,
          List.length_singleton] at hfew ⊢
        omega

theorem closeScope_emits {block : List String} (hc : c.Within (block :: σ))
    (he : closeScope span c = .ok () c') :
    Emits c (Assembly.pops span σ.height block.length) c' ∧ c'.Within σ := by
  unfold closeScope at he
  simp only [apply_bind_of_ok (apply_get c)] at he
  have hdepth : c.depth - 1 = σ.length := by rw [hc.depth]; rfl
  rw [hdepth, hc.locals, Scope.takeWhile_isDeeper] at he
  obtain ⟨_, c₁, hpops, hmodify⟩ := apply_bind_eq_ok.mp he
  obtain rfl := (EStateM.Result.ok.inj hmodify).2
  have hw := emitPops_writes σ.height hpops
  refine ⟨hw.toEmits.congr, ⟨?_, rfl, ?_, hw.sound hc.sound⟩⟩
  · simp [hw.locals, hc.locals, Scope.locals]
  · have := hc.height_le
    simp only [Scope.height, List.flatten_cons, List.length_append] at this ⊢
    omega

/-- A condition, the jump that depends on it, and the instruction that drops it where the jump is not taken. -/
theorem test_writes {condition : Expr} {past : Nat} {c₁ c₂ c₃ : Compiler} (hs : c.Sees σ)
    (hcondition : expression condition c = .ok () c₁) (hjump : emitJump .jumpIfFalse span c₁ = .ok past c₂)
    (hpop : emit .pop span c₂ = .ok () c₃) :
    Writes c (condition.assembly σ σ.height ++
      [⟨.jumpIfFalse 0xffff, span, σ.height + 1⟩, ⟨.pop, span, σ.height + 1⟩]) c₃ ∧
      past = c.chunk.offset + (condition.assembly σ σ.height).size + 1 := by
  have hw := expression_writes condition σ.height hs hcondition
  obtain ⟨hj, rfl⟩ := emitJump_writes (σ.height + 1) isForwardJump_jumpIfFalse hjump
  have hp := emit_writes (i := .pop) (σ.height + 1) rfl hpop
  exact ⟨hw.trans (hj.trans hp), by rw [hw.offset_eq]⟩

/-- What is written by one statement, or by what stands behind `else`, when the variables `names` are new. -/
def Written (σ : Scope) (compile : Compilation Unit) (a : Assembly) (names : List String) : Prop :=
  ∀ ⦃c c' : Compiler⦄, c.Within σ → compile c = .ok () c' → Emits c a c' ∧ c'.Within (σ.extend names)

theorem ifElse_written {condition : Expr} {thenBranch : Stmt} {elseBranch : Option Stmt}
    (hthen : Written σ (statement thenBranch) (thenBranch.assembly σ) thenBranch.declared)
    (helse : Written (σ.extend thenBranch.declared) (alternative elseBranch)
      (Stmt.assemblyElse (σ.extend thenBranch.declared) elseBranch) (Stmt.declaredElse elseBranch)) :
    Written σ (statement (.ifElse condition thenBranch elseBranch span))
      (Stmt.assembly σ (.ifElse condition thenBranch elseBranch span))
      (Stmt.declared (.ifElse condition thenBranch elseBranch span)) := by
  intro c c' hc he
  obtain ⟨_, c₁, hcondition, he⟩ := apply_bind_eq_ok.mp he
  obtain ⟨pastThen, c₂, hjump, he⟩ := apply_bind_eq_ok.mp he
  obtain ⟨_, c₃, hpop, he⟩ := apply_bind_eq_ok.mp he
  obtain ⟨_, c₄, hbranch, he⟩ := apply_bind_eq_ok.mp he
  obtain ⟨pastElse, c₅, hjump', he⟩ := apply_bind_eq_ok.mp he
  obtain ⟨_, c₆, hpatch, he⟩ := apply_bind_eq_ok.mp he
  obtain ⟨_, c₇, hpop', he⟩ := apply_bind_eq_ok.mp he
  obtain ⟨_, c₈, hbranch', hpatch'⟩ := apply_bind_eq_ok.mp he
  obtain ⟨w₃, rfl⟩ := test_writes hc.sees hcondition hjump hpop
  obtain ⟨e₄, hc₄⟩ := hthen (hc.of_writes w₃) hbranch
  obtain ⟨w₅, rfl⟩ := emitJump_writes σ.height isForwardJump_jump hjump'
  have e₅ : Emits c (condition.assembly σ σ.height ++ ⟨.jumpIfFalse 0xffff, span, σ.height + 1⟩ ::
      (⟨.pop, span, σ.height + 1⟩ :: thenBranch.assembly σ ++ [⟨.jump 0xffff, span, σ.height⟩])) c₅ := by
    simpa using w₃.toEmits.trans (e₄.trans w₅.toEmits)
  have e₆ := e₅.patch isForwardJump_jumpIfFalse hpatch
  have hsize : Assembly.size (⟨.pop, span, σ.height + 1⟩ :: thenBranch.assembly σ ++
      [⟨.jump 0xffff, span, σ.height⟩]) = (thenBranch.assembly σ).size + 4 := by
    simp
    omega
  rw [hsize] at e₆
  have w₇ := emit_writes (i := .pop) (σ.height + 1) rfl hpop'
  have hc₆ := (hc₄.of_writes w₅).of_patchJump hpatch
  obtain ⟨e₈, hc₈⟩ := helse (hc₆.of_writes w₇) hbranch'
  have e₉ : Emits c ((condition.assembly σ σ.height ++
      [⟨.jumpIfFalse ((thenBranch.assembly σ).size + 4), span, σ.height + 1⟩, ⟨.pop, span, σ.height + 1⟩] ++
      thenBranch.assembly σ) ++ ⟨.jump 0xffff, span, σ.height⟩ ::
      (⟨.pop, span, σ.height + 1⟩ :: Stmt.assemblyElse (σ.extend thenBranch.declared) elseBranch)) c₈ := by
    simpa using e₆.trans (w₇.toEmits.trans e₈)
  have hoffset := (w₃.toEmits.trans e₄).offset_eq
  have e₁₀ := e₉.patch isForwardJump_jump (by simpa [hoffset] using hpatch')
  refine ⟨by simpa [Stmt.assembly, Nat.add_comm] using e₁₀, ?_⟩
  rw [Stmt.declared, Scope.extend_append]
  exact hc₈.of_patchJump hpatch'

theorem whileLoop_written {condition : Expr} {body : Stmt}
    (hbody : Written σ (statement body) (body.assembly σ) body.declared) :
    Written σ (statement (.whileLoop condition body span)) (Stmt.assembly σ (.whileLoop condition body span))
      (Stmt.declared (.whileLoop condition body span)) := by
  intro c c' hc he
  rw [statement, apply_bind_of_ok (apply_get c)] at he
  obtain ⟨_, c₁, hcondition, he⟩ := apply_bind_eq_ok.mp he
  obtain ⟨past, c₂, hjump, he⟩ := apply_bind_eq_ok.mp he
  obtain ⟨_, c₃, hpop, he⟩ := apply_bind_eq_ok.mp he
  obtain ⟨_, c₄, hround, he⟩ := apply_bind_eq_ok.mp he
  obtain ⟨_, c₅, hloop, he⟩ := apply_bind_eq_ok.mp he
  obtain ⟨_, c₆, hpatch, hpop'⟩ := apply_bind_eq_ok.mp he
  obtain ⟨w₃, rfl⟩ := test_writes hc.sees hcondition hjump hpop
  obtain ⟨e₄, hc₄⟩ := hbody (hc.of_writes w₃) hround
  have hoffset := (w₃.toEmits.trans e₄).offset_eq
  simp only [Assembly.size_append, Assembly.size_cons, Assembly.size_nil, Instr.size_pop,
    Instr.size_jumpIfFalse] at hoffset
  have w₅ := emitLoop_writes σ.height (by omega) hloop
  have hdist : c₄.chunk.offset + 3 - c.chunk.offset =
      (condition.assembly σ σ.height).size + (body.assembly σ).size + 7 := by omega
  rw [hdist] at w₅
  have e₅ : Emits c (condition.assembly σ σ.height ++ ⟨.jumpIfFalse 0xffff, span, σ.height + 1⟩ ::
      (⟨.pop, span, σ.height + 1⟩ :: body.assembly σ ++
        [⟨.loop ((condition.assembly σ σ.height).size + (body.assembly σ).size + 7), span, σ.height⟩])) c₅ := by
    simpa using w₃.toEmits.trans (e₄.trans w₅.toEmits)
  have e₆ := e₅.patch isForwardJump_jumpIfFalse hpatch
  have hsize : Assembly.size (⟨.pop, span, σ.height + 1⟩ :: body.assembly σ ++
      [⟨.loop ((condition.assembly σ σ.height).size + (body.assembly σ).size + 7), span, σ.height⟩]) =
      (body.assembly σ).size + 4 := by
    simp
    omega
  rw [hsize] at e₆
  have w₇ := emit_writes (i := .pop) (σ.height + 1) rfl hpop'
  have hc₆ := (hc₄.of_writes w₅).of_patchJump hpatch
  exact ⟨by simpa [Stmt.assembly] using e₆.trans w₇.toEmits, by simpa [Stmt.declared] using hc₆.of_writes w₇⟩

mutual

/-- **A statement writes its assembly.** -/
theorem statement_emits {c c' : Compiler} {σ : Scope} (s : Stmt) (hc : c.Within σ)
    (he : statement s c = .ok () c') :
    Emits c (s.assembly σ) c' ∧ c'.Within (σ.extend s.declared) := by
  cases s with
  | expression e s =>
      obtain ⟨_, c₁, hexpr, hpop⟩ := apply_bind_eq_ok.mp he
      have hw := (expression_writes e σ.height hc.sees hexpr).trans
        (emit_writes (i := .pop) (σ.height + 1) rfl hpop)
      exact ⟨hw.toEmits, by simpa [Stmt.declared] using hc.of_writes hw⟩
  | print e s =>
      obtain ⟨_, c₁, hexpr, hprint⟩ := apply_bind_eq_ok.mp he
      have hw := (expression_writes e σ.height hc.sees hexpr).trans
        (emit_writes (i := .print) (σ.height + 1) rfl hprint)
      exact ⟨hw.toEmits, by simpa [Stmt.declared] using hc.of_writes hw⟩
  | var name value s => exact variableDeclaration_emits hc he
  | block body s =>
      obtain ⟨_, c₁, hopen, he⟩ := apply_bind_eq_ok.mp he
      obtain ⟨_, c₂, hbody, hclose⟩ := apply_bind_eq_ok.mp he
      obtain rfl := (EStateM.Result.ok.inj hopen).2
      obtain ⟨hb, hbc⟩ := statements_emit body hc.openScope hbody
      rw [Scope.extend, List.append_nil] at hbc
      obtain ⟨hp, hpc⟩ := closeScope_emits hbc hclose
      exact ⟨hb.congr_left.trans hp, by simpa [Stmt.declared] using hpc⟩
  | ifElse condition thenBranch elseBranch s =>
      exact ifElse_written (fun _ _ hc he => statement_emits thenBranch hc he)
        (fun _ _ hc he => alternative_emits elseBranch hc he) hc he
  | whileLoop condition body s => exact whileLoop_written (fun _ _ hc he => statement_emits body hc he) hc he
  | function name parameters body s =>
      have hw := emit_writes (i := .trap) σ.height rfl he
      exact ⟨hw.toEmits, by simpa [Stmt.declared] using hc.of_writes hw⟩
  | returns value s =>
      have hw := emit_writes (i := .trap) σ.height rfl he
      exact ⟨hw.toEmits, by simpa [Stmt.declared] using hc.of_writes hw⟩

theorem alternative_emits {c c' : Compiler} {σ : Scope} (s : Option Stmt) (hc : c.Within σ)
    (he : alternative s c = .ok () c') :
    Emits c (Stmt.assemblyElse σ s) c' ∧ c'.Within (σ.extend (Stmt.declaredElse s)) := by
  cases s with
  | none =>
      obtain rfl := (EStateM.Result.ok.inj he).2
      exact ⟨Emits.refl c, by simpa [Stmt.declaredElse] using hc⟩
  | some s => exact statement_emits s hc he

theorem statements_emit {c c' : Compiler} {σ : Scope} (body : List Stmt) (hc : c.Within σ)
    (he : statements body c = .ok () c') :
    Emits c (Stmt.assemblyAll σ body) c' ∧ c'.Within (σ.extend (Stmt.declaredAll body)) := by
  cases body with
  | nil =>
      obtain rfl := (EStateM.Result.ok.inj he).2
      exact ⟨Emits.refl c, by simpa [Stmt.declaredAll] using hc⟩
  | cons s rest =>
      obtain ⟨_, c₁, hs, hrest⟩ := apply_bind_eq_ok.mp he
      obtain ⟨h₁, hc₁⟩ := statement_emits s hc hs
      obtain ⟨h₂, hc₂⟩ := statements_emit rest hc₁ hrest
      exact ⟨h₁.trans h₂, by simpa [Stmt.declaredAll, Scope.extend_append] using hc₂⟩

end

end Compilation

/-! ## Programs -/

/-- The instructions of the compiled program are `a`, and its constants can be loaded. -/
structure Compiled.Carries (out : Compiled) (a : Assembly) : Prop where
  code : out.chunk.code.toList = a.bytes out.pool.constants
  spans : out.chunk.spans.entries.toList = a.entries 0
  fits : ∀ l ∈ a, l.instr.Fits out.pool.constants
  sound : out.pool.Sound

/-- **A compiled program carries the assembly of the program.** -/
theorem compile_carries {p : Program} {out : Compiled} (h : compile p = .ok out) :
    out.Carries p.assembly := by
  unfold compile at h
  split at h
  · rename_i c hc
    obtain rfl := Except.ok.inj h
    obtain ⟨he, -⟩ := Compilation.statements_emit p Compiler.within_empty hc
    exact ⟨by simpa [Program.assembly] using he.code, by simpa [Program.assembly, Chunk.offset] using he.spans,
      he.fits, he.sound ConstantPool.holds_empty.sound⟩
  · cases h

end Lox
