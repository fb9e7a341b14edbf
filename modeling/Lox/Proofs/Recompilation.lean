import Lox.Proofs.Interning

/-!
# Compiling the rest of a program by itself

What can be compiled behind other code can be compiled alone.

* `Compiler.Covers base c d` : `c` and `d` compile the same thing, `c` behind `base` bytes of other code and with
  further constants in its pool;
* `Compilation.Adapts base R x y` : where `x` succeeds for `c`, so does `y` for `d`;
* `Compilation.statement_adapts` : compiling a statement depends on neither the code nor the constants before it;
* `compile_append` : if two programs can be compiled as one, each of them can be compiled.
-/

namespace Lox

/-- The compiler `d` has what `c` has, but for `base` bytes of code and some constants. -/
structure Compiler.Covers (base : Nat) (c d : Compiler) : Prop where
  locals : d.locals = c.locals
  depth : d.depth = c.depth
  offset : c.chunk.offset = base + d.chunk.offset
  drawn : d.pool.DrawnFrom c.pool.constants
  sound : c.pool.Sound

namespace Chunk

variable (c : Chunk) (op : Opcode) (span : Span)

theorem offset_write : (c.write op span).offset = c.offset + 1 :=
  Array.size_push _

theorem offset_writeByte (operand : UInt8) : (c.writeByte op operand span).offset = c.offset + 2 := by
  simp [writeByte, write, offset]

theorem offset_writeWord (operand : Nat) : (c.writeWord op operand span).offset = c.offset + 3 := by
  simp [writeWord, write, offset, toLittleEndian]

end Chunk

namespace Compilation

variable {α β γ δ : Type} {base : Nat}

/-- Where `x` succeeds, so does `y`, and `R` holds of what they give. -/
def Adapts (base : Nat) (R : α → β → Prop) (x : Compilation α) (y : Compilation β) : Prop :=
  ∀ c d, c.Covers base d → ∀ a c', x c = .ok a c' → ∃ b d', y d = .ok b d' ∧ R a b ∧ c'.Covers base d'

theorem Adapts.bind {R : α → β → Prop} {S : γ → δ → Prop} {x : Compilation α} {y : Compilation β}
    {f : α → Compilation γ} {g : β → Compilation δ} (hx : Adapts base R x y)
    (hf : ∀ a b, R a b → Adapts base S (f a) (g b)) : Adapts base S (x >>= f) (y >>= g) := by
  intro c d hcd a c' h
  obtain ⟨a₁, c₁, hx₁, hf₁⟩ := apply_bind_eq_ok.mp h
  obtain ⟨b₁, d₁, hy₁, hR, hcd₁⟩ := hx c d hcd a₁ c₁ hx₁
  obtain ⟨b, d', hg, hS, hcd'⟩ := hf a₁ b₁ hR c₁ d₁ hcd₁ a c' hf₁
  exact ⟨b, d', by rw [apply_bind_of_ok hy₁, hg], hS, hcd'⟩

theorem Adapts.of_pure {R : α → β → Prop} {a : α} {b : β} (hR : R a b) :
    Adapts base R (pure a) (pure b) := by
  intro c d hcd a' c' h
  cases h
  exact ⟨b, d, rfl, hR, hcd⟩

theorem Adapts.of_throw {R : α → β → Prop} (e : CompileError) (y : Compilation β) :
    Adapts base R (throw e) y := by
  intro c d _ a c' h
  cases h

theorem Adapts.of_get : Adapts base (Compiler.Covers base) get get := by
  intro c d hcd a c' h
  cases h
  exact ⟨d, d, rfl, hcd, hcd⟩

/-- A change that leaves alike what was alike. -/
theorem Adapts.of_modify {f g : Compiler → Compiler} (h : ∀ c d, c.Covers base d → (f c).Covers base (g d)) :
    Adapts base Eq (modify f) (modify g) := by
  intro c d hcd a c' hc
  cases hc
  exact ⟨(), g d, rfl, rfl, h c d hcd⟩

/-! ## Writing -/

theorem emit_adapts (op : Opcode) (s : Span) : Adapts base Eq (emit op s) (emit op s) := by
  refine .of_modify fun c d hcd => { hcd with offset := ?_ }
  rw [Chunk.offset_write, Chunk.offset_write, hcd.offset, Nat.add_assoc]

theorem emitByte_adapts (op : Opcode) (i j : UInt8) (s : Span) :
    Adapts base Eq (emitByte op i s) (emitByte op j s) := by
  refine .of_modify fun c d hcd => { hcd with offset := ?_ }
  rw [Chunk.offset_writeByte, Chunk.offset_writeByte, hcd.offset, Nat.add_assoc]

theorem emitJump_adapts (op : Opcode) (s : Span) :
    Adapts base (fun i j => i = base + j) (emitJump op s) (emitJump op s) := by
  intro c d hcd i c' h
  cases h
  have hoffset := hcd.offset
  have hc := c.chunk.offset_writeWord op s Chunk.maxDistance
  have hd := d.chunk.offset_writeWord op s Chunk.maxDistance
  refine ⟨_, _, rfl, ?_, { hcd with offset := ?_ }⟩
  · change (c.chunk.writeWord op Chunk.maxDistance s).offset - 2 =
      base + ((d.chunk.writeWord op Chunk.maxDistance s).offset - 2)
    omega
  · change (c.chunk.writeWord op Chunk.maxDistance s).offset =
      base + (d.chunk.writeWord op Chunk.maxDistance s).offset
    omega

/-- The distance of a jump does not depend on where the code begins. -/
theorem patchJump_adapts {i j : Nat} (hij : i = base + j) :
    Adapts base Eq (patchJump i) (patchJump j) := by
  intro c d hcd _ c' h
  have hdistance : c.chunk.offset - i - 2 = d.chunk.offset - j - 2 := by
    have := hcd.offset
    omega
  rw [patchJump_apply, hdistance] at h
  split_ifs at h with hfar
  cases h
  refine ⟨(), _, (patchJump_apply ..).trans (if_neg hfar), rfl, { hcd with offset := ?_ }⟩
  simpa [Chunk.offset] using hcd.offset

theorem emitLoop_adapts {i j : Nat} (hij : i = base + j) (s : Span) :
    Adapts base Eq (emitLoop i s) (emitLoop j s) := by
  intro c d hcd _ c' h
  have hdistance : (i : Int) - (c.chunk.offset + 3 : Nat) = j - (d.chunk.offset + 3 : Nat) := by
    have := hcd.offset
    omega
  rw [emitLoop_apply, hdistance] at h
  split_ifs at h with hfar
  cases h
  refine ⟨(), _, (emitLoop_apply ..).trans (if_neg hfar), rfl, { hcd with offset := ?_ }⟩
  rw [Chunk.offset_writeWord, Chunk.offset_writeWord, hcd.offset, Nat.add_assoc]

/-- The index of a constant may be another one. -/
theorem constant_adapts (k : Constant) (s : Span) :
    Adapts base (fun _ _ => True) (constant k s) (constant k s) := by
  intro c d hcd i c' h
  unfold constant at h
  split at h
  · rename_i i pool hpool
    cases h
    obtain ⟨hgrows, hmem, -, hsound⟩ := hcd.sound.intern hpool
    obtain ⟨j, pool', hpool', hdrawn⟩ := (hcd.drawn.mono hgrows.subset).intern hsound.toStorable hmem s
    exact ⟨j, { d with pool := pool' }, by rw [constant, hpool'], trivial,
      { hcd with drawn := hdrawn, sound := hsound }⟩
  · cases h

/-! ## Variables -/

theorem slot?_adapts (name : String) (s : Span) : Adapts base Eq (slot? name s) (slot? name s) := by
  refine Adapts.of_get.bind fun c d hcd => ?_
  rw [hcd.locals]
  cases Local.lookup name c.locals with
  | none => exact .of_pure rfl
  | some found =>
      obtain ⟨slot, v⟩ := found
      dsimp only
      cases v.depth with
      | none => exact .of_throw _ _
      | some depth => exact .of_pure rfl

theorem access_adapts (toLocal toGlobal : Opcode) (name : String) (s : Span) :
    Adapts base Eq (access toLocal toGlobal name s) (access toLocal toGlobal name s) := by
  refine (slot?_adapts name s).bind fun slot _ hslot => ?_
  subst hslot
  cases slot with
  | some slot => exact emitByte_adapts _ _ _ _
  | none => exact (constant_adapts _ s).bind fun i j _ => emitByte_adapts _ _ _ _

theorem declare_adapts (name : String) (s : Span) : Adapts base Eq (declare name s) (declare name s) := by
  refine Adapts.of_get.bind fun c d hcd => ?_
  rw [hcd.locals, hcd.depth]
  split_ifs
  · exact .of_throw _ _
  · exact .of_throw _ _
  · intro c₁ d₁ hcd₁ _ c' h
    cases h
    exact ⟨(), _, rfl, rfl, { hcd with locals := rfl, depth := rfl }⟩

theorem ready_adapts : Adapts base Eq ready ready := by
  refine .of_modify fun c d hcd => ?_
  rw [hcd.locals, hcd.depth]
  cases c.locals with
  | nil => exact hcd
  | cons v older => exact { hcd with locals := rfl, depth := rfl }

theorem openScope_adapts : Adapts base Eq openScope openScope :=
  .of_modify fun _ _ hcd => { hcd with depth := congrArg (· + 1) hcd.depth }

theorem emitPops_adapts (s : Span) (n : Nat) : Adapts base Eq (emitPops s n) (emitPops s n) := by
  induction n with
  | zero => exact .of_pure rfl
  | succ n ih => exact (emit_adapts .pop s).bind fun _ _ _ => ih

theorem closeScope_adapts (s : Span) : Adapts base Eq (closeScope s) (closeScope s) := by
  refine Adapts.of_get.bind fun c d hcd => ?_
  simp only [hcd.locals, hcd.depth]
  refine (emitPops_adapts s _).bind fun _ _ _ => .of_modify fun c₁ d₁ hcd₁ => ?_
  exact { hcd₁ with locals := by rw [hcd₁.locals], depth := rfl }

/-! ## Expressions and statements -/

theorem literal_adapts (s : Span) (v : Value) : Adapts base Eq (literal s v) (literal s v) := by
  rcases v with _ | (_ | _) | x | text
  · exact emit_adapts _ s
  · exact emit_adapts _ s
  · exact emit_adapts _ s
  · exact (constant_adapts _ s).bind fun i j _ => emitByte_adapts _ _ _ _
  · exact (constant_adapts _ s).bind fun i j _ => emitByte_adapts _ _ _ _

/-- Compiling an expression depends on neither the code nor the constants before it. -/
theorem expression_adapts (e : Expr) : Adapts base Eq (expression e) (expression e) := by
  induction e with
  | literal v s => exact literal_adapts s v
  | var name s => exact access_adapts _ _ name s
  | assign name value s ih => exact ih.bind fun _ _ _ => access_adapts _ _ name s
  | unary op operand s ih => exact ih.bind fun _ _ _ => emit_adapts _ s
  | binary op left right s ihl ihr => exact ihl.bind fun _ _ _ => ihr.bind fun _ _ _ => emit_adapts _ s
  | logical op left right s ihl ihr =>
      refine ihl.bind fun _ _ _ => (emitJump_adapts _ s).bind fun i j hij => ?_
      exact (emit_adapts _ s).bind fun _ _ _ => ihr.bind fun _ _ _ => patchJump_adapts hij
  | grouping inner s ih => exact ih
  | call callee arguments s => exact emit_adapts _ s

theorem initial_adapts (s : Span) (value : Option Expr) : Adapts base Eq (initial s value) (initial s value) := by
  cases value with
  | none => exact emit_adapts _ s
  | some e => exact expression_adapts e

theorem variableDeclaration_adapts (name : String) (value : Option Expr) (s : Span) :
    Adapts base Eq (variableDeclaration name value s) (variableDeclaration name value s) := by
  refine Adapts.of_get.bind fun c d hcd => ?_
  rw [hcd.depth]
  by_cases hdepth : 0 < c.depth
  · rw [if_pos hdepth]
    exact (declare_adapts name s).bind fun _ _ _ => (initial_adapts s value).bind fun _ _ _ => ready_adapts
  · rw [if_neg hdepth]
    refine (initial_adapts s value).bind fun _ _ _ => (constant_adapts _ s).bind fun i j _ => ?_
    exact emitByte_adapts _ _ _ _

mutual

/-- Compiling a statement depends on neither the code nor the constants before it. -/
theorem statement_adapts (s : Stmt) : Adapts base Eq (statement s) (statement s) := by
  cases s with
  | expression e s => exact (expression_adapts e).bind fun _ _ _ => emit_adapts _ s
  | print e s => exact (expression_adapts e).bind fun _ _ _ => emit_adapts _ s
  | var name value s => exact variableDeclaration_adapts name value s
  | block body s =>
      refine openScope_adapts.bind fun _ _ _ => ?_
      exact (statements_adapts body).bind fun _ _ _ => closeScope_adapts s
  | ifElse condition thenBranch elseBranch s =>
      refine (expression_adapts condition).bind fun _ _ _ => (emitJump_adapts _ s).bind fun i j hij => ?_
      refine (emit_adapts _ s).bind fun _ _ _ => (statement_adapts thenBranch).bind fun _ _ _ => ?_
      refine (emitJump_adapts _ s).bind fun i' j' hij' => (patchJump_adapts hij).bind fun _ _ _ => ?_
      refine (emit_adapts _ s).bind fun _ _ _ => (alternative_adapts elseBranch).bind fun _ _ _ => ?_
      exact patchJump_adapts hij'
  | whileLoop condition body s =>
      refine Adapts.of_get.bind fun c d hcd => (expression_adapts condition).bind fun _ _ _ => ?_
      refine (emitJump_adapts _ s).bind fun i j hij => (emit_adapts _ s).bind fun _ _ _ => ?_
      refine (statement_adapts body).bind fun _ _ _ => (emitLoop_adapts hcd.offset s).bind fun _ _ _ => ?_
      exact (patchJump_adapts hij).bind fun _ _ _ => emit_adapts _ s
  | function name parameters body s => exact emit_adapts _ s
  | returns value s => exact emit_adapts _ s

theorem alternative_adapts (s : Option Stmt) : Adapts base Eq (alternative s) (alternative s) := by
  cases s with
  | none => exact .of_pure rfl
  | some s => exact statement_adapts s

theorem statements_adapts (body : List Stmt) : Adapts base Eq (statements body) (statements body) := by
  cases body with
  | nil => exact .of_pure rfl
  | cons s rest => exact (statement_adapts s).bind fun _ _ _ => statements_adapts rest

end

theorem statements_append (p q : List Stmt) : statements (p ++ q) = statements p >>= fun _ => statements q := by
  induction p with
  | nil => rfl
  | cons s p ih =>
      change (statement s >>= fun _ => statements (p ++ q)) = (statement s >>= fun _ => statements p) >>= _
      rw [ih, bind_assoc]

end Compilation

theorem compile_eq_ok {p : Program} {out : Compiled} :
    compile p = .ok out ↔ ∃ c, Compilation.statements p {} = .ok () c ∧ out = { pool := c.pool, chunk := c.chunk } := by
  unfold compile
  cases Compilation.statements p {} with
  | ok u c => simp [eq_comm]
  | error e c => simp

/-- **If two programs can be compiled as one, each of them can be compiled.** -/
theorem compile_append {p q : Program} {out : Compiled} (h : compile (p ++ q) = .ok out) :
    ∃ first second, compile p = .ok first ∧ compile q = .ok second := by
  obtain ⟨c, hc, -⟩ := compile_eq_ok.mp h
  rw [Compilation.statements_append] at hc
  obtain ⟨_, c₁, hp, hq⟩ := apply_bind_eq_ok.mp hc
  have hwithin := (Compilation.statements_emit p Compiler.within_empty hp).2
  have hcovers : c₁.Covers c₁.chunk.offset {} :=
    { locals := hwithin.locals.symm
      depth := hwithin.depth.symm
      offset := rfl
      drawn := .empty _
      sound := hwithin.sound }
  obtain ⟨_, d, hd, -, -⟩ := Compilation.statements_adapts q c₁ {} hcovers () c hq
  exact ⟨_, _, compile_eq_ok.mpr ⟨c₁, hp, rfl⟩, compile_eq_ok.mpr ⟨d, hd, rfl⟩⟩

end Lox
