import Mathlib.Order.BooleanAlgebra.Set
import Lox.Proofs.Boundaries
import Lox.Proofs.Recompilation
import Lox.Proofs.Patching

/-!
# Compiling only appends

Compiling a statement leaves what was compiled before as it is: code, spans and constants are added behind, the jumps of
the statement are patched before it ends, and of the local variables only the one that it declares stays.

* `Compilation.Performs x c es a c'` : the operations `es` are what `x` does to the chunk on its way from `c` to `c'`;
* `Draft.Balances`, `Compilation.Balanced` : which forward jumps are patched on the way and which are left open;
  `Compilation.Balanced.bind` joins two parts, and `Compilation.statement_settled` says that a statement leaves none;
* `Compilation.Meets.within` : what is known of the state in which the compiler comes to a statement;
* `compile_onlyAppends` : what compiling a statement changes there, and what follows for programs one behind the other.
-/

namespace Lox

/-! ## Open jumps -/

namespace Draft

/-- The jumps that are open behind the operations: of those that were open before none in `closed`, and of the new ones
only some in `opened`. -/
def Balances (d : Draft) (es : List Edit) (closed opened : Set Nat) : Prop :=
  ∀ j ∈ (d.editAll es).forward, j.target = none → (j ∈ d.forward ∧ j.operand ∉ closed) ∨ j.operand ∈ opened

variable {d : Draft} {es es' : List Edit} {closed closed' opened opened' : Set Nat} {e : Edit} {o : Nat}

theorem editAll_append (d : Draft) (es es' : List Edit) : d.editAll (es ++ es') = (d.editAll es).editAll es' :=
  List.foldl_append

/-- Operations in turn: what the second patch is no longer open from the first. -/
theorem Balances.append (h : d.Balances es closed opened) (h' : (d.editAll es).Balances es' closed' opened') :
    d.Balances (es ++ es') (closed ∪ closed') (opened \ closed' ∪ opened') := by
  intro j hj hopen
  rw [editAll_append] at hj
  rcases h' j hj hopen with ⟨hj, hclosed'⟩ | hopened'
  · rcases h j hj hopen with ⟨hj, hclosed⟩ | hopened
    · exact .inl ⟨hj, fun hmem => hmem.elim hclosed hclosed'⟩
    · exact .inr (.inl ⟨hopened, hclosed'⟩)
  · exact .inr (.inr hopened')

theorem balances_nil (d : Draft) : d.Balances [] ∅ ∅ :=
  fun _ hj _ => .inl ⟨hj, Set.notMem_empty _⟩

/-- An operation that has nothing to do with forward jumps. -/
theorem balances_of_forward_eq (h : (d.edit e).forward = d.forward) : d.Balances [e] ∅ ∅ := by
  intro j hj hopen
  have hj' : j ∈ (d.edit e).forward := hj
  rw [h] at hj'
  exact .inl ⟨hj', Set.notMem_empty _⟩

theorem balances_writeJump (d : Draft) (op : Opcode) (span : Span) :
    d.Balances [.writeJump op span] ∅ {(d.chunk.writeJump op span).1} := by
  intro j hj hopen
  rcases List.mem_cons.mp hj with rfl | hj
  · exact .inr rfl
  · exact .inl ⟨hj, Set.notMem_empty _⟩

theorem balances_patchJump {chunk : Chunk} (h : Chunk.patchJump o d.chunk = .ok () chunk) :
    d.Balances [.patchJump o] {o} ∅ := by
  intro j' hj' hopen
  have hforward : (d.editAll [.patchJump o]).forward = d.forward.map (·.patch o d.chunk.offset) := by
    change (d.edit (.patchJump o)).forward = _
    rw [edit, h]
  rw [hforward] at hj'
  obtain ⟨j, hj, rfl⟩ := List.mem_map.mp hj'
  unfold ForwardJump.patch at hopen ⊢
  split_ifs at hopen ⊢ with hsame
  exact .inl ⟨hj, hsame⟩

end Draft

/-! ## What the compiler does to the chunk -/

namespace Compilation

variable {α β : Type} {c c' c₁ c₂ : Compiler} {a : α} {b : β} {x : Compilation α} {f : α → Compilation β}
  {es : List Edit} {closed closed' opened opened' : Set Nat} {span : Span}

/-- From `c` to `c'` the computation does the operations `es` to the chunk, and gives `a`. -/
inductive Performs : {α : Type} → Compilation α → Compiler → List Edit → α → Compiler → Prop where
  | emit (op : Opcode) (span : Span) (c : Compiler) :
      Performs (emit op span) c [.write op span] () { c with chunk := c.chunk.write op span }
  | emitByte (op : Opcode) (operand : UInt8) (span : Span) (c : Compiler) :
      Performs (emitByte op operand span) c [.writeByte op operand span] ()
        { c with chunk := c.chunk.writeByte op operand span }
  | emitJump (op : Opcode) (span : Span) (c : Compiler) :
      Performs (emitJump op span) c [.writeJump op span] (c.chunk.writeJump op span).1
        { c with chunk := (c.chunk.writeJump op span).2 }
  | patchJump {operand : Nat} {c : Compiler} {chunk : Chunk} (h : Chunk.patchJump operand c.chunk = .ok () chunk) :
      Performs (patchJump operand) c [.patchJump operand] () { c with chunk }
  | emitLoop {start : Nat} {span : Span} {c : Compiler} {chunk : Chunk}
      (h : Chunk.writeLoop start span c.chunk = .ok () chunk) :
      Performs (emitLoop start span) c [.writeLoop start span] () { c with chunk }
  /-- Anything that does not touch the chunk. -/
  | quiet {α : Type} {x : Compilation α} {c c' : Compiler} {a : α} (h : x c = .ok a c')
      (hchunk : c'.chunk = c.chunk) : Performs x c [] a c'
  | bind {α β : Type} {x : Compilation α} {f : α → Compilation β} {c c₁ c₂ : Compiler} {es es' : List Edit} {a : α}
      {b : β} (hx : Performs x c es a c₁) (hf : Performs (f a) c₁ es' b c₂) : Performs (x >>= f) c (es ++ es') b c₂

/-- The operations lead from the one chunk to the other. -/
theorem Performs.chunk_eq (h : Performs x c es a c') {d : Draft} (hd : d.chunk = c.chunk) :
    (d.editAll es).chunk = c'.chunk := by
  induction h generalizing d with
  | emit op span c => exact congrArg (·.write op span) hd
  | emitByte op operand span c => exact congrArg (·.writeByte op operand span) hd
  | emitJump op span c => exact congrArg (fun chunk => (chunk.writeJump op span).2) hd
  | @patchJump operand c chunk h =>
      change (d.edit (.patchJump operand)).chunk = chunk
      rw [Draft.edit, hd, h]
  | @emitLoop start span c chunk h =>
      change (d.edit (.writeLoop start span)).chunk = chunk
      rw [Draft.edit, hd, h]
  | quiet h hchunk => exact hd.trans hchunk.symm
  | bind hx hf ihx ihf =>
      rw [Draft.editAll_append]
      exact ihf (ihx hd)

/-- On its way from `c` to `c'` the computation patches the jumps `closed`, and leaves open of those it writes only some
in `opened`. -/
def Balanced (x : Compilation α) (c : Compiler) (a : α) (c' : Compiler) (closed opened : Set Nat) : Prop :=
  ∃ es, Performs x c es a c' ∧ ∀ d : Draft, d.chunk = c.chunk → d.Balances es closed opened

theorem Balanced.bind (hx : Balanced x c a c₁ closed opened) (hf : Balanced (f a) c₁ b c₂ closed' opened') :
    Balanced (x >>= f) c b c₂ (closed ∪ closed') (opened \ closed' ∪ opened') := by
  obtain ⟨es, hperforms, hbalances⟩ := hx
  obtain ⟨es', hperforms', hbalances'⟩ := hf
  refine ⟨es ++ es', .bind hperforms hperforms', fun d hd => ?_⟩
  exact (hbalances d hd).append (hbalances' _ (hperforms.chunk_eq hd))

theorem Balanced.settle (h : Balanced x c a c' closed opened) (hopened : opened = ∅) : Balanced x c a c' ∅ ∅ := by
  obtain ⟨es, hperforms, hbalances⟩ := h
  refine ⟨es, hperforms, fun d hd j hj hopen => ?_⟩
  rcases hbalances d hd j hj hopen with ⟨hmem, -⟩ | hmem
  · exact .inl ⟨hmem, Set.notMem_empty _⟩
  · exact .inr (hopened ▸ hmem)

def Settled (x : Compilation α) : Prop :=
  ∀ ⦃c a c'⦄, x c = .ok a c' → Balanced x c a c' ∅ ∅

theorem Settled.bind (hx : Settled x) (hf : ∀ a, Settled (f a)) : Settled (x >>= f) := by
  intro c b c₂ h
  obtain ⟨a, c₁, hx₁, hf₁⟩ := apply_bind_eq_ok.mp h
  have hboth := (hx hx₁).bind (hf a hf₁)
  rwa [Set.union_empty, Set.sdiff_empty, Set.union_empty] at hboth

theorem settled_of_chunk_eq (h : ∀ c a c', x c = .ok a c' → c'.chunk = c.chunk) : Settled x := by
  intro c a c' hx
  exact ⟨[], .quiet hx (h c a c' hx), fun d _ => d.balances_nil⟩

theorem settled_pure (a : α) : Settled (pure a) := by
  apply settled_of_chunk_eq
  intro c a c' h
  cases h
  rfl

theorem settled_get : Settled get := by
  apply settled_of_chunk_eq
  intro c a c' h
  cases h
  rfl

theorem settled_modify {g : Compiler → Compiler} (h : ∀ c, (g c).chunk = c.chunk) : Settled (modify g) := by
  apply settled_of_chunk_eq
  intro c a c' hg
  cases hg
  exact h c

theorem settled_throw (e : CompileError) : Settled (throw e : Compilation α) := by
  intro c a c' h
  cases h

theorem emit_settled (op : Opcode) (span : Span) : Settled (emit op span) := by
  intro c a c' h
  cases h
  exact ⟨_, .emit op span c, fun d _ => Draft.balances_of_forward_eq rfl⟩

theorem emitByte_settled (op : Opcode) (operand : UInt8) (span : Span) : Settled (emitByte op operand span) := by
  intro c a c' h
  cases h
  exact ⟨_, .emitByte op operand span c, fun d _ => Draft.balances_of_forward_eq rfl⟩

theorem emitLoop_settled (start : Nat) (span : Span) : Settled (emitLoop start span) := by
  intro c a c' h
  unfold emitLoop onChunk at h
  split at h
  · rename_i chunk hchunk
    cases h
    refine ⟨_, .emitLoop hchunk, fun d hd => Draft.balances_of_forward_eq ?_⟩
    rw [Draft.edit, hd, hchunk]
  · cases h

theorem emitJump_balanced {op : Opcode} {operand : Nat} (h : emitJump op span c = .ok operand c') :
    Balanced (emitJump op span) c operand c' ∅ {operand} := by
  cases h
  refine ⟨_, .emitJump op span c, fun d hd => ?_⟩
  have hbalances := d.balances_writeJump op span
  rwa [hd] at hbalances

theorem patchJump_balanced {operand : Nat} (h : patchJump operand c = .ok () c') :
    Balanced (patchJump operand) c () c' {operand} ∅ := by
  unfold patchJump onChunk at h
  split at h
  · rename_i chunk hchunk
    cases h
    refine ⟨_, .patchJump hchunk, fun d hd => ?_⟩
    rw [← hd] at hchunk
    exact Draft.balances_patchJump hchunk
  · cases h

/-! ## Expressions and statements -/

theorem constant_settled (k : Constant) (span : Span) : Settled (constant k span) := by
  apply settled_of_chunk_eq
  intro c i c' h
  unfold constant at h
  split at h
  · cases h
    rfl
  · cases h

theorem slot?_settled (name : String) (span : Span) : Settled (slot? name span) := by
  refine settled_get.bind fun c => ?_
  cases Local.lookup name c.locals with
  | none => exact settled_pure _
  | some found =>
      dsimp only
      split_ifs
      · exact settled_throw _
      · exact settled_pure _

theorem access_settled (toLocal toGlobal : Opcode) (name : String) (span : Span) :
    Settled (access toLocal toGlobal name span) := by
  refine (slot?_settled name span).bind fun slot => ?_
  cases slot with
  | some slot => exact emitByte_settled _ _ _
  | none => exact (constant_settled _ _).bind fun _ => emitByte_settled _ _ _

theorem literal_settled (span : Span) (v : Value) : Settled (literal span v) := by
  rcases v with _ | (_ | _) | x | text
  · exact emit_settled _ _
  · exact emit_settled _ _
  · exact emit_settled _ _
  · exact (constant_settled _ _).bind fun _ => emitByte_settled _ _ _
  · exact (constant_settled _ _).bind fun _ => emitByte_settled _ _ _

/-- An expression patches its own jumps. -/
theorem expression_settled (e : Expr) : Settled (expression e) := by
  induction e with
  | literal v s => exact literal_settled s v
  | var name s => exact access_settled _ _ name s
  | assign name value s ih => exact ih.bind fun _ => access_settled _ _ name s
  | unary op operand s ih => exact ih.bind fun _ => emit_settled _ s
  | binary op left right s ihl ihr => exact ihl.bind fun _ => ihr.bind fun _ => emit_settled _ s
  | logical op left right s ihl ihr =>
      refine ihl.bind fun _ => ?_
      intro c a c' h
      obtain ⟨past, c₁, hjump, h⟩ := apply_bind_eq_ok.mp h
      obtain ⟨_, c₂, hpop, h⟩ := apply_bind_eq_ok.mp h
      obtain ⟨_, c₃, hright, hpatch⟩ := apply_bind_eq_ok.mp h
      refine Balanced.settle (.bind (emitJump_balanced hjump) <| .bind (emit_settled _ s hpop) <|
        .bind (ihr hright) (patchJump_balanced hpatch)) ?_
      simp
  | grouping inner s ih => exact ih
  | call callee arguments s => exact emit_settled _ s

theorem initial_settled (span : Span) (value : Option Expr) : Settled (initial span value) := by
  cases value with
  | none => exact emit_settled _ span
  | some e => exact expression_settled e

theorem declare_settled (name : String) (span : Span) : Settled (declare name span) := by
  apply settled_of_chunk_eq
  intro c a c' h
  rw [(declare_spec h).1]

theorem ready_settled : Settled ready := by
  apply settled_modify
  intro c
  cases c.locals with
  | nil => rfl
  | cons v older => rfl

theorem variableDeclaration_settled (name : String) (value : Option Expr) (span : Span) :
    Settled (variableDeclaration name value span) := by
  refine settled_get.bind fun c => ?_
  split_ifs
  · exact (declare_settled name span).bind fun _ => (initial_settled span value).bind fun _ => ready_settled
  · refine (initial_settled span value).bind fun _ => (constant_settled _ span).bind fun i => ?_
    exact emitByte_settled _ i span

theorem openScope_settled : Settled openScope :=
  settled_modify fun _ => rfl

theorem emitPops_settled (span : Span) (n : Nat) : Settled (emitPops span n) := by
  induction n with
  | zero => exact settled_pure _
  | succ n ih => exact (emit_settled _ span).bind fun _ => ih

theorem closeScope_settled (span : Span) : Settled (closeScope span) :=
  settled_get.bind fun _ => (emitPops_settled span _).bind fun _ => settled_modify fun _ => rfl

mutual

/-- **A statement patches its own jumps.** -/
theorem statement_settled (s : Stmt) : Settled (statement s) := by
  cases s with
  | expression e s => exact (expression_settled e).bind fun _ => emit_settled _ s
  | print e s => exact (expression_settled e).bind fun _ => emit_settled _ s
  | var name value s => exact variableDeclaration_settled name value s
  | block body s =>
      refine openScope_settled.bind fun _ => ?_
      exact (statements_settled body).bind fun _ => closeScope_settled s
  | ifElse condition thenBranch elseBranch s =>
      refine (expression_settled condition).bind fun _ => ?_
      intro c a c' h
      obtain ⟨pastThen, c₁, hjump, h⟩ := apply_bind_eq_ok.mp h
      obtain ⟨_, c₂, hpop, h⟩ := apply_bind_eq_ok.mp h
      obtain ⟨_, c₃, hthen, h⟩ := apply_bind_eq_ok.mp h
      obtain ⟨pastElse, c₄, hjump', h⟩ := apply_bind_eq_ok.mp h
      obtain ⟨_, c₅, hpatch, h⟩ := apply_bind_eq_ok.mp h
      obtain ⟨_, c₆, hpop', h⟩ := apply_bind_eq_ok.mp h
      obtain ⟨_, c₇, helse, hpatch'⟩ := apply_bind_eq_ok.mp h
      refine Balanced.settle (.bind (emitJump_balanced hjump) <| .bind (emit_settled _ s hpop) <|
        .bind (statement_settled thenBranch hthen) <| .bind (emitJump_balanced hjump') <|
        .bind (patchJump_balanced hpatch) <| .bind (emit_settled _ s hpop') <|
        .bind (alternative_settled elseBranch helse) (patchJump_balanced hpatch')) ?_
      simp [Set.sdiff_eq_empty]
  | whileLoop condition body s =>
      refine settled_get.bind fun start => (expression_settled condition).bind fun _ => ?_
      intro c a c' h
      obtain ⟨past, c₁, hjump, h⟩ := apply_bind_eq_ok.mp h
      obtain ⟨_, c₂, hpop, h⟩ := apply_bind_eq_ok.mp h
      obtain ⟨_, c₃, hbody, h⟩ := apply_bind_eq_ok.mp h
      obtain ⟨_, c₄, hloop, h⟩ := apply_bind_eq_ok.mp h
      obtain ⟨_, c₅, hpatch, hpop'⟩ := apply_bind_eq_ok.mp h
      refine Balanced.settle (.bind (emitJump_balanced hjump) <| .bind (emit_settled _ s hpop) <|
        .bind (statement_settled body hbody) <| .bind (emitLoop_settled _ s hloop) <|
        .bind (patchJump_balanced hpatch) (emit_settled _ s hpop')) ?_
      simp
  | function name parameters body s => exact emit_settled _ s
  | returns value s => exact emit_settled _ s

theorem alternative_settled (s : Option Stmt) : Settled (alternative s) := by
  cases s with
  | none => exact settled_pure _
  | some s => exact statement_settled s

theorem statements_settled (body : List Stmt) : Settled (statements body) := by
  cases body with
  | nil => exact settled_pure _
  | cons s rest => exact (statement_settled s).bind fun _ => statements_settled rest

end

/-! ## Where a statement is compiled -/

variable {σ : Scope}

/-- A statement that stands as a branch leaves the scope as it is. -/
theorem branch_within {s : Stmt} (hs : s.wellFormed = true) (hvar : s.isVar = false) (hc : c.Within σ)
    (h : statement s c = .ok () c') : c'.Within σ := by
  have hwithin := (statement_emits s hc h).2
  rwa [Stmt.declared_of_wellFormed s hs hvar, Scope.extend_nil] at hwithin

/-- When the compiler comes to a statement it stands within a scope, all of whose variables are initialized. -/
theorem Meets.within {body : List Stmt} {t : Stmt} {d : Compiler} (h : Meets body c t d)
    (hbody : Stmt.wellFormedAll body = true) (hc : c.Within σ) : t.wellFormed = true ∧ ∃ τ, d.Within τ := by
  induction h generalizing σ with
  | first s rest c =>
      rw [Stmt.wellFormedAll, Bool.and_eq_true] at hbody
      exact ⟨hbody.1, σ, hc⟩
  | @later s t rest c c₁ d hs _ ih =>
      rw [Stmt.wellFormedAll, Bool.and_eq_true] at hbody
      exact ih hbody.2 (statement_emits s hc hs).2
  | block hopen _ ih =>
      rw [Stmt.wellFormedAll, Stmt.wellFormed, Bool.and_eq_true] at hbody
      cases hopen
      exact ih hbody.1 hc.openScope
  | thenBranch hcondition hjump hpop _ ih =>
      simp only [Stmt.wellFormedAll, Stmt.wellFormed, Bool.and_eq_true, Bool.not_eq_true', Bool.and_true] at hbody ih
      exact ih hbody.1.1.2 (condition_spec hc hcondition hjump hpop).1
  | elseBranch hcondition hjump hpop hthen hjump' hpatch hpop' _ ih =>
      simp only [Stmt.wellFormedAll, Stmt.wellFormed, Stmt.wellFormedElse, Bool.and_eq_true, Bool.not_eq_true',
        Bool.and_true] at hbody ih
      have hbranch := branch_within hbody.1.1.2 hbody.1.1.1 (condition_spec hc hcondition hjump hpop).1 hthen
      have hjumped := hbranch.of_writes (emitJump_writes 0 isForwardJump_jump hjump').1
      exact ih hbody.1.2.2 ((hjumped.of_patchJump hpatch).of_writes (emit_writes (i := .pop) 0 rfl hpop'))
  | loopBody hcondition hjump hpop _ ih =>
      simp only [Stmt.wellFormedAll, Stmt.wellFormed, Bool.and_eq_true, Bool.not_eq_true', Bool.and_true] at hbody ih
      exact ih hbody.1.2 (condition_spec hc hcondition hjump hpop).1

end Compilation

theorem ConstantPool.Sound.bytes_isPrefix {p q : ConstantPool} (hp : p.Sound) (hq : q.Sound)
    (h : p.constants <+: q.constants) : p.bytes.toList <+: q.bytes.toList := by
  obtain ⟨more, hmore⟩ := h
  rw [hp.bytes, hq.bytes, ← hmore, Constant.encodeAll_append]
  exact List.prefix_append _ _

/-- What was compiled before stands before what is compiled now. -/
theorem Emits.isPrefix {c c' : Compiler} {a : Assembly} (hc : c.pool.Sound) (h : Emits c a c') :
    c.chunk.code.toList <+: c'.chunk.code.toList ∧ c.pool.bytes.toList <+: c'.pool.bytes.toList := by
  constructor
  · rw [h.code]
    exact List.prefix_append _ _
  · exact hc.bytes_isPrefix (h.sound hc) h.grows

def Stmt.ownLocals (depth : Nat) : Stmt → List Local
  | .var name _ _ => if 0 < depth then [{ name, depth := some depth }] else []
  | _ => []

theorem Scope.locals_extend_declared {σ : Scope} {s : Stmt} (hs : s.wellFormed = true) :
    (σ.extend s.declared).locals = s.ownLocals σ.length ++ σ.locals := by
  by_cases hvar : s.isVar = true
  · cases s with
    | var name value span =>
        cases σ with
        | nil => rfl
        | cons block outer => rfl
    | _ => cases hvar
  · rw [Stmt.declared_of_wellFormed s hs (by simpa using hvar), extend_nil]
    cases s with
    | var name value span => exact absurd rfl hvar
    | _ => rfl

namespace Compilation

/-- What compiling a statement may change. -/
structure Appends (s : Stmt) (c c' : Compiler) : Prop where
  code : c.chunk.code.toList <+: c'.chunk.code.toList
  spans : c.chunk.spans.entries.toList <+: c'.chunk.spans.entries.toList
  pool : c.pool.bytes.toList <+: c'.pool.bytes.toList
  /-- The operations lead from the one chunk to the other, and each forward jump among them is patched. -/
  patched : ∃ es, Performs (statement s) c es () c' ∧ (Draft.editAll { chunk := c.chunk } es).chunk = c'.chunk ∧
    ∀ j ∈ (Draft.editAll { chunk := c.chunk } es).forward, j.target.isSome = true
  depth : c'.depth = c.depth
  initialized : ∀ v ∈ c'.locals, v.depth.isSome = true
  locals : c'.locals = s.ownLocals c.depth ++ c.locals

variable {c c' : Compiler} {σ : Scope} {s : Stmt}

theorem statement_appends (hs : s.wellFormed = true) (hc : c.Within σ) (h : statement s c = .ok () c') :
    Appends s c c' := by
  obtain ⟨hemits, hwithin⟩ := statement_emits s hc h
  obtain ⟨es, hperforms, hbalances⟩ := statement_settled s h
  obtain ⟨hcode, hpool⟩ := hemits.isPrefix hc.sound
  refine ⟨hcode, ?_, hpool, ⟨es, hperforms, hperforms.chunk_eq rfl, fun j hj => ?_⟩, ?_,
    fun v hv => ?_, ?_⟩
  · rw [hemits.spans]
    exact List.prefix_append _ _
  · rw [Option.isSome_iff_ne_none]
    intro hopen
    rcases hbalances { chunk := c.chunk } rfl j hj hopen with ⟨hmem, -⟩ | hmem
    · cases hmem
    · exact hmem
  · rw [hwithin.depth, Scope.length_extend, hc.depth]
  · rw [hwithin.locals] at hv
    obtain ⟨depth, hdepth, -⟩ := Scope.depth_of_mem_locals hv
    rw [hdepth]
    rfl
  · rw [hwithin.locals, Scope.locals_extend_declared hs, hc.locals, hc.depth]

end Compilation

/-- **Compiling only appends.** Wherever a statement is compiled, what was there before stays; so an error is not mended
by what follows it, and the code of a program begins with that of its first statements. -/
theorem compile_onlyAppends :
    (∀ p : Program, p.WellFormed → ∀ s c, Compilation.Meets p {} s c →
      ∀ c', Compilation.statement s c = .ok () c' → Compilation.Appends s c c') ∧
    (∀ (p q : Program) e, compile p = .error e → compile (p ++ q) = .error e) ∧
    (∀ (p q : Program) out, compile (p ++ q) = .ok out → ∃ first, compile p = .ok first ∧
      first.pool.bytes.toList <+: out.pool.bytes.toList ∧ first.chunk.code.toList <+: out.chunk.code.toList) := by
  refine ⟨?_, ?_, ?_⟩
  · intro p hp s c hmeets c' h
    obtain ⟨hs, σ, hwithin⟩ := hmeets.within hp Compiler.within_empty
    exact Compilation.statement_appends hs hwithin h
  · intro p q e h
    unfold compile at h ⊢
    rw [Compilation.statements_append]
    cases hp : Compilation.statements p {} with
    | ok u c =>
        rw [hp] at h
        cases h
    | error e' c =>
        rw [apply_bind_of_error hp]
        rwa [hp] at h
  · intro p q out h
    obtain ⟨c, hc, rfl⟩ := compile_eq_ok.mp h
    rw [Compilation.statements_append] at hc
    obtain ⟨_, c₁, hp, hq⟩ := apply_bind_eq_ok.mp hc
    obtain ⟨-, hwithin⟩ := Compilation.statements_emit p Compiler.within_empty hp
    obtain ⟨hemits, -⟩ := Compilation.statements_emit q hwithin hq
    obtain ⟨hcode, hpool⟩ := hemits.isPrefix hwithin.sound
    exact ⟨_, compile_eq_ok.mpr ⟨c₁, hp, rfl⟩, hpool, hcode⟩

def Program.loopInBlock : Program :=
  [.block [.var "a" none {}, .whileLoop (.var "a" {}) (.block [.var "b" none {}] {}) {}] {}]

def Program.ownInitializer : Program :=
  [.block [.var "a" (some (.var "a" {})) {}] {}]

theorem compile_onlyAppends_loopInBlock :
    (∃ c c', Compilation.Meets Program.loopInBlock {} (.var "b" none {}) c ∧
      Compilation.statement (.var "b" none {}) c = .ok () c' ∧ Compilation.Appends (.var "b" none {}) c c' ∧
      c'.locals = { name := "b", depth := some 2 } :: c.locals) ∧
    (∃ e, compile Program.ownInitializer = .error e ∧
      compile (Program.ownInitializer ++ Program.loopInBlock) = .error e) ∧
    (∃ first out, compile Program.loopInBlock = .ok first ∧
      compile (Program.loopInBlock ++ Program.loopInBlock) = .ok out ∧
      first.pool.bytes.toList <+: out.pool.bytes.toList ∧ first.chunk.code.toList <+: out.chunk.code.toList) := by
  obtain ⟨happends, herror, hisPrefix⟩ := compile_onlyAppends
  refine ⟨?_, ⟨_, rfl, herror _ _ _ rfl⟩, ?_⟩
  · have hmeets : ∃ c, Compilation.Meets Program.loopInBlock {} (.var "b" none {}) c ∧ c.depth = 2 ∧
        ∃ c', Compilation.statement (.var "b" none {}) c = .ok () c' :=
      ⟨_, .block rfl <| .later rfl <| .loopBody rfl rfl rfl <| .block rfl <| .first _ _ _, rfl, _, rfl⟩
    obtain ⟨c, hmeets, hdepth, c', hrun⟩ := hmeets
    have hown := happends Program.loopInBlock (by decide) _ c hmeets c' hrun
    refine ⟨c, c', hmeets, hrun, hown, ?_⟩
    have hlocals := hown.locals
    rwa [hdepth] at hlocals
  · have hok : (compile (Program.loopInBlock ++ Program.loopInBlock)).isOk = true := by decide +kernel
    cases hout : compile (Program.loopInBlock ++ Program.loopInBlock) with
    | error e =>
        rw [hout] at hok
        cases hok
    | ok out =>
        obtain ⟨first, hfirst, hpool, hcode⟩ := hisPrefix _ _ out hout
        exact ⟨first, out, hfirst, rfl, hpool, hcode⟩

end Lox
