import Lox.Proofs.Heights

/-!
# Statement boundaries

* `Compilation.Meets` : the statements that the compiler comes to, each with the state it is compiled from;
* `Compilation.Meets.boundaries` : before and behind each of them there are on the stack as many values as the
  compiler knows local variables.
-/

namespace Lox

namespace Compilation

/-- While compiling a list of statements from a state, the compiler comes to the statement `t` and is then in
the state `d`. -/
inductive Meets : List Stmt → Compiler → Stmt → Compiler → Prop where
  | first (s : Stmt) (rest : List Stmt) (c : Compiler) : Meets (s :: rest) c s c
  | later {s t : Stmt} {rest : List Stmt} {c c₁ d : Compiler} (hs : statement s c = .ok () c₁)
      (h : Meets rest c₁ t d) : Meets (s :: rest) c t d
  | block {body rest : List Stmt} {span : Span} {t : Stmt} {c c₁ d : Compiler} (hopen : openScope c = .ok () c₁)
      (h : Meets body c₁ t d) : Meets (.block body span :: rest) c t d
  | thenBranch {condition : Expr} {s t : Stmt} {alternative : Option Stmt} {rest : List Stmt} {span : Span}
      {c c₁ c₂ c₃ d : Compiler} {pastThen : Nat} (hcondition : expression condition c = .ok () c₁)
      (hjump : emitJump .jumpIfFalse span c₁ = .ok pastThen c₂) (hpop : emit .pop span c₂ = .ok () c₃)
      (h : Meets [s] c₃ t d) : Meets (.ifElse condition s alternative span :: rest) c t d
  | elseBranch {condition : Expr} {s s' t : Stmt} {rest : List Stmt} {span : Span}
      {c c₁ c₂ c₃ c₄ c₅ c₆ c₇ d : Compiler} {pastThen pastElse : Nat}
      (hcondition : expression condition c = .ok () c₁)
      (hjump : emitJump .jumpIfFalse span c₁ = .ok pastThen c₂) (hpop : emit .pop span c₂ = .ok () c₃)
      (hthen : statement s c₃ = .ok () c₄) (hjump' : emitJump .jump span c₄ = .ok pastElse c₅)
      (hpatch : patchJump pastThen c₅ = .ok () c₆) (hpop' : emit .pop span c₆ = .ok () c₇)
      (h : Meets [s'] c₇ t d) : Meets (.ifElse condition s (some s') span :: rest) c t d
  | loopBody {condition : Expr} {s t : Stmt} {rest : List Stmt} {span : Span} {c c₁ c₂ c₃ d : Compiler} {past : Nat}
      (hcondition : expression condition c = .ok () c₁) (hjump : emitJump .jumpIfFalse span c₁ = .ok past c₂)
      (hpop : emit .pop span c₂ = .ok () c₃) (h : Meets [s] c₃ t d) :
      Meets (.whileLoop condition s span :: rest) c t d

variable {c c₁ c₂ c₃ c' : Compiler} {σ : Scope} {span : Span} {H : Nat → Option Nat} {start : Nat}

/-- Where the compiler is when it has compiled a condition with the jump that depends on it. -/
theorem condition_spec {condition : Expr} {past : Nat} (hc : c.Within σ)
    (hcondition : expression condition c = .ok () c₁) (hjump : emitJump .jumpIfFalse span c₁ = .ok past c₂)
    (hpop : emit .pop span c₂ = .ok () c₃) :
    c₃.Within σ ∧ c₃.chunk.offset = c.chunk.offset + (condition.assembly σ σ.height).size + 3 + 1 := by
  obtain ⟨hw, -⟩ := test_writes hc.sees hcondition hjump hpop
  refine ⟨hc.of_writes hw, ?_⟩
  simp [hw.offset_eq, Nat.add_assoc]

/-- The statements of a list are compiled from `c` to `c'` within the scope `σ`, and the heights of the stack are
known where their code stands. -/
structure Placed (H : Nat → Option Nat) (start : Nat) (σ : Scope) (body : List Stmt) (c c' : Compiler) : Prop where
  within : c.Within σ
  wellFormed : Stmt.wellFormedAll body = true
  compiled : statements body c = .ok () c'
  marked : Assembly.Marked H (start + c.chunk.offset) (Stmt.assemblyAll σ body)
  behind : H (start + c.chunk.offset + (Stmt.assemblyAll σ body).size) =
    some (σ.extend (Stmt.declaredAll body)).height

namespace Placed

theorem single {s : Stmt} (hc : c.Within σ) (hw : s.wellFormed = true) (hs : statement s c = .ok () c')
    (hm : Assembly.Marked H (start + c.chunk.offset) (s.assembly σ))
    (hend : H (start + c.chunk.offset + (s.assembly σ).size) = some (σ.extend s.declared).height) :
    Placed H start σ [s] c c' where
  within := hc
  wellFormed := by simp [Stmt.wellFormedAll, hw]
  compiled := by
    rw [statements, apply_bind_of_ok hs]
    rfl
  marked := by simpa [Stmt.assemblyAll] using hm
  behind := by simpa [Stmt.assemblyAll, Stmt.declaredAll] using hend

/-- The first of several statements, and the others behind it. -/
theorem cons {s : Stmt} {rest : List Stmt} (h : Placed H start σ (s :: rest) c c') :
    ∃ c₁, Placed H start σ [s] c c₁ ∧ Placed H start (σ.extend s.declared) rest c₁ c' := by
  obtain ⟨hc, hw, hbody, hm, hend⟩ := h
  obtain ⟨⟨⟩, c₁, hs, hrest⟩ := apply_bind_eq_ok.mp hbody
  obtain ⟨he, hc₁⟩ := statement_emits s hc hs
  rw [Stmt.wellFormedAll, Bool.and_eq_true] at hw
  rw [Stmt.assemblyAll, Assembly.marked_append] at hm
  rw [Stmt.assemblyAll, Assembly.size_append, ← Nat.add_assoc, Stmt.declaredAll, Scope.extend_append] at hend
  have hoffset : start + c₁.chunk.offset = start + c.chunk.offset + (s.assembly σ).size := by
    rw [he.offset_eq, Nat.add_assoc]
  have hplaced : Placed H start (σ.extend s.declared) rest c₁ c' :=
    ⟨hc₁, hw.2, hrest, hoffset ▸ hm.2, hoffset ▸ hend⟩
  exact ⟨c₁, single hc hw.1 hs hm.1 (Stmt.height_startAll rest hm.2 hend), hplaced⟩

/-- What is known of a single statement. -/
theorem of_single {s : Stmt} (h : Placed H start σ [s] c c') :
    s.wellFormed = true ∧ statement s c = .ok () c' ∧
      Assembly.Marked H (start + c.chunk.offset) (s.assembly σ) ∧
      H (start + c.chunk.offset + (s.assembly σ).size) = some (σ.extend s.declared).height := by
  obtain ⟨hc, hw, hbody, hm, hend⟩ := h
  obtain ⟨⟨⟩, c₁, hs, hrest⟩ := apply_bind_eq_ok.mp hbody
  obtain rfl := (EStateM.Result.ok.inj hrest).2
  simp only [Stmt.wellFormedAll, Bool.and_true] at hw
  simp only [Stmt.assemblyAll, Stmt.declaredAll, List.append_nil] at hm hend
  exact ⟨hw, hs, hm, hend⟩

/-- The heights on both sides of a statement. -/
theorem boundaries {s : Stmt} (h : Placed H start σ [s] c c') :
    H (start + c.chunk.offset) = some c.locals.length ∧ H (start + c'.chunk.offset) = some c'.locals.length := by
  obtain ⟨-, hs, hm, hend⟩ := h.of_single
  obtain ⟨he, hc'⟩ := statement_emits s h.within hs
  constructor
  · rw [h.within.locals, Scope.length_locals]
    exact s.height_start hm hend
  · rw [hc'.locals, Scope.length_locals, he.offset_eq, ← Nat.add_assoc]
    exact hend

theorem block {body : List Stmt} (h : Placed H start σ [.block body span] c c') (hopen : openScope c = .ok () c₁) :
    ∃ c₂, Placed H start ([] :: σ) body c₁ c₂ := by
  obtain ⟨hw, hs, hm, hend⟩ := h.of_single
  rw [statement, apply_bind_of_ok hopen] at hs
  obtain ⟨⟨⟩, c₂, hbody, -⟩ := apply_bind_eq_ok.mp hs
  obtain rfl := (EStateM.Result.ok.inj hopen).2
  rw [Stmt.wellFormed] at hw
  simp only [Stmt.assembly, Assembly.marked_append, Stmt.declared, Scope.extend_nil, Assembly.size_append,
    ← Nat.add_assoc] at hm hend
  have hbehind := Assembly.height_pops hm.2 hend
  rw [← Scope.height_extend_block] at hbehind
  exact ⟨c₂, h.within.openScope, hw, hbody, hm.1, hbehind⟩

theorem thenBranch {condition : Expr} {s : Stmt} {alternative : Option Stmt} {pastThen : Nat}
    (h : Placed H start σ [.ifElse condition s alternative span] c c')
    (hcondition : expression condition c = .ok () c₁) (hjump : emitJump .jumpIfFalse span c₁ = .ok pastThen c₂)
    (hpop : emit .pop span c₂ = .ok () c₃) : ∃ c₄, Placed H start σ [s] c₃ c₄ := by
  obtain ⟨hw, hs, hm, -⟩ := h.of_single
  rw [statement, apply_bind_of_ok hcondition, apply_bind_of_ok hjump, apply_bind_of_ok hpop] at hs
  obtain ⟨⟨⟩, c₄, hthen, -⟩ := apply_bind_eq_ok.mp hs
  obtain ⟨hc₃, hoffset⟩ := condition_spec h.within hcondition hjump hpop
  simp only [Stmt.wellFormed, Bool.and_eq_true, Bool.not_eq_true'] at hw
  simp only [Stmt.assembly, Assembly.marked_append, Assembly.marked_cons, Assembly.size_append, Assembly.size_cons,
    Assembly.size_nil, Nat.add_zero, Instr.size_pop, Instr.size_jumpIfFalse, ← Nat.add_assoc] at hm
  obtain ⟨⟨⟨-, hmthen⟩, hskip, -⟩, -⟩ := hm
  rw [Nat.add_assoc start, Nat.add_assoc start, Nat.add_assoc start, ← hoffset] at hmthen hskip
  refine ⟨c₄, single hc₃ hw.1.2 hthen hmthen ?_⟩
  rwa [Stmt.declared_of_wellFormed s hw.1.2 hw.1.1, Scope.extend_nil]

theorem elseBranch {condition : Expr} {s s' : Stmt} {c₄ c₅ c₆ c₇ : Compiler} {pastThen pastElse : Nat}
    (h : Placed H start σ [.ifElse condition s (some s') span] c c')
    (hcondition : expression condition c = .ok () c₁) (hjump : emitJump .jumpIfFalse span c₁ = .ok pastThen c₂)
    (hpop : emit .pop span c₂ = .ok () c₃) (hthen : statement s c₃ = .ok () c₄)
    (hjump' : emitJump .jump span c₄ = .ok pastElse c₅) (hpatch : patchJump pastThen c₅ = .ok () c₆)
    (hpop' : emit .pop span c₆ = .ok () c₇) : ∃ c₈, Placed H start σ [s'] c₇ c₈ := by
  obtain ⟨hw, hs, hm, hend⟩ := h.of_single
  rw [statement, apply_bind_of_ok hcondition, apply_bind_of_ok hjump, apply_bind_of_ok hpop, apply_bind_of_ok hthen,
    apply_bind_of_ok hjump', apply_bind_of_ok hpatch, apply_bind_of_ok hpop'] at hs
  obtain ⟨⟨⟩, c₈, helse, -⟩ := apply_bind_eq_ok.mp hs
  rw [alternative] at helse
  simp only [Stmt.wellFormed, Stmt.wellFormedElse, Bool.and_eq_true, Bool.not_eq_true'] at hw
  obtain ⟨⟨htv, htw⟩, hev, hew⟩ := hw
  have htd := Stmt.declared_of_wellFormed s htw htv
  have hed := Stmt.declared_of_wellFormed s' hew hev
  obtain ⟨hc₃, hoffset₃⟩ := condition_spec h.within hcondition hjump hpop
  obtain ⟨e₄, hc₄⟩ := statement_emits s hc₃ hthen
  obtain ⟨w₅, -⟩ := emitJump_writes σ.height isForwardJump_jump hjump'
  have w₇ := emit_writes (i := .pop) (σ.height + 1) rfl hpop'
  rw [htd, Scope.extend_nil] at hc₄
  have hc₆ := (hc₄.of_writes w₅).of_patchJump hpatch
  have hoffset : start + c₇.chunk.offset = start + c.chunk.offset + (condition.assembly σ σ.height).size + 3 + 1 +
      (s.assembly σ).size + 3 + 1 := by
    simp only [w₇.offset_eq, patchJump_offset hpatch, w₅.offset_eq, e₄.offset_eq, hoffset₃, Assembly.size_cons,
      Assembly.size_nil, Instr.size_pop, Instr.size_jump]
    omega
  simp only [Stmt.assembly, Stmt.assemblyElse, Stmt.declared, Stmt.declaredElse, htd, hed, List.append_nil,
    Scope.extend_nil, Assembly.marked_append, Assembly.size_append, Assembly.size_cons, Assembly.size_nil,
    Nat.add_zero, Instr.size_pop, Instr.size_jump, Instr.size_jumpIfFalse, ← Nat.add_assoc, ← hoffset] at hm hend
  refine ⟨c₈, single (hc₆.of_writes w₇) hew helse hm.2 ?_⟩
  rwa [hed, Scope.extend_nil]

theorem loopBody {condition : Expr} {s : Stmt} {past : Nat} (h : Placed H start σ [.whileLoop condition s span] c c')
    (hcondition : expression condition c = .ok () c₁) (hjump : emitJump .jumpIfFalse span c₁ = .ok past c₂)
    (hpop : emit .pop span c₂ = .ok () c₃) : ∃ c₄, Placed H start σ [s] c₃ c₄ := by
  obtain ⟨hw, hs, hm, -⟩ := h.of_single
  rw [statement, apply_bind_of_ok (apply_get c), apply_bind_of_ok hcondition, apply_bind_of_ok hjump,
    apply_bind_of_ok hpop] at hs
  obtain ⟨⟨⟩, c₄, hbody, -⟩ := apply_bind_eq_ok.mp hs
  obtain ⟨hc₃, hoffset⟩ := condition_spec h.within hcondition hjump hpop
  simp only [Stmt.wellFormed, Bool.and_eq_true, Bool.not_eq_true'] at hw
  simp only [Stmt.assembly, Assembly.marked_append, Assembly.marked_cons, Assembly.size_append, Assembly.size_cons,
    Assembly.size_nil, Nat.add_zero, Instr.size_pop, Instr.size_jumpIfFalse, ← Nat.add_assoc] at hm
  obtain ⟨⟨-, hmbody⟩, hloop, -⟩ := hm
  rw [Nat.add_assoc start, Nat.add_assoc start, Nat.add_assoc start, ← hoffset] at hmbody hloop
  refine ⟨c₄, single hc₃ hw.2 hbody hmbody ?_⟩
  rwa [Stmt.declared_of_wellFormed s hw.2 hw.1, Scope.extend_nil]

end Placed

/-- **Before and behind every statement there are as many values on the stack as local variables in scope.** -/
theorem Meets.boundaries {body : List Stmt} {t : Stmt} {d : Compiler} (h : Meets body c t d)
    (hplaced : Placed H start σ body c c') :
    ∃ d', statement t d = .ok () d' ∧ H (start + d.chunk.offset) = some d.locals.length ∧
      H (start + d'.chunk.offset) = some d'.locals.length := by
  induction h generalizing σ c' with
  | first s rest c =>
      obtain ⟨c₁, hfirst, -⟩ := hplaced.cons
      exact ⟨c₁, hfirst.of_single.2.1, hfirst.boundaries⟩
  | later hs h ih =>
      obtain ⟨c₁, hfirst, hrest⟩ := hplaced.cons
      obtain rfl := (EStateM.Result.ok.inj (hs.symm.trans hfirst.of_single.2.1)).2
      exact ih hrest
  | block hopen h ih =>
      obtain ⟨c₁, hfirst, -⟩ := hplaced.cons
      obtain ⟨c₂, hbody⟩ := hfirst.block hopen
      exact ih hbody
  | thenBranch hcondition hjump hpop h ih =>
      obtain ⟨c₁, hfirst, -⟩ := hplaced.cons
      obtain ⟨c₂, hthen⟩ := hfirst.thenBranch hcondition hjump hpop
      exact ih hthen
  | elseBranch hcondition hjump hpop hthen hjump' hpatch hpop' h ih =>
      obtain ⟨c₁, hfirst, -⟩ := hplaced.cons
      obtain ⟨c₂, helse⟩ := hfirst.elseBranch hcondition hjump hpop hthen hjump' hpatch hpop'
      exact ih helse
  | loopBody hcondition hjump hpop h ih =>
      obtain ⟨c₁, hfirst, -⟩ := hplaced.cons
      obtain ⟨c₂, hbody⟩ := hfirst.loopBody hcondition hjump hpop
      exact ih hbody

end Compilation

/-- The statements of a compiled program stand where the compiler has put them. -/
theorem Program.placed {p : Program} (hp : p.WellFormed) {out : Compiled} (hc : compile p = .ok out) :
    ∃ c, Compilation.Placed (p.heightAt? out) out.start [] p {} c := by
  unfold compile at hc
  split at hc
  · rename_i c hcompiled
    refine ⟨c, Compiler.within_empty, hp, hcompiled, ?_, ?_⟩
    · exact Assembly.marked_heightAt? [] p.assembly
    · exact Assembly.heightAt?_end p.assembly
  · cases hc

end Lox
