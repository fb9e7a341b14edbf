import Mathlib.Data.List.Dedup
import Lox.Proofs.Limits
import Lox.Proofs.Recompilation

/-!
# Which programs can be compiled

A program is compiled just if it keeps within its limits.

* `Stmt.Scoped` : what the local variables of a statement have to be like;
* `Compilation.statement_scoped` : they are, where the statement is compiled;
* `Compilation.statement_compiles` : a statement is compiled if its variables are as they have to be and all its
  instructions can be written with constants that there is room for;
* `compile_succeeds_iff` : both together, for programs.
-/

namespace Lox

/-! ## Variables in scope -/

/-- A block declares no name twice, and a local variable is not used where it is initialized. -/
def Stmt.Scoped (σ : Scope) : Stmt → Prop
  | .var name value _ => σ ≠ [] → ∀ e ∈ value, ∀ e' ∈ e.parts, e'.named? ≠ some name
  | .block body _ => (Stmt.declaredAll body).Nodup
  | _ => True

/-- The statement is scoped, and with what it declares there are at most 256 variables in scope. -/
structure Site.Scoped (x : Site Stmt) : Prop where
  names : x.node.Scoped x.scope
  height_le : (x.scope.extend x.node.declared).height ≤ 256

namespace Scope

def innermost (σ : Scope) : List String :=
  σ.headD []

@[simp] theorem innermost_cons (names : List String) (σ : Scope) : innermost (names :: σ) = names := rfl

theorem innermost_extend_suffix (σ : Scope) (names : List String) : σ.innermost <:+ (σ.extend names).innermost := by
  cases σ with
  | nil => exact List.suffix_refl _
  | cons block outer => exact List.suffix_append names block

theorem height_le_extend (σ : Scope) (names : List String) : σ.height ≤ (σ.extend names).height := by
  cases σ with
  | nil => exact Nat.le_refl _
  | cons block outer =>
      simp only [extend, height_cons, List.length_append]
      omega

/-- The variables of the innermost block are those declared at the present depth. -/
theorem takeWhile_not_isOuter (block : List String) (outer : Scope) :
    ((locals (block :: outer)).takeWhile (!·.isOuter (block :: outer).length)).map (·.name) = block := by
  have hown : ∀ v ∈ block.map (fun n => ({ name := n, depth := some (outer.length + 1) } : Local)),
      (!v.isOuter (block :: outer).length) = true := by
    intro v hv
    obtain ⟨n, -, rfl⟩ := List.mem_map.mp hv
    simp [Local.isOuter]
  have hrest : outer.locals.takeWhile (!·.isOuter (block :: outer).length) = [] := by
    cases hl : outer.locals with
    | nil => rfl
    | cons v vs =>
        obtain ⟨d, hd, hle⟩ := depth_of_mem_locals (σ := outer) (v := v) (by rw [hl]; exact List.mem_cons_self)
        refine List.takeWhile_cons_of_neg ?_
        simp only [Local.isOuter, hd, Option.any_some, List.length_cons]
        simp
        omega
  rw [locals, List.takeWhile_append_of_pos hown, hrest, List.append_nil, List.map_map]
  simp [Function.comp_def]

end Scope

theorem Local.mem_of_lookup {name : String} {vs : List Local} {slot : Nat} {v : Local}
    (h : Local.lookup name vs = some (slot, v)) : v ∈ vs := by
  induction vs with
  | nil => cases h
  | cons w vs ih =>
      rw [lookup] at h
      split_ifs at h
      · cases h
        exact List.mem_cons_self
      · exact List.mem_cons_of_mem w (ih h)

namespace Compilation

variable {c c' : Compiler} {span : Span} {σ : Scope}

/-- When a local variable can be declared. -/
theorem declare_apply {block : List String} {outer : Scope} (span : Span) (hc : c.Within (block :: outer))
    (name : String) :
    declare name span c =
      if name ∈ block then .error (.duplicateLocal name span) c
      else if 256 ≤ Scope.height (block :: outer) then .error (.tooManyLocals span) c
      else .ok () { c with locals := { name } :: c.locals } := by
  have hany : (c.locals.takeWhile (!·.isOuter c.depth)).any (·.name = name) = decide (name ∈ block) := by
    have hnames := Scope.takeWhile_not_isOuter block outer
    rw [← hc.locals, ← hc.depth] at hnames
    conv_rhs => rw [← hnames]
    simp [List.any_eq]
  unfold declare maxLocals
  rw [apply_bind_of_ok (apply_get c), hany, hc.locals, Scope.length_locals]
  by_cases hmem : name ∈ block
  · rw [if_pos (decide_eq_true hmem), if_pos hmem]
    rfl
  · rw [if_neg (by simp [hmem]), if_neg hmem]
    by_cases hfull : 256 ≤ Scope.height (block :: outer)
    · rw [if_pos hfull, if_pos hfull]
      rfl
    · rw [if_neg hfull, if_neg hfull]
      rfl

theorem slot?_of_uninitialized {name : String} {older : List Local} (hl : c.locals = { name } :: older) :
    slot? name span c = .error (.selfReference name span) c := by
  unfold slot?
  rw [apply_bind_of_ok (apply_get c), hl, Local.lookup, if_pos rfl]
  rfl

/-- A name can be looked up unless it is that of the variable whose initializer is being compiled. -/
theorem slot?_apply {name : String} (hs : c.Sees σ) (hn : ∀ n, c.locals = { name := n } :: σ.locals → n ≠ name) :
    slot? name span c = .ok ((σ.slot? name).map UInt8.ofNat) c := by
  have hslot : (Local.lookup name σ.locals).map (·.1) = σ.slot? name := by
    rw [Local.lookup_eq, σ.map_name_locals]
    rfl
  have hlook : Local.lookup name c.locals = Local.lookup name σ.locals := by
    rcases hs.locals with hl | ⟨n, hl⟩
    · rw [hl]
    · rw [hl, Local.lookup, if_neg (hn n hl)]
  have hready : ∀ slot v, Local.lookup name σ.locals = some (slot, v) → v.depth.isNone = false := by
    intro slot v hfound
    obtain ⟨d, hd, -⟩ := Scope.depth_of_mem_locals (Local.mem_of_lookup hfound)
    rw [hd]
    rfl
  unfold slot?
  rw [apply_bind_of_ok (apply_get c), hlook, ← hslot]
  cases hfound : Local.lookup name σ.locals with
  | none => rfl
  | some found =>
      obtain ⟨slot, v⟩ := found
      simp only [hready slot v hfound]
      rfl

/-- Where an initializer is compiled, it does not use the variable it is for. -/
theorem expression_avoids {name : String} (e : Expr) (hl : c.locals = { name } :: σ.locals) (hs : c.Sees σ)
    (he : expression e c = .ok () c') : ∀ e' ∈ e.parts, e'.named? ≠ some name := by
  have haccess : ∀ {d d' : Compiler} {toLocal toGlobal : Opcode} {n : String} {s : Span},
      d.locals = { name } :: σ.locals → access toLocal toGlobal n s d = .ok () d' → some n ≠ some name := by
    intro d d' toLocal toGlobal n s hd ha heq
    obtain rfl := Option.some.inj heq
    unfold access at ha
    rw [apply_bind_of_error (slot?_of_uninitialized hd)] at ha
    cases ha
  induction e generalizing c c' with
  | literal v s => simp [Expr.parts, Expr.named?]
  | var n s => simpa [Expr.parts, Expr.named?] using haccess hl he
  | assign n value s ih =>
      obtain ⟨_, c₁, hvalue, ha⟩ := apply_bind_eq_ok.mp he
      have hw := expression_writes value 0 hs hvalue
      have hself : (Expr.assign n value s).named? ≠ some name := haccess (hw.locals.trans hl) ha
      simp only [Expr.parts, List.forall_mem_cons]
      exact ⟨hself, ih hl hs hvalue⟩
  | unary op operand s ih =>
      obtain ⟨_, c₁, hoperand, -⟩ := apply_bind_eq_ok.mp he
      simp only [Expr.parts, List.forall_mem_cons]
      exact ⟨by simp [Expr.named?], ih hl hs hoperand⟩
  | binary op left right s ihl ihr =>
      obtain ⟨_, c₁, hleft, he⟩ := apply_bind_eq_ok.mp he
      obtain ⟨_, c₂, hright, -⟩ := apply_bind_eq_ok.mp he
      have hw := expression_writes left 0 hs hleft
      simp only [Expr.parts, List.forall_mem_cons, List.forall_mem_append]
      exact ⟨by simp [Expr.named?], ihl hl hs hleft, ihr (hw.locals.trans hl) (hs.of_writes hw) hright⟩
  | logical op left right s ihl ihr =>
      obtain ⟨_, c₁, hleft, he⟩ := apply_bind_eq_ok.mp he
      obtain ⟨past, c₂, hjump, he⟩ := apply_bind_eq_ok.mp he
      obtain ⟨_, c₃, hpop, he⟩ := apply_bind_eq_ok.mp he
      obtain ⟨_, c₄, hright, -⟩ := apply_bind_eq_ok.mp he
      have hw := expression_writes left 0 hs hleft
      have hj := (emitJump_writes 0 (isForwardJump_shortCircuit op) hjump).1
      have hp := emit_writes (i := .pop) 0 rfl hpop
      have hlocals : c₃.locals = { name } :: σ.locals := by rw [hp.locals, hj.locals, hw.locals, hl]
      simp only [Expr.parts, List.forall_mem_cons, List.forall_mem_append]
      exact ⟨by simp [Expr.named?], ihl hl hs hleft, ihr hlocals (((hs.of_writes hw).of_writes hj).of_writes hp) hright⟩
  | grouping inner s ih =>
      simp only [Expr.parts, List.forall_mem_cons]
      exact ⟨by simp [Expr.named?], ih hl hs he⟩
  | call callee arguments s => simp [Expr.parts, Expr.named?]

theorem variableDeclaration_of_global {name : String} {value : Option Expr} (hc : c.Within []) :
    variableDeclaration name value span c =
      (initial span value >>= fun _ => constant (.string name) span >>= fun i => emitByte .defineGlobal i span) c := by
  unfold variableDeclaration
  simp only [apply_bind_of_ok (apply_get c), hc.depth, List.length_nil, Nat.lt_irrefl, if_false]

theorem variableDeclaration_of_local {name : String} {value : Option Expr} {block : List String} {outer : Scope}
    (hc : c.Within (block :: outer)) :
    variableDeclaration name value span c =
      (declare name span >>= fun _ => initial span value >>= fun _ => ready) c := by
  unfold variableDeclaration
  simp only [apply_bind_of_ok (apply_get c), hc.depth, List.length_cons, Nat.zero_lt_succ, if_true]

/-- Where a variable is compiled, its name is new in the block, and it is not used by its own initializer. -/
theorem variableDeclaration_scoped {name : String} {value : Option Expr} (hc : c.Within σ)
    (hnames : σ.innermost.Nodup) (he : variableDeclaration name value span c = .ok () c') :
    (Stmt.var name value span).Scoped σ ∧ (σ.extend [name]).innermost.Nodup := by
  cases σ with
  | nil => exact ⟨fun hne => absurd rfl hne, List.nodup_nil⟩
  | cons block outer =>
      rw [variableDeclaration_of_local hc] at he
      obtain ⟨_, c₁, hdeclare, he⟩ := apply_bind_eq_ok.mp he
      obtain ⟨_, c₂, hinit, -⟩ := apply_bind_eq_ok.mp he
      rw [declare_apply _ hc] at hdeclare
      split_ifs at hdeclare with hmem
      obtain rfl := (EStateM.Result.ok.inj hdeclare).2
      refine ⟨fun _ e hvalue => ?_, List.nodup_cons.mpr ⟨hmem, hnames⟩⟩
      obtain rfl : value = some e := hvalue
      exact expression_avoids e (by rw [hc.locals]) (hc.sees_declared name) hinit

/-- Each branch is compiled within the scope it stands in. -/
theorem branches_within {condition : Expr} {thenBranch : Stmt} {elseBranch : Option Stmt} (hc : c.Within σ)
    (he : statement (.ifElse condition thenBranch elseBranch span) c = .ok () c') :
    (∃ d d', d.Within σ ∧ statement thenBranch d = .ok () d') ∧
      ∃ d d', d.Within (σ.extend thenBranch.declared) ∧ alternative elseBranch d = .ok () d' := by
  obtain ⟨_, c₁, hcondition, he⟩ := apply_bind_eq_ok.mp he
  obtain ⟨pastThen, c₂, hjump, he⟩ := apply_bind_eq_ok.mp he
  obtain ⟨_, c₃, hpop, he⟩ := apply_bind_eq_ok.mp he
  obtain ⟨_, c₄, hbranch, he⟩ := apply_bind_eq_ok.mp he
  obtain ⟨pastElse, c₅, hjump', he⟩ := apply_bind_eq_ok.mp he
  obtain ⟨_, c₆, hpatch, he⟩ := apply_bind_eq_ok.mp he
  obtain ⟨_, c₇, hpop', he⟩ := apply_bind_eq_ok.mp he
  obtain ⟨_, c₈, hbranch', -⟩ := apply_bind_eq_ok.mp he
  have hc₃ := hc.of_writes (test_writes hc.sees hcondition hjump hpop).1
  have hc₄ := (statement_emits thenBranch hc₃ hbranch).2
  have hc₅ := hc₄.of_writes (emitJump_writes 0 isForwardJump_jump hjump').1
  have hc₆ := hc₅.of_patchJump hpatch
  have hc₇ := hc₆.of_writes (emit_writes (i := .pop) 0 rfl hpop')
  exact ⟨⟨c₃, c₄, hc₃, hbranch⟩, c₇, c₈, hc₇, hbranch'⟩

theorem loopBody_within {condition : Expr} {body : Stmt} (hc : c.Within σ)
    (he : statement (.whileLoop condition body span) c = .ok () c') :
    ∃ d d', d.Within σ ∧ statement body d = .ok () d' := by
  rw [statement, apply_bind_of_ok (apply_get c)] at he
  obtain ⟨_, c₁, hcondition, he⟩ := apply_bind_eq_ok.mp he
  obtain ⟨past, c₂, hjump, he⟩ := apply_bind_eq_ok.mp he
  obtain ⟨_, c₃, hpop, he⟩ := apply_bind_eq_ok.mp he
  obtain ⟨_, c₄, hround, -⟩ := apply_bind_eq_ok.mp he
  exact ⟨c₃, c₄, hc.of_writes (test_writes hc.sees hcondition hjump hpop).1, hround⟩

mutual

/-- **Where a statement is compiled, its variables are as they have to be.** -/
theorem statement_scoped (s : Stmt) {c c' : Compiler} {σ : Scope} (hc : c.Within σ) (hnames : σ.innermost.Nodup)
    (he : statement s c = .ok () c') :
    (∀ x ∈ s.sites σ, x.Scoped) ∧ (σ.extend s.declared).innermost.Nodup := by
  have hheight : (σ.extend s.declared).height ≤ 256 := (statement_emits s hc he).2.height_le
  have hleaf : s.sites σ = [⟨σ, s⟩] → s.declared = [] → s.Scoped σ →
      (∀ x ∈ s.sites σ, x.Scoped) ∧ (σ.extend s.declared).innermost.Nodup := by
    intro hsites hdeclared hscoped
    rw [hsites, List.forall_mem_singleton, hdeclared, Scope.extend_nil]
    exact ⟨⟨hscoped, hheight⟩, hnames⟩
  cases s with
  | expression e s => exact hleaf (by simp [Stmt.sites]) (by simp [Stmt.declared]) trivial
  | print e s => exact hleaf (by simp [Stmt.sites]) (by simp [Stmt.declared]) trivial
  | var name value s =>
      obtain ⟨hscoped, hnew⟩ := variableDeclaration_scoped hc hnames he
      simp only [Stmt.sites, List.forall_mem_singleton]
      exact ⟨⟨hscoped, hheight⟩, hnew⟩
  | block body s =>
      obtain ⟨_, c₁, hopen, he⟩ := apply_bind_eq_ok.mp he
      obtain ⟨_, c₂, hbody, -⟩ := apply_bind_eq_ok.mp he
      obtain rfl := (EStateM.Result.ok.inj hopen).2
      obtain ⟨hscoped, hnew⟩ := statements_scoped body hc.openScope List.nodup_nil hbody
      rw [Scope.extend, List.append_nil, Scope.innermost_cons] at hnew
      rw [Stmt.sites, List.forall_mem_cons, Stmt.declared, Scope.extend_nil]
      · exact ⟨⟨⟨hnew, hheight⟩, hscoped⟩, hnames⟩
      all_goals simp
  | ifElse condition thenBranch elseBranch s =>
      obtain ⟨⟨d₁, d₁', hd₁, hthen⟩, d₂, d₂', hd₂, helse⟩ := branches_within hc he
      obtain ⟨hscoped₁, hnames₁⟩ := statement_scoped thenBranch hd₁ hnames hthen
      obtain ⟨hscoped₂, hnames₂⟩ := alternative_scoped elseBranch hd₂ hnames₁ helse
      rw [Stmt.sites, List.forall_mem_cons, List.forall_mem_append, Stmt.declared, Scope.extend_append]
      exact ⟨⟨⟨trivial, hheight⟩, hscoped₁, hscoped₂⟩, hnames₂⟩
  | whileLoop condition body s =>
      obtain ⟨d, d', hd, hround⟩ := loopBody_within hc he
      obtain ⟨hscoped, hnames'⟩ := statement_scoped body hd hnames hround
      rw [Stmt.sites, List.forall_mem_cons, Stmt.declared]
      exact ⟨⟨⟨trivial, hheight⟩, hscoped⟩, hnames'⟩
  | function name parameters body s => exact hleaf (by simp [Stmt.sites]) (by simp [Stmt.declared]) trivial
  | returns value s => exact hleaf (by simp [Stmt.sites]) (by simp [Stmt.declared]) trivial

theorem alternative_scoped (e : Option Stmt) {c c' : Compiler} {σ : Scope} (hc : c.Within σ)
    (hnames : σ.innermost.Nodup) (he : alternative e c = .ok () c') :
    (∀ x ∈ Stmt.sitesElse σ e, x.Scoped) ∧ (σ.extend (Stmt.declaredElse e)).innermost.Nodup := by
  cases e with
  | none => simpa [Stmt.sitesElse, Stmt.declaredElse] using hnames
  | some s => exact statement_scoped s hc hnames he

theorem statements_scoped (body : List Stmt) {c c' : Compiler} {σ : Scope} (hc : c.Within σ)
    (hnames : σ.innermost.Nodup) (he : statements body c = .ok () c') :
    (∀ x ∈ Stmt.sitesAll σ body, x.Scoped) ∧ (σ.extend (Stmt.declaredAll body)).innermost.Nodup := by
  cases body with
  | nil => simpa [Stmt.sitesAll, Stmt.declaredAll] using hnames
  | cons s rest =>
      obtain ⟨_, c₁, hs, hrest⟩ := apply_bind_eq_ok.mp he
      obtain ⟨hscoped, hnames₁⟩ := statement_scoped s hc hnames hs
      obtain ⟨hscoped', hnames'⟩ := statements_scoped rest (statement_emits s hc hs).2 hnames₁ hrest
      rw [Stmt.sitesAll, List.forall_mem_append, Stmt.declaredAll, Scope.extend_append]
      exact ⟨⟨hscoped, hscoped'⟩, hnames'⟩

end

end Compilation

/-! ## Room for everything -/

namespace Compilation

variable {c c' : Compiler} {span : Span} {σ : Scope} {ks : List Constant}

theorem constant_compiles {k : Constant} (span : Span) (hks : Constant.Storable ks) (hk : k ∈ ks)
    (hd : c.pool.DrawnFrom ks) :
    ∃ i c', constant k span c = .ok i c' ∧ c'.pool.DrawnFrom ks := by
  obtain ⟨i, p, hp, hdrawn⟩ := hd.intern hks hk span
  exact ⟨i, { c with pool := p }, by rw [constant, hp], hdrawn⟩

theorem emitConstant_compiles {k : Constant} (op : Opcode) (hks : Constant.Storable ks) (hk : k ∈ ks)
    (hd : c.pool.DrawnFrom ks) :
    ∃ c', (constant k span >>= fun i => emitByte op i span) c = .ok () c' ∧ c'.pool.DrawnFrom ks := by
  obtain ⟨i, c₁, hc₁, hd₁⟩ := constant_compiles span hks hk hd
  exact ⟨_, apply_bind_of_ok hc₁, hd₁⟩

theorem emit_compiles (op : Opcode) (span : Span) (hd : c.pool.DrawnFrom ks) :
    ∃ c', emit op span c = .ok () c' ∧ c'.pool.DrawnFrom ks :=
  ⟨_, rfl, hd⟩

theorem emitJump_compiles (op : Opcode) (span : Span) (hd : c.pool.DrawnFrom ks) :
    ∃ operand c', emitJump op span c = .ok operand c' ∧ c'.pool.DrawnFrom ks :=
  ⟨_, _, rfl, hd⟩

theorem patchJump_compiles (operand : Nat) (hd : c.pool.DrawnFrom ks)
    (hfits : c.chunk.offset - operand - 2 ≤ 0xffff) :
    ∃ c', patchJump operand c = .ok () c' ∧ c'.pool.DrawnFrom ks := by
  rw [patchJump_apply, if_neg (Nat.not_lt.mpr hfits)]
  exact ⟨_, rfl, hd⟩

theorem emitLoop_compiles (span : Span) (start : Nat) (hd : c.pool.DrawnFrom ks) (hle : start ≤ c.chunk.offset)
    (hfits : c.chunk.offset + 3 - start ≤ 0x8000) :
    ∃ c', emitLoop start span c = .ok () c' ∧ c'.pool.DrawnFrom ks := by
  have hnear : ¬((start : Int) - (c.chunk.offset + 3 : Nat) < -0x8000 ∨
      0x8000 ≤ (start : Int) - (c.chunk.offset + 3 : Nat)) := by omega
  rw [emitLoop_apply, if_neg hnear]
  exact ⟨_, rfl, hd⟩

theorem literal_compiles {v : Value} (hks : Constant.Storable ks) (hd : c.pool.DrawnFrom ks)
    (hfits : v.instr.Fits ks) : ∃ c', literal span v c = .ok () c' ∧ c'.pool.DrawnFrom ks := by
  cases v with
  | nil => exact ⟨_, rfl, hd⟩
  | boolean b => cases b <;> exact ⟨_, rfl, hd⟩
  | number x => exact emitConstant_compiles .pushConstant hks hfits hd
  | string t => exact emitConstant_compiles .pushConstant hks hfits hd

theorem access_compiles {toLocal : Nat → Instr} {toGlobal : String → Instr} {name : String} (span : Span)
    (local_ global : Opcode)
    (hks : Constant.Storable ks) (hs : c.Sees σ) (hn : ∀ n, c.locals = { name := n } :: σ.locals → n ≠ name)
    (hd : c.pool.DrawnFrom ks) (hglobal : (toGlobal name).Fits ks → .string name ∈ ks)
    (hfits : (σ.access toLocal toGlobal name).Fits ks) :
    ∃ c', access local_ global name span c = .ok () c' ∧ c'.pool.DrawnFrom ks := by
  unfold access
  rw [apply_bind_of_ok (slot?_apply hs hn)]
  unfold Scope.access at hfits
  cases hslot : σ.slot? name with
  | some slot => exact ⟨_, rfl, hd⟩
  | none =>
      rw [hslot] at hfits
      exact emitConstant_compiles global hks (hglobal hfits) hd

/-- **An expression is compiled** if it does not use a variable that is being initialized and all its instructions can
be written. -/
theorem expression_compiles (e : Expr) (h : Nat) (hks : Constant.Storable ks) (hs : c.Sees σ)
    (hn : ∀ n, c.locals = { name := n } :: σ.locals → ∀ e' ∈ e.parts, e'.named? ≠ some n)
    (hd : c.pool.DrawnFrom ks) (hfits : (e.assembly σ h).Fits ks) :
    ∃ c', expression e c = .ok () c' ∧ c'.pool.DrawnFrom ks := by
  induction e generalizing c h with
  | literal v s => exact literal_compiles hks hd (Assembly.fits_cons.mp hfits).1
  | var name s =>
      refine access_compiles s .getLocal .getGlobal hks hs (fun n hl heq => ?_) hd id (Assembly.fits_cons.mp hfits).1
      exact hn n hl (.var name s) (by simp [Expr.parts]) (by rw [heq]; rfl)
  | assign name value s ih =>
      simp only [Expr.parts, List.forall_mem_cons] at hn
      simp only [Expr.assembly, Assembly.fits_append, Assembly.fits_cons] at hfits
      obtain ⟨c₁, hvalue, hd₁⟩ := ih h hs (fun n hl => (hn n hl).2) hd hfits.1
      have hw := expression_writes value h hs hvalue
      obtain ⟨c', ha, hd'⟩ := access_compiles s .setLocal .setGlobal hks
        (hs.of_writes hw) (fun n hl heq => (hn n (hw.locals ▸ hl)).1 (by rw [heq]; rfl)) hd₁ id hfits.2.1
      exact ⟨c', by rw [expression, apply_bind_of_ok hvalue, ha], hd'⟩
  | unary op operand s ih =>
      simp only [Expr.parts, List.forall_mem_cons] at hn
      simp only [Expr.assembly, Assembly.fits_append] at hfits
      obtain ⟨c₁, hoperand, hd₁⟩ := ih h hs (fun n hl => (hn n hl).2) hd hfits.1
      obtain ⟨c', hemit, hd'⟩ := emit_compiles (.unary op) s hd₁
      exact ⟨c', by rw [expression, apply_bind_of_ok hoperand, hemit], hd'⟩
  | binary op left right s ihl ihr =>
      simp only [Expr.parts, List.forall_mem_cons, List.forall_mem_append] at hn
      simp only [Expr.assembly, Assembly.fits_append] at hfits
      obtain ⟨c₁, hleft, hd₁⟩ := ihl h hs (fun n hl => (hn n hl).2.1) hd hfits.1.1
      have hw := expression_writes left h hs hleft
      obtain ⟨c₂, hright, hd₂⟩ := ihr (h + 1) (hs.of_writes hw) (fun n hl => (hn n (hw.locals ▸ hl)).2.2) hd₁ hfits.1.2
      obtain ⟨c', hemit, hd'⟩ := emit_compiles (.binary op) s hd₂
      exact ⟨c', by rw [expression, apply_bind_of_ok hleft, apply_bind_of_ok hright, hemit], hd'⟩
  | logical op left right s ihl ihr =>
      simp only [Expr.parts, List.forall_mem_cons, List.forall_mem_append] at hn
      simp only [Expr.assembly, Assembly.fits_append, Assembly.fits_cons, (isForwardJump_shortCircuit op).fits] at hfits
      obtain ⟨⟨hfitsl, hjumps, -⟩, hfitsr⟩ := hfits
      obtain ⟨c₁, hleft, hd₁⟩ := ihl h hs (fun n hl => (hn n hl).2.1) hd hfitsl
      obtain ⟨past, c₂, hjump, hd₂⟩ := emitJump_compiles (shortCircuit op) s hd₁
      obtain ⟨c₃, hpop, hd₃⟩ := emit_compiles .pop s hd₂
      have hw₁ := expression_writes left h hs hleft
      obtain ⟨hw₂, rfl⟩ := emitJump_writes (h + 1) (isForwardJump_shortCircuit op) hjump
      have hw₃ := hw₁.trans (hw₂.trans (emit_writes (i := .pop) (h + 1) rfl hpop))
      obtain ⟨c₄, hright, hd₄⟩ := ihr h (hs.of_writes hw₃) (fun n hl => (hn n (hw₃.locals ▸ hl)).2.2) hd₃ hfitsr
      have hw₄ := expression_writes right h (hs.of_writes hw₃) hright
      have hoffset : c₄.chunk.offset - (c₁.chunk.offset + 1) - 2 = (right.assembly σ h).size + 1 := by
        rw [hw₄.offset_eq, hw₃.offset_eq, hw₁.offset_eq]
        simp only [List.cons_append, List.nil_append, Assembly.size_append, Assembly.size_cons, Assembly.size_nil,
          LogicalOp.size_instr, Instr.size_pop]
        omega
      obtain ⟨c', hpatch, hd'⟩ := patchJump_compiles _ hd₄ (hoffset ▸ hjumps)
      refine ⟨c', ?_, hd'⟩
      rw [expression, apply_bind_of_ok hleft, apply_bind_of_ok hjump, apply_bind_of_ok hpop, apply_bind_of_ok hright,
        hpatch]
  | grouping inner s ih =>
      simp only [Expr.parts, List.forall_mem_cons] at hn
      exact ih h hs (fun n hl => (hn n hl).2) hd hfits
  | call callee arguments s => exact ⟨_, rfl, hd⟩

theorem initial_compiles {value : Option Expr} (span : Span) (h : Nat) (hks : Constant.Storable ks) (hs : c.Sees σ)
    (hn : ∀ n, c.locals = { name := n } :: σ.locals → ∀ e ∈ value, ∀ e' ∈ e.parts, e'.named? ≠ some n)
    (hd : c.pool.DrawnFrom ks) (hfits : (Expr.initial σ h span value).Fits ks) :
    ∃ c', initial span value c = .ok () c' ∧ c'.pool.DrawnFrom ks := by
  cases value with
  | none => exact emit_compiles .pushNil span hd
  | some e => exact expression_compiles e h hks hs (fun n hl => hn n hl e rfl) hd hfits

theorem emitPops_compiles (span : Span) (n : Nat) (hd : c.pool.DrawnFrom ks) :
    ∃ c', emitPops span n c = .ok () c' ∧ c'.pool.DrawnFrom ks := by
  induction n generalizing c with
  | zero => exact ⟨c, rfl, hd⟩
  | succ n ih =>
      obtain ⟨c₁, hpop, hd₁⟩ := emit_compiles .pop span hd
      obtain ⟨c', hpops, hd'⟩ := ih hd₁
      exact ⟨c', by rw [emitPops, apply_bind_of_ok hpop, hpops], hd'⟩

theorem closeScope_compiles (span : Span) (hd : c.pool.DrawnFrom ks) :
    ∃ c', closeScope span c = .ok () c' ∧ c'.pool.DrawnFrom ks := by
  obtain ⟨c₁, hpops, hd₁⟩ := emitPops_compiles span (c.locals.takeWhile (·.isDeeper (c.depth - 1))).length hd
  unfold closeScope
  rw [apply_bind_of_ok (apply_get c)]
  exact ⟨_, apply_bind_of_ok hpops, hd₁⟩

theorem ready_compiles (hd : c.pool.DrawnFrom ks) : ∃ c', ready c = .ok () c' ∧ c'.pool.DrawnFrom ks := by
  unfold ready
  rw [apply_modify]
  cases c.locals with
  | nil => exact ⟨c, rfl, hd⟩
  | cons v older => exact ⟨_, rfl, hd⟩

/-- Between statements no variable is being initialized. -/
theorem expression_compiles_within (e : Expr) (h : Nat) (hks : Constant.Storable ks) (hc : c.Within σ)
    (hd : c.pool.DrawnFrom ks) (hfits : (e.assembly σ h).Fits ks) :
    ∃ c', expression e c = .ok () c' ∧ c'.pool.DrawnFrom ks := by
  refine expression_compiles e h hks hc.sees (fun n hl => ?_) hd hfits
  rw [hc.locals] at hl
  exact absurd (congrArg List.length hl) (by simp)

/-- A condition is compiled, with the jump that depends on it and the instruction that drops it. -/
theorem test_compiles {condition : Expr} (span : Span) (hks : Constant.Storable ks) (hc : c.Within σ)
    (hd : c.pool.DrawnFrom ks) (hfits : (condition.assembly σ σ.height).Fits ks) :
    ∃ past c₁ c₂ c₃, expression condition c = .ok () c₁ ∧ emitJump .jumpIfFalse span c₁ = .ok past c₂ ∧
      emit .pop span c₂ = .ok () c₃ ∧ c₃.pool.DrawnFrom ks := by
  obtain ⟨c₁, hcondition, hd₁⟩ := expression_compiles_within condition σ.height hks hc hd hfits
  obtain ⟨past, c₂, hjump, hd₂⟩ := emitJump_compiles .jumpIfFalse span hd₁
  obtain ⟨c₃, hpop, hd₃⟩ := emit_compiles .pop span hd₂
  exact ⟨past, c₁, c₂, c₃, hcondition, hjump, hpop, hd₃⟩

/-- What is asked for is compiled within the scope, with constants of the pool. -/
def Compiles (ks : List Constant) (σ : Scope) (x : Compilation Unit) : Prop :=
  ∀ c : Compiler, c.Within σ → c.pool.DrawnFrom ks → ∃ c', x c = .ok () c' ∧ c'.pool.DrawnFrom ks

theorem variableDeclaration_compiles {name : String} {value : Option Expr} (hks : Constant.Storable ks)
    (hscoped : (Stmt.var name value span).Scoped σ) (hheight : (σ.extend [name]).height ≤ 256)
    (hnames : (σ.extend [name]).innermost.Nodup) (hfits : (σ.declaration name value span).Fits ks) :
    Compiles ks σ (variableDeclaration name value span) := by
  intro c hc hd
  cases σ with
  | nil =>
      simp only [Scope.declaration, Assembly.fits_append, Assembly.fits_cons] at hfits
      rw [variableDeclaration_of_global hc]
      obtain ⟨c₁, hinit, hd₁⟩ := initial_compiles span _ hks hc.sees
        (fun n hl => absurd (hc.locals.symm.trans hl) (by simp [Scope.locals])) hd hfits.1
      rw [apply_bind_of_ok hinit]
      exact emitConstant_compiles .defineGlobal hks hfits.2.1 hd₁
  | cons block outer =>
      simp only [Scope.extend, Scope.innermost_cons, List.cons_append, List.nil_append, List.nodup_cons,
        Scope.height_cons, List.length_cons] at hnames hheight
      have hroom : ¬256 ≤ Scope.height (block :: outer) := by
        rw [Scope.height_cons]
        omega
      have hdeclare := declare_apply span hc name
      rw [if_neg hnames.1, if_neg hroom] at hdeclare
      rw [variableDeclaration_of_local hc, apply_bind_of_ok hdeclare]
      obtain ⟨c₁, hinit, hd₁⟩ := initial_compiles span _ hks (hc.sees_declared name)
        (fun n hl => by
          obtain rfl : name = n := congrArg Local.name (List.cons.inj hl).1
          exact hscoped (List.cons_ne_nil _ _)) hd hfits
      rw [apply_bind_of_ok hinit]
      exact ready_compiles hd₁

theorem ifElse_compiles {condition : Expr} {thenBranch : Stmt} {elseBranch : Option Stmt} (hks : Constant.Storable ks)
    (hthen : Compiles ks σ (statement thenBranch))
    (helse : Compiles ks (σ.extend thenBranch.declared) (alternative elseBranch))
    (hfits : (Stmt.assembly σ (.ifElse condition thenBranch elseBranch span)).Fits ks) :
    Compiles ks σ (statement (.ifElse condition thenBranch elseBranch span)) := by
  intro c hc hd
  simp only [Stmt.assembly, Assembly.fits_append, Assembly.fits_cons] at hfits
  obtain ⟨⟨⟨⟨hcfits, hjumps, -⟩, -⟩, hjumps', -⟩, -⟩ := hfits
  obtain ⟨pastThen, c₁, c₂, c₃, hcondition, hjump, hpop, hd₃⟩ := test_compiles span hks hc hd hcfits
  obtain ⟨hw₃, rfl⟩ := test_writes hc.sees hcondition hjump hpop
  have hc₃ := hc.of_writes hw₃
  obtain ⟨c₄, hbranch, hd₄⟩ := hthen c₃ hc₃ hd₃
  obtain ⟨he₄, hc₄⟩ := statement_emits thenBranch hc₃ hbranch
  obtain ⟨pastElse, c₅, hjump', hd₅⟩ := emitJump_compiles .jump span hd₄
  obtain ⟨hw₅, rfl⟩ := emitJump_writes σ.height isForwardJump_jump hjump'
  have hoffset₃ := hw₃.offset_eq
  have hoffset₄ := he₄.offset_eq
  have hoffset₅ := hw₅.offset_eq
  simp only [Assembly.size_append, Assembly.size_cons, Assembly.size_nil, Instr.size_jumpIfFalse, Instr.size_jump,
    Instr.size_pop] at hoffset₃ hoffset₅
  have hjumps : (thenBranch.assembly σ).size + 4 ≤ 0xffff := hjumps
  obtain ⟨c₆, hpatch, hd₆⟩ :=
    patchJump_compiles (c.chunk.offset + (condition.assembly σ σ.height).size + 1) hd₅ (by omega)
  have hoffset₆ := patchJump_offset hpatch
  obtain ⟨c₇, hpop', hd₇⟩ := emit_compiles .pop span hd₆
  have hw₇ := emit_writes (i := .pop) (σ.height + 1) rfl hpop'
  have hc₆ := (hc₄.of_writes hw₅).of_patchJump hpatch
  obtain ⟨c₈, hbranch', hd₈⟩ := helse c₇ (hc₆.of_writes hw₇) hd₇
  have hoffset₇ := hw₇.offset_eq
  have hoffset₈ := (alternative_emits elseBranch (hc₆.of_writes hw₇) hbranch').1.offset_eq
  simp only [Assembly.size_cons, Assembly.size_nil, Instr.size_pop] at hoffset₇
  have hjumps' : (Stmt.assemblyElse (σ.extend thenBranch.declared) elseBranch).size + 1 ≤ 0xffff := hjumps'
  obtain ⟨c₉, hpatch', hd₉⟩ := patchJump_compiles (c₄.chunk.offset + 1) hd₈ (by omega)
  refine ⟨c₉, ?_, hd₉⟩
  rw [statement, apply_bind_of_ok hcondition, apply_bind_of_ok hjump, apply_bind_of_ok hpop, apply_bind_of_ok hbranch,
    apply_bind_of_ok hjump', apply_bind_of_ok hpatch, apply_bind_of_ok hpop', apply_bind_of_ok hbranch', hpatch']

theorem whileLoop_compiles {condition : Expr} {body : Stmt} (hks : Constant.Storable ks)
    (hbody : Compiles ks σ (statement body))
    (hfits : (Stmt.assembly σ (.whileLoop condition body span)).Fits ks) :
    Compiles ks σ (statement (.whileLoop condition body span)) := by
  intro c hc hd
  simp only [Stmt.assembly, Assembly.fits_append, Assembly.fits_cons] at hfits
  obtain ⟨⟨⟨hcfits, hjumps, -⟩, -⟩, hloops, -⟩ := hfits
  obtain ⟨past, c₁, c₂, c₃, hcondition, hjump, hpop, hd₃⟩ := test_compiles span hks hc hd hcfits
  obtain ⟨hw₃, rfl⟩ := test_writes hc.sees hcondition hjump hpop
  have hc₃ := hc.of_writes hw₃
  obtain ⟨c₄, hround, hd₄⟩ := hbody c₃ hc₃ hd₃
  have hoffset₃ := hw₃.offset_eq
  have hoffset₄ := (statement_emits body hc₃ hround).1.offset_eq
  simp only [Assembly.size_append, Assembly.size_cons, Assembly.size_nil, Instr.size_jumpIfFalse,
    Instr.size_pop] at hoffset₃
  have hloops : (condition.assembly σ σ.height).size + (body.assembly σ).size + 7 ≤ 0x8000 := hloops
  have hjumps : (body.assembly σ).size + 4 ≤ 0xffff := hjumps
  obtain ⟨c₅, hloop, hd₅⟩ := emitLoop_compiles span c.chunk.offset hd₄ (by omega) (by omega)
  have hoffset₅ := (emitLoop_writes σ.height (by omega) hloop).offset_eq
  simp only [Assembly.size_cons, Assembly.size_nil, Instr.size_loop] at hoffset₅
  obtain ⟨c₆, hpatch, hd₆⟩ :=
    patchJump_compiles (c.chunk.offset + (condition.assembly σ σ.height).size + 1) hd₅ (by omega)
  obtain ⟨c₇, hpop', hd₇⟩ := emit_compiles .pop span hd₆
  refine ⟨c₇, ?_, hd₇⟩
  rw [statement, apply_bind_of_ok (apply_get c), apply_bind_of_ok hcondition, apply_bind_of_ok hjump,
    apply_bind_of_ok hpop, apply_bind_of_ok hround, apply_bind_of_ok hloop, apply_bind_of_ok hpatch, hpop']

mutual

/-- **A statement is compiled** if its variables are as they have to be and all its instructions can be written. -/
theorem statement_compiles {ks : List Constant} (hks : Constant.Storable ks) (s : Stmt) {σ : Scope}
    (hscoped : ∀ x ∈ s.sites σ, x.Scoped) (hnames : (σ.extend s.declared).innermost.Nodup)
    (hfits : (s.assembly σ).Fits ks) : Compiles ks σ (statement s) := by
  cases s with
  | expression e s =>
      intro c hc hd
      rw [Stmt.assembly, Assembly.fits_append] at hfits
      obtain ⟨c₁, hexpr, hd₁⟩ := expression_compiles_within e σ.height hks hc hd hfits.1
      obtain ⟨c', hpop, hd'⟩ := emit_compiles .pop s hd₁
      exact ⟨c', by rw [statement, apply_bind_of_ok hexpr, hpop], hd'⟩
  | print e s =>
      intro c hc hd
      rw [Stmt.assembly, Assembly.fits_append] at hfits
      obtain ⟨c₁, hexpr, hd₁⟩ := expression_compiles_within e σ.height hks hc hd hfits.1
      obtain ⟨c', hprint, hd'⟩ := emit_compiles .print s hd₁
      exact ⟨c', by rw [statement, apply_bind_of_ok hexpr, hprint], hd'⟩
  | var name value s =>
      have hself := hscoped ⟨σ, .var name value s⟩ (by simp [Stmt.sites])
      exact variableDeclaration_compiles hks hself.names hself.height_le hnames hfits
  | block body s =>
      intro c hc hd
      rw [Stmt.sites, List.forall_mem_cons] at hscoped
      obtain ⟨hself, hscoped⟩ := hscoped
      rw [Stmt.assembly, Assembly.fits_append] at hfits
      have hnew : (Scope.extend ([] :: σ) (Stmt.declaredAll body)).innermost.Nodup := by
        rw [Scope.extend, List.append_nil, Scope.innermost_cons]
        exact hself.names
      have hopen : openScope c = .ok () { c with depth := c.depth + 1 } := rfl
      obtain ⟨c₁, hbody, hd₁⟩ := statements_compile hks body hscoped hnew hfits.1 _ hc.openScope hd
      obtain ⟨c', hclose, hd'⟩ := closeScope_compiles s hd₁
      exact ⟨c', by rw [statement, apply_bind_of_ok hopen, apply_bind_of_ok hbody, hclose], hd'⟩
  | ifElse condition thenBranch elseBranch s =>
      rw [Stmt.sites, List.forall_mem_cons, List.forall_mem_append] at hscoped
      obtain ⟨-, hscoped₁, hscoped₂⟩ := hscoped
      rw [Stmt.declared, Scope.extend_append] at hnames
      have hnames₁ := hnames.sublist (Scope.innermost_extend_suffix _ _).sublist
      have hparts := hfits
      simp only [Stmt.assembly, Assembly.fits_append] at hparts
      exact ifElse_compiles hks (statement_compiles hks thenBranch hscoped₁ hnames₁ hparts.1.1.2)
        (alternative_compiles hks elseBranch hscoped₂ hnames hparts.2) hfits
  | whileLoop condition body s =>
      rw [Stmt.sites, List.forall_mem_cons] at hscoped
      rw [Stmt.declared] at hnames
      have hparts := hfits
      simp only [Stmt.assembly, Assembly.fits_append] at hparts
      exact whileLoop_compiles hks (statement_compiles hks body hscoped.2 hnames hparts.1.2) hfits
  | function name parameters body s => exact fun c _ hd => emit_compiles .trap s hd
  | returns value s => exact fun c _ hd => emit_compiles .trap s hd

theorem alternative_compiles {ks : List Constant} (hks : Constant.Storable ks) (e : Option Stmt) {σ : Scope}
    (hscoped : ∀ x ∈ Stmt.sitesElse σ e, x.Scoped) (hnames : (σ.extend (Stmt.declaredElse e)).innermost.Nodup)
    (hfits : (Stmt.assemblyElse σ e).Fits ks) : Compiles ks σ (alternative e) := by
  cases e with
  | none => exact fun c _ hd => ⟨c, rfl, hd⟩
  | some s => exact statement_compiles hks s hscoped hnames hfits

theorem statements_compile {ks : List Constant} (hks : Constant.Storable ks) (body : List Stmt) {σ : Scope}
    (hscoped : ∀ x ∈ Stmt.sitesAll σ body, x.Scoped) (hnames : (σ.extend (Stmt.declaredAll body)).innermost.Nodup)
    (hfits : (Stmt.assemblyAll σ body).Fits ks) : Compiles ks σ (statements body) := by
  cases body with
  | nil => exact fun c _ hd => ⟨c, rfl, hd⟩
  | cons s rest =>
      intro c hc hd
      rw [Stmt.sitesAll, List.forall_mem_append] at hscoped
      rw [Stmt.declaredAll, Scope.extend_append] at hnames
      rw [Stmt.assemblyAll, Assembly.fits_append] at hfits
      have hnames₁ := hnames.sublist (Scope.innermost_extend_suffix _ _).sublist
      obtain ⟨c₁, hs, hd₁⟩ := statement_compiles hks s hscoped.1 hnames₁ hfits.1 c hc hd
      have hc₁ := (statement_emits s hc hs).2
      obtain ⟨c', hrest, hd'⟩ := statements_compile hks rest hscoped.2 hnames hfits.2 c₁ hc₁ hd₁
      exact ⟨c', by rw [statements, apply_bind_of_ok hs, hrest], hd'⟩

end

end Compilation

/-! ## Programs -/

namespace Program

variable {p : Program}

/-- There is room for the constants of a program just if they are few enough and can all be written. -/
theorem exists_storable_iff :
    (∃ ks, Constant.Storable ks ∧ p.constants ⊆ ks) ↔
      p.constants.dedup.length ≤ 256 ∧ ∀ t, .string t ∈ p.constants → '\x00' ∉ t.toList := by
  constructor
  · rintro ⟨ks, hks, hsubset⟩
    refine ⟨?_, fun t ht hnul => ?_⟩
    · have hfew : p.constants.dedup ⊆ ks := fun k hk => hsubset (List.mem_dedup.mp hk)
      exact Nat.le_trans (List.subperm_of_subset (List.nodup_dedup _) hfew).length_le hks.length_le
    · have henc := hks.encodable _ (hsubset ht)
      rw [Constant.encodable_eq_false.mpr ⟨t, rfl, hnul⟩] at henc
      cases henc
  · rintro ⟨hfew, htexts⟩
    refine ⟨p.constants.dedup, ⟨hfew, fun k hk => ?_⟩, List.subset_dedup _⟩
    cases henc : k.encodable with
    | true => rfl
    | false =>
        obtain ⟨t, rfl, hnul⟩ := Constant.encodable_eq_false.mp henc
        exact absurd hnul (htexts t (List.mem_dedup.mp hk))

theorem constants_subset_iff {ks : List Constant} :
    p.constants ⊆ ks ↔ (∀ x ∈ p.statements, ∀ k ∈ x.node.constants x.scope, k ∈ ks) ∧
      ∀ y ∈ p.expressions, ∀ k ∈ y.node.constants y.scope, k ∈ ks := by
  rw [constants, List.append_subset]
  simp only [List.subset_def, List.forall_mem_flatMap]

theorem writable_iff {ks : List Constant} :
    (∀ x ∈ p.statements, x.node.Writable ks x.scope) ↔
      (∀ x ∈ p.statements, x.node.JumpsFit x.scope) ∧ (∀ y ∈ p.expressions, y.node.JumpsFit) ∧
        p.constants ⊆ ks := by
  rw [constants_subset_iff, forall_mem_expressions, forall_mem_expressions]
  constructor
  · intro h
    exact ⟨fun x hx => (h x hx).1, fun x hx e he e' he' => ((h x hx).2.2 e he e' he').1,
      fun x hx => (h x hx).2.1, fun x hx e he e' he' => ((h x hx).2.2 e he e' he').2⟩
  · rintro ⟨hjumps, hjumps', hnames, hvalues⟩ x hx
    exact ⟨hjumps x hx, hnames x hx, fun e he e' he' => ⟨hjumps' x hx e he e' he', hvalues x hx e he e' he'⟩⟩

/-- The limits, sorted by what keeps to them: the statements, the expressions, and the constants together. -/
theorem withinLimits_iff :
    p.WithinLimits ↔ (∀ x ∈ p.statements, x.Scoped) ∧ (∀ x ∈ p.statements, x.node.JumpsFit x.scope) ∧
      (∀ y ∈ p.expressions, y.node.JumpsFit) ∧ ∃ ks, Constant.Storable ks ∧ p.constants ⊆ ks := by
  constructor
  · intro h
    refine ⟨?_, ?_, ?_, exists_storable_iff.mpr ⟨h.constants, h.texts⟩⟩
    · rintro ⟨σ, s⟩ hx
      refine ⟨?_, h.locals σ s hx⟩
      cases s with
      | var name value s =>
          intro hσ e he
          obtain rfl := Option.mem_def.mp he
          exact h.initializers σ name e s hx hσ
      | block body s => exact h.names σ body s hx
      | _ => trivial
    · rintro ⟨σ, s⟩ hx
      cases s with
      | ifElse condition thenBranch elseBranch s => exact h.branches σ condition thenBranch elseBranch s hx
      | whileLoop condition body s => exact h.loops σ condition body s hx
      | _ => trivial
    · rintro ⟨σ, e⟩ hy
      cases e with
      | logical op left right s => exact h.operators σ op left right s hy
      | _ => trivial
  · rintro ⟨hscoped, hjumps, hjumps', hks⟩
    obtain ⟨hfew, htexts⟩ := exists_storable_iff.mp hks
    exact
      { names := fun σ body s hx => (hscoped _ hx).names
        initializers := fun σ name e s hx hσ => (hscoped _ hx).names hσ e rfl
        locals := fun σ s hx => (hscoped _ hx).height_le
        constants := hfew
        texts := htexts
        operators := fun σ op left right s hy => hjumps' _ hy
        branches := fun σ condition thenBranch elseBranch s hx => hjumps _ hx
        loops := fun σ condition body s hx => hjumps _ hx }

/-- The instructions of a program whose variables are as they have to be can be written just if those of all its
statements can. -/
theorem fits_iff {ks : List Constant} (hscoped : ∀ x ∈ p.statements, x.Scoped) :
    (Stmt.assemblyAll [] p).Fits ks ↔ ∀ x ∈ p.statements, x.node.Writable ks x.scope :=
  Stmt.fits_iffAll ks p fun x hx => Nat.le_trans (x.scope.height_le_extend _) (hscoped x hx).height_le

end Program

theorem withinLimits_of_compile {p : Program} {out : Compiled} (h : compile p = .ok out) : p.WithinLimits := by
  obtain ⟨c, hc, -⟩ := compile_eq_ok.mp h
  have hscoped := (Compilation.statements_scoped p Compiler.within_empty List.nodup_nil hc).1
  have hcarries := compile_carries h
  obtain ⟨hjumps, hjumps', hsubset⟩ := Program.writable_iff.mp ((Program.fits_iff hscoped).mp hcarries.fits)
  exact Program.withinLimits_iff.mpr ⟨hscoped, hjumps, hjumps', _, hcarries.sound.toStorable, hsubset⟩

theorem exists_compile_of_withinLimits {p : Program} (h : p.WithinLimits) : ∃ out, compile p = .ok out := by
  obtain ⟨hscoped, hjumps, hjumps', ks, hks, hsubset⟩ := Program.withinLimits_iff.mp h
  have hfits := (Program.fits_iff hscoped).mpr (Program.writable_iff.mpr ⟨hjumps, hjumps', hsubset⟩)
  have hnames : (Scope.extend [] (Stmt.declaredAll p)).innermost.Nodup := List.nodup_nil
  obtain ⟨c, hc, -⟩ := Compilation.statements_compile hks p hscoped hnames hfits {} Compiler.within_empty
    (.empty ks)
  exact ⟨_, compile_eq_ok.mpr ⟨c, hc, rfl⟩⟩

theorem size_code_of_compile {p : Program} {out : Compiled} (h : compile p = .ok out) :
    out.chunk.code.size = Stmt.codeSizeAll false p := by
  have hlength := congrArg List.length (compile_carries h).code
  rw [Array.length_toList, Assembly.length_bytes] at hlength
  exact hlength.trans (Stmt.size_assemblyAll p [])

/-- **A program can be compiled just if it keeps within its limits.** The sizes that these are about are those of the
code that it is compiled to. -/
theorem compile_succeeds_iff (p : Program) :
    ((∃ out, compile p = .ok out) ↔ p.WithinLimits) ∧
      ∀ out, compile p = .ok out → out.chunk.code.size = Stmt.codeSizeAll false p := by
  refine ⟨⟨?_, exists_compile_of_withinLimits⟩, fun _ h => size_code_of_compile h⟩
  rintro ⟨out, h⟩
  exact withinLimits_of_compile h

end Lox
