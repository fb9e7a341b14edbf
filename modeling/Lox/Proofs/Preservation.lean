import Lox.Proofs.Following

/-!
# Compiled programs do what they say

The machine that executes the code of a program follows the evaluation of the program.

* `Expr.eval_follows`, `Stmt.exec_follows` : the assembly of expressions and statements follows them;
* `Shows` : the end of a run of the machine shows a behaviour of a program;
* `compile_preserves_behaviour` : the code of a program ends just when the program does, and shows the same.
-/

namespace Lox

open Machine (Reaches Stops)

/-! ## Expressions -/

/-- The code of an expression follows its evaluation and leaves its value on the stack. -/
theorem Expr.eval_follows {out : Compiled} {base : Machine} (hb : Hosts base out) (k : Nat) (e : Expr) {w : World}
    {σ : Scope} {o h stop : Nat} {temps : List Value} (hσ : w.blocks.scope = σ)
    (hold : out.Holds o (e.assembly σ h)) (hstop : stop = o + (e.assembly σ h).size) :
    Follows base k (w.on base o temps) (fun v w' => w'.on base stop (v :: temps)) (e.eval w) := by
  induction e generalizing w o h stop temps with
  | literal v s =>
      rw [hstop, Expr.assembly]
      exact ⟨1, hb.literal_follows hold.1⟩
  | var name s =>
      obtain rfl : stop = o + 2 := by simp [hstop, Expr.assembly]
      exact hb.read_follows hσ hold.1
  | assign name value s ih =>
      rw [Expr.assembly, Compiled.holds_append] at hold
      refine (ih hσ hold.1 rfl).bind fun v w₁ h₁ => ?_
      refine (hb.assign_follows ((value.scope_eval h₁).trans hσ) hold.2.1).bind fun _ w₂ _ => ?_
      obtain rfl : stop = o + (value.assembly σ h).size + 2 := by simp [hstop, Expr.assembly, Nat.add_assoc]
      exact ⟨0, .refl _⟩
  | unary op operand s ih =>
      rw [Expr.assembly, Compiled.holds_append] at hold
      refine (ih hσ hold.1 rfl).bind fun v w₁ h₁ => ?_
      obtain rfl : stop = o + (operand.assembly σ h).size + 1 := by simp [hstop, Expr.assembly, Nat.add_assoc]
      exact hb.unary_follows hold.2.1
  | binary op left right s ihl ihr =>
      rw [Expr.assembly, Compiled.holds_append, Compiled.holds_append] at hold
      obtain ⟨⟨hleft, hright⟩, hline, -⟩ := hold
      refine (ihl hσ hleft rfl).bind fun a w₁ h₁ => ?_
      refine (ihr ((left.scope_eval h₁).trans hσ) hright rfl).bind fun b w₂ h₂ => ?_
      obtain rfl : stop = o + (left.assembly σ h).size + (right.assembly σ (h + 1)).size + 1 := by
        simp [hstop, Expr.assembly, Nat.add_assoc]
      rw [Assembly.size_append, ← Nat.add_assoc] at hline
      exact hb.binary_follows hline
  | logical op left right s ihl ihr =>
      simp only [Expr.assembly, Compiled.holds_append, Compiled.holds_cons, Assembly.size_append, Assembly.size_cons,
        Assembly.size_nil, LogicalOp.size_instr, Instr.size_pop, ← Nat.add_assoc] at hold hstop
      obtain ⟨⟨hleft, hjump, hpop, -⟩, hright⟩ := hold
      have hend := hright.le_size hpop.le_size
      refine (ihl hσ hleft rfl).bind fun a w₁ h₁ => ?_
      cases hd : op.decides a with
      | true =>
          obtain rfl : stop = o + (left.assembly σ h).size + 3 + ((right.assembly σ h).size + 1) := by omega
          exact ⟨1, hb.branch_taken hjump (by omega) hd⟩
      | false =>
          refine (Follows.after (hb.branch_passed hjump (by omega) hpop hd) ?_).mono (Nat.le_add_left k 2)
          exact ihr ((left.scope_eval h₁).trans hσ) hright hstop
  | grouping inner s ih => exact ih hσ hold hstop
  | call callee arguments s => exact hb.trap_follows hold.1

/-! ## Statements -/

theorem Expr.evalInitial_follows {out : Compiled} {base : Machine} (hb : Hosts base out) (k : Nat)
    (value : Option Expr) {w : World} {σ : Scope} {o h stop : Nat} {s : Span} {temps : List Value}
    (hσ : w.blocks.scope = σ) (hold : out.Holds o (Expr.initial σ h s value))
    (hstop : stop = o + (Expr.initial σ h s value).size) :
    Follows base k (w.on base o temps) (fun v w' => w'.on base stop (v :: temps)) (Expr.evalInitial value w) := by
  cases value with
  | none =>
      obtain rfl : stop = o + 1 := by simp [hstop, Expr.initial]
      exact ⟨1, hb.reaches hold.1 rfl⟩
  | some e => exact e.eval_follows hb k hσ hold hstop

namespace Hosts

variable {out : Compiled} {base : Machine} {w : World} {o h k : Nat} {s : Span}

/-- The code of a declaration leaves a local variable on the stack and takes a global from it. -/
theorem declare_follows (hb : Hosts base out) {name : String} {value : Option Expr} {σ : Scope} {stop : Nat}
    (hσ : w.blocks.scope = σ) (hold : out.Holds o (σ.declaration name value s))
    (hstop : stop = o + (σ.declaration name value s).size) :
    Follows base k (w.on base o []) (fun _ w' => w'.on base stop [])
      ((Expr.evalInitial value >>= fun v => Evaluation.declare name v) w) := by
  cases σ with
  | nil =>
      simp only [Scope.declaration, Compiled.holds_append, Compiled.holds_cons, Assembly.size_append,
        Assembly.size_cons, Assembly.size_nil, Instr.size_defineGlobal, ← Nat.add_assoc] at hold hstop
      refine (Expr.evalInitial_follows hb k value hσ hold.1 rfl).bind fun v w₁ h₁ => ?_
      have hempty : w₁.blocks = [] := by
        have := (Expr.scope_evalInitial value h₁).trans hσ
        simpa [Environment.scope] using this
      obtain ⟨globals, blocks, output⟩ := w₁
      cases hempty
      rw [hstop]
      exact ⟨1, hb.reaches hold.2.1 rfl⟩
  | cons names outer =>
      simp only [Scope.declaration] at hold hstop
      refine (Expr.evalInitial_follows hb k value hσ hold hstop).bind fun v w₁ h₁ => ?_
      obtain ⟨block, rest, hblocks⟩ : ∃ block rest, w₁.blocks = block :: rest := by
        have := (Expr.scope_evalInitial value h₁).trans hσ
        obtain ⟨block, rest, hb, -⟩ := List.map_eq_cons_iff.mp this
        exact ⟨block, rest, hb⟩
      obtain ⟨globals, blocks, output⟩ := w₁
      cases hblocks
      exact ⟨0, .refl _⟩

/-- A block that is closed takes its variables from the stack. -/
theorem closeBlock_follows (hb : Hosts base out) {names : List String} {σ : Scope}
    (hσ : w.blocks.scope = names :: σ) (hold : out.Holds o (Assembly.pops s h names.length)) :
    Follows base k (w.on base o []) (fun _ w' => w'.on base (o + names.length) []) (Evaluation.closeBlock w) := by
  obtain ⟨globals, blocks, output⟩ := w
  obtain ⟨block, outer, rfl, hnames, -⟩ := List.map_eq_cons_iff.mp hσ
  have hlen : names.length = (block.map Prod.snd).length := by simp [← hnames]
  rw [hlen] at hold ⊢
  have hpops := @pops out base ⟨globals, outer, output⟩ o h [] s hb (block.map Prod.snd) hold
  rw [List.append_nil, ← World.on_cons] at hpops
  exact ⟨_, hpops⟩

/-- The code of a loop follows it, given that the code of its body, which ends at `o₂`, does. A loop with
`n` rounds that runs out of them takes `n` steps at least, since every round ends with a jump back. -/
theorem loop_follows (hb : Hosts base out) {c : Expr} {body : Evaluation Unit} {σ : Scope}
    {rounds d e o₂ n : Nat} (hc : out.Holds o (c.assembly σ h))
    (hjump : out.HoldsLine (o + (c.assembly σ h).size) ⟨.jumpIfFalse d, s, h + 1⟩)
    (hpop : out.HoldsLine (o + (c.assembly σ h).size + 3) ⟨.pop, s, h + 1⟩)
    (hbody : ∀ w : World, w.blocks.scope = σ → Follows base rounds
      (w.on base (o + (c.assembly σ h).size + 3 + 1) []) (fun _ w' => w'.on base o₂ []) (body w))
    (hscope : ∀ w w', body w = .ok () w' → w'.blocks.scope = w.blocks.scope)
    (hloop : out.HoldsLine o₂ ⟨.loop e, s, h⟩) (hback : o + e = o₂ + 3)
    (hpop' : out.HoldsLine (o₂ + 3) ⟨.pop, s, h + 1⟩) (hout : o₂ + 3 = o + (c.assembly σ h).size + 3 + d)
    (hn : n ≤ rounds) (hσ : w.blocks.scope = σ) :
    Follows base n (w.on base o []) (fun _ w' => w'.on base (o₂ + 3 + 1) [])
      (Evaluation.loop n c.eval body w) := by
  induction n generalizing w with
  | zero => exact ⟨0, _, Nat.le_refl 0, .refl _⟩
  | succ n ih =>
      rw [Evaluation.loop]
      refine (c.eval_follows hb (n + 1) hσ hc rfl).bind fun v w₁ h₁ => ?_
      have hσ₁ := (c.scope_eval h₁).trans hσ
      cases hv : v.truthy with
      | true =>
          have hend := hpop'.le_size
          refine (Follows.after (k := n) (hb.condition_true hjump (by omega) hpop hv) ?_).mono (by omega)
          refine ((hbody w₁ hσ₁).mono (by omega)).bind fun _ w₂ h₂ => ?_
          have hnext := Follows.after (hb.loop (w := w₂) hloop hback)
            (ih (Nat.le_of_succ_le hn) ((hscope w₁ w₂ h₂).trans hσ₁))
          exact hnext.mono (Nat.le_add_left n 1)
      | false => exact ⟨2, hb.condition_false hjump hout hpop' hv⟩

end Hosts

mutual

/-- The code of a statement follows its execution. -/
theorem Stmt.exec_follows {out : Compiled} {base : Machine} (hb : Hosts base out) (rounds : Nat) (s : Stmt)
    (hs : s.wellFormed = true) {w : World} {σ : Scope} {o stop : Nat} (hσ : w.blocks.scope = σ)
    (hold : out.Holds o (s.assembly σ)) (hstop : stop = o + (s.assembly σ).size) :
    Follows base rounds (w.on base o []) (fun _ w' => w'.on base stop []) (s.exec rounds w) := by
  cases s with
  | expression e s =>
      simp only [Stmt.assembly, Compiled.holds_append, Compiled.holds_cons, Assembly.size_append, Assembly.size_cons,
        Assembly.size_nil, Instr.size_pop, ← Nat.add_assoc] at hold hstop
      rw [Stmt.exec]
      refine (e.eval_follows hb rounds hσ hold.1 rfl).bind fun v w₁ h₁ => ?_
      rw [hstop]
      exact ⟨1, hb.pop hold.2.1⟩
  | print e s =>
      simp only [Stmt.assembly, Compiled.holds_append, Compiled.holds_cons, Assembly.size_append, Assembly.size_cons,
        Assembly.size_nil, Instr.size_print, ← Nat.add_assoc] at hold hstop
      rw [Stmt.exec]
      refine (e.eval_follows hb rounds hσ hold.1 rfl).bind fun v w₁ h₁ => ?_
      rw [hstop]
      exact ⟨1, hb.print hold.2.1⟩
  | var name value s =>
      rw [Stmt.assembly] at hold hstop
      rw [Stmt.exec]
      exact hb.declare_follows hσ hold hstop
  | block body s =>
      rw [Stmt.wellFormed] at hs
      rw [Stmt.assembly, Compiled.holds_append] at hold
      rw [Stmt.assembly, Assembly.size_append, Assembly.size_pops, ← Nat.add_assoc] at hstop
      have hopen : Evaluation.openBlock w = .ok () { w with blocks := [] :: w.blocks } := rfl
      have hσ₁ : Environment.scope ([] :: w.blocks) = [] :: σ := by rw [← hσ]; rfl
      rw [Stmt.exec, apply_bind_of_ok hopen]
      have hfollows :=
        Stmt.execAll_follows hb rounds body hs (w := { w with blocks := [] :: w.blocks }) hσ₁ hold.1 rfl
      refine hfollows.bind fun _ w₁ h₁ => ?_
      have hσ₂ := Stmt.scope_execAll rounds body hs h₁
      rw [hσ₁, Scope.extend, List.append_nil] at hσ₂
      rw [hstop]
      exact hb.closeBlock_follows hσ₂ hold.2
  | ifElse c t e s =>
      rw [Stmt.wellFormed, Bool.and_eq_true, Bool.and_eq_true, Bool.not_eq_true'] at hs
      obtain ⟨⟨htv, htw⟩, hew⟩ := hs
      simp only [Stmt.assembly, Stmt.declared_of_wellFormed t htw htv, Scope.extend_nil, Compiled.holds_append,
        Compiled.holds_cons, Assembly.size_append, Assembly.size_cons, Assembly.size_nil, Instr.size_pop,
        Instr.size_jumpIfFalse, Instr.size_jump, ← Nat.add_assoc, Nat.add_zero] at hold hstop
      obtain ⟨⟨⟨⟨hc, hjump, hpop, -⟩, ht⟩, hskip, hpop', -⟩, he⟩ := hold
      have hend := he.le_size hpop'.le_size
      rw [Stmt.exec]
      refine (c.eval_follows hb rounds hσ hc rfl).bind fun v w₁ h₁ => ?_
      have hσ₁ := (c.scope_eval h₁).trans hσ
      cases hv : v.truthy with
      | true =>
          refine (Follows.after (hb.condition_true hjump (by omega) hpop hv) ?_).mono (Nat.le_add_left rounds 2)
          refine (Stmt.exec_follows hb rounds t htw hσ₁ ht rfl).before fun _ w₂ => ⟨1, ?_⟩
          exact hb.jump hskip (by omega) (by omega)
      | false =>
          have hfalse := Follows.after (hb.condition_false (w := w₁) hjump (by omega) hpop' hv)
            (Stmt.execElse_follows hb rounds e hew hσ₁ he hstop)
          exact hfalse.mono (Nat.le_add_left rounds 2)
  | whileLoop c body s =>
      rw [Stmt.wellFormed, Bool.and_eq_true, Bool.not_eq_true'] at hs
      simp only [Stmt.assembly, Compiled.holds_append,
        Compiled.holds_cons, Assembly.size_append, Assembly.size_cons, Assembly.size_nil, Instr.size_pop,
        Instr.size_jumpIfFalse, Instr.size_loop, ← Nat.add_assoc, Nat.add_zero] at hold hstop
      obtain ⟨⟨⟨hc, hjump, hpop, -⟩, hbody⟩, hloop, hpop', -⟩ := hold
      have hscope : ∀ w w' : World, body.exec rounds w = .ok () w' → w'.blocks.scope = w.blocks.scope := by
        intro w w' h
        rw [Stmt.scope_exec rounds body hs.2 h, Stmt.declared_of_wellFormed body hs.2 hs.1, Scope.extend_nil]
      rw [Stmt.exec, hstop]
      exact hb.loop_follows hc hjump hpop
        (fun w hσ => Stmt.exec_follows hb rounds body hs.2 hσ hbody rfl) hscope hloop (by omega) hpop' (by omega)
        (Nat.le_refl rounds) hσ
  | function name parameters body s =>
      rw [Stmt.assembly] at hold
      rw [Stmt.exec]
      exact hb.trap_follows hold.1
  | returns value s =>
      rw [Stmt.assembly] at hold
      rw [Stmt.exec]
      exact hb.trap_follows hold.1

theorem Stmt.execElse_follows {out : Compiled} {base : Machine} (hb : Hosts base out) (rounds : Nat)
    (e : Option Stmt) (he : Stmt.wellFormedElse e = true) {w : World} {σ : Scope} {o stop : Nat}
    (hσ : w.blocks.scope = σ) (hold : out.Holds o (Stmt.assemblyElse σ e))
    (hstop : stop = o + (Stmt.assemblyElse σ e).size) :
    Follows base rounds (w.on base o []) (fun _ w' => w'.on base stop []) (Stmt.execElse rounds e w) := by
  cases e with
  | none =>
      rw [Stmt.execElse]
      obtain rfl : stop = o := by simpa [Stmt.assemblyElse] using hstop
      exact ⟨0, .refl _⟩
  | some s =>
      rw [Stmt.wellFormedElse, Bool.and_eq_true] at he
      rw [Stmt.assemblyElse] at hold hstop
      rw [Stmt.execElse]
      exact Stmt.exec_follows hb rounds s he.2 hσ hold hstop

theorem Stmt.execAll_follows {out : Compiled} {base : Machine} (hb : Hosts base out) (rounds : Nat)
    (body : List Stmt) (hw : Stmt.wellFormedAll body = true) {w : World} {σ : Scope} {o stop : Nat}
    (hσ : w.blocks.scope = σ) (hold : out.Holds o (Stmt.assemblyAll σ body))
    (hstop : stop = o + (Stmt.assemblyAll σ body).size) :
    Follows base rounds (w.on base o []) (fun _ w' => w'.on base stop []) (Stmt.execAll rounds body w) := by
  cases body with
  | nil =>
      rw [Stmt.execAll]
      obtain rfl : stop = o := by simpa [Stmt.assemblyAll] using hstop
      exact ⟨0, .refl _⟩
  | cons s rest =>
      rw [Stmt.wellFormedAll, Bool.and_eq_true] at hw
      rw [Stmt.assemblyAll, Compiled.holds_append] at hold
      rw [Stmt.assemblyAll, Assembly.size_append, ← Nat.add_assoc] at hstop
      rw [Stmt.execAll]
      refine (Stmt.exec_follows hb rounds s hw.1 hσ hold.1 rfl).bind fun _ w₁ h₁ => ?_
      have hσ₁ : w₁.blocks.scope = σ.extend s.declared := by rw [Stmt.scope_exec rounds s hw.1 h₁, hσ]
      exact Stmt.execAll_follows hb rounds rest hw.2 hσ₁ hold.2 hstop

end

/-! ## Programs -/

/-- A sink that accepts all output and never fails to pass it on. -/
structure Sink.NeverFails (s : Sink) : Prop where
  limit : s.limit = none
  flush : s.flushFails = false

theorem Sink.NeverFails.eq {s : Sink} (h : s.NeverFails) : s = { written := s.written ++ .empty } := by
  obtain ⟨written, limit, flushFails⟩ := s
  obtain ⟨hlimit, hflush⟩ := h
  cases hlimit
  cases hflush
  simp

/-- How a run of the machine ends. A fault other than the trap is no end of a program. -/
def Outcome.of? : EStateM.Result Failure Machine Unit → Option Outcome
  | .ok _ _ => some .success
  | .error (.runtime e) _ => some (.error e)
  | .error (.fault (.trap _)) _ => some .trap
  | .error (.fault _) _ => none

def Machine.left : EStateM.Result Failure Machine Unit → Machine
  | .ok _ m => m
  | .error _ m => m

/-- The end of a run that was started with the machine `m` shows a behaviour: the outcome, the globals, and
the output written behind what the sink held before. -/
structure Shows (m : Machine) (r : EStateM.Result Failure Machine Unit) (b : Behaviour) : Prop where
  outcome : Outcome.of? r = some b.outcome
  globals : (Machine.left r).globals = b.globals
  output : (Machine.left r).sink.written = m.sink.written ++ b.output

section Programs

variable {p : Program} {out : Compiled} {m : Machine}

/-- The machine that has loaded a program stands for the world the program starts in. -/
theorem World.on_loaded (m : Machine) (out : Compiled) :
    World.on { globals := m.globals } (m.loaded out) out.start [] = m.loaded out := by
  have happend : m.sink.written ++ ByteArray.empty = m.sink.written := by simp
  simp only [World.on, Machine.loaded, happend]
  rfl

/-- The code of a program follows the program from beginning to end. -/
theorem Program.follows (hp : p.WellFormed) (h : out.Carries p.assembly) (hm : m.sink.NeverFails) (rounds : Nat) :
    Follows (m.loaded out) rounds (m.loaded out) (fun _ w => w.on (m.loaded out) out.code.size [])
      (Stmt.execAll rounds p { globals := m.globals }) := by
  have hb : Hosts (m.loaded out) out := ⟨m.loaded_runs out, h.sound, hm.limit⟩
  have hfollows := Stmt.execAll_follows hb rounds p hp (w := { globals := m.globals }) rfl h.holds h.size_code
  rwa [World.on_loaded] at hfollows

theorem Machine.run_of_atEnd (hend : m.reader.atEnd = true) (hm : m.sink.flushFails = false) (fuel : Nat) :
    run (fuel + 1) m = .ended (.ok () m) := by
  rw [run, hend, if_pos rfl, Execution.flush, Sink.flush, hm]
  rfl

/-- A program that has a behaviour shows it when its code is executed. -/
theorem Program.shows_of_behaviour (hp : p.WellFormed) (h : out.Carries p.assembly) (hm : m.sink.NeverFails)
    {rounds : Nat} {b : Behaviour} (hbehaviour : p.behaviour? rounds m.globals = some b) :
    ∃ fuel r, Machine.run fuel (m.loaded out) = .ended r ∧ Shows m r b := by
  have hfollows := Program.follows hp h hm rounds
  unfold Program.behaviour? at hbehaviour
  rcases hr : Stmt.execAll rounds p { globals := m.globals } with ⟨_, w⟩ | ⟨e | _ | _, w⟩
  · rw [hr] at hfollows hbehaviour
    obtain rfl := Option.some.inj hbehaviour
    obtain ⟨n, hn⟩ := hfollows
    have hend : (w.on (m.loaded out) out.code.size []).reader.atEnd = true :=
      decide_eq_true (Nat.le_refl out.code.size)
    exact ⟨n + 1, _, (hn 1).trans (Machine.run_of_atEnd hend hm.flush 0), rfl, rfl, rfl⟩
  · rw [hr] at hfollows hbehaviour
    obtain rfl := Option.some.inj hbehaviour
    obtain ⟨m', ⟨n, hn⟩, hshown⟩ := hfollows
    exact ⟨n, _, hn 0, rfl, hshown.globals, congrArg Sink.written hshown.sink⟩
  · rw [hr] at hfollows hbehaviour
    obtain rfl := Option.some.inj hbehaviour
    obtain ⟨o, m', ⟨n, hn⟩, hshown⟩ := hfollows
    exact ⟨n, _, hn 0, rfl, hshown.globals, congrArg Sink.written hshown.sink⟩
  · rw [hr] at hbehaviour
    cases hbehaviour

/-- A program that is exhausted keeps the machine busy for as many steps as it had rounds. -/
theorem Program.running_of_exhausted (hp : p.WellFormed) (h : out.Carries p.assembly) (hm : m.sink.NeverFails)
    {rounds : Nat} (hbehaviour : p.behaviour? rounds m.globals = none) :
    ∃ fuel m', rounds ≤ fuel ∧ Machine.run fuel (m.loaded out) = .running m' := by
  have hfollows := Program.follows hp h hm rounds
  unfold Program.behaviour? at hbehaviour
  rcases hr : Stmt.execAll rounds p { globals := m.globals } with ⟨_, w⟩ | ⟨e | _ | _, w⟩
  all_goals rw [hr] at hfollows hbehaviour
  · cases hbehaviour
  · cases hbehaviour
  · cases hbehaviour
  · obtain ⟨n, m', hn, hreach⟩ := hfollows
    exact ⟨n, m', hn, hreach 0⟩

/-- The code of a program ends just when the program does, and then it shows the same: the same outcome, the
same globals and the same output. -/
theorem compile_preserves_behaviour (hp : p.WellFormed) (hc : compile p = .ok out) (hm : m.sink.NeverFails) :
    ((∃ fuel r, m.execute fuel out.code out.spans = .ended r) ↔
        ∃ rounds b, p.behaviour? rounds m.globals = some b) ∧
      ∀ fuel r rounds b, m.execute fuel out.code out.spans = .ended r →
        p.behaviour? rounds m.globals = some b → Shows m r b := by
  have h := compile_carries hc
  simp only [h.execute_eq m]
  refine ⟨⟨?_, ?_⟩, ?_⟩
  · rintro ⟨fuel, r, hrun⟩
    cases hb : p.behaviour? fuel m.globals with
    | some b => exact ⟨fuel, b, hb⟩
    | none =>
        obtain ⟨n, m', hle, hrunning⟩ := Program.running_of_exhausted hp h hm hb
        have hended := Machine.run_add_of_ended hrun (n - fuel)
        rw [Nat.add_sub_cancel' hle, hrunning] at hended
        cases hended
  · rintro ⟨rounds, b, hb⟩
    obtain ⟨fuel, r, hrun, -⟩ := Program.shows_of_behaviour hp h hm hb
    exact ⟨fuel, r, hrun⟩
  · intro fuel r rounds b hrun hb
    obtain ⟨fuel', r', hrun', hshows⟩ := Program.shows_of_behaviour hp h hm hb
    have h₁ := Machine.run_add_of_ended hrun fuel'
    have h₂ := Machine.run_add_of_ended hrun' fuel
    rw [Nat.add_comm, h₂] at h₁
    obtain rfl := Progress.ended.inj h₁
    exact hshows

end Programs

def Program.oneRound : Program :=
  [.var "n" (some (.literal (.boolean true) {})) {},
    .block
      [.var "x" (some (.literal (.string "a") {})) {},
        .whileLoop
          (.logical .and (.var "n" {}) (.binary .equal (.var "x" {}) (.literal (.string "a") {}) {}) {})
          (.block
            [.print (.var "x" {}) {}, .expression (.assign "n" (.literal (.boolean false) {}) {}) {}] {})
          {}]
      {}]

theorem compile_preserves_behaviour_oneRound :
    ∃ out fuel r b, compile Program.oneRound = .ok out ∧
      Machine.execute fuel out.code out.spans {} = .ended r ∧ Shows {} r b ∧ b.output.toList = [97, 10] := by
  have hb : (Program.oneRound.behaviour? 2 {}).map (·.output.toList) = some [97, 10] := by decide +kernel
  obtain ⟨b, hb, houtput⟩ := Option.map_eq_some_iff.mp hb
  have hok : (compile Program.oneRound).isOk = true := by decide +kernel
  cases hc : compile Program.oneRound with
  | error e => rw [hc] at hok; cases hok
  | ok out =>
      have hm : ({} : Machine).sink.NeverFails := ⟨rfl, rfl⟩
      obtain ⟨hends, hshows⟩ := compile_preserves_behaviour (by decide) hc hm
      obtain ⟨fuel, r, hrun⟩ := hends.mpr ⟨2, b, hb⟩
      exact ⟨out, fuel, r, b, rfl, hrun, hshows fuel r 2 b hrun hb, houtput⟩

end Lox
