import Lox.Proofs.Ordering
import Lox.Proofs.Writing
import Lox.Session

/-!
# Spans of programs

Every node of a program that is read from a text has the span of the tokens that it was read from.

* `Expr.Nested`, `Stmt.Nested` : every node contains its children;
* `Expr.nested_spanned`, `SurfaceStmt.nested_tree` : this is so if the spans are those of the tokens;
* `parse_spans` : the spans of a program are those of its tokens.
-/

namespace Lox

/-! ## Spans within spans -/

/-- The second span lies within the first. -/
structure Span.Contains (a b : Span) : Prop where
  start_le : a.start ≤ b.start
  stop_le : b.stop ≤ a.stop

theorem Span.Contains.refl (a : Span) : a.Contains a :=
  ⟨Nat.le_refl _, Nat.le_refl _⟩

/-- A run contains its parts. -/
theorem Token.Ordered.contains_run {ts : List Token} (h : Ordered ts) {i j i' j' : Nat} (hi : i ≤ i') (hij : i' < j')
    (hj : j' ≤ j) (hlen : j ≤ ts.length) : (run ts i j).Contains (run ts i' j') :=
  ⟨h.start_mono hi (by omega), h.stop_mono (by omega) (by omega)⟩

def Expr.children : Expr → List Expr
  | .literal .. | .var .. => []
  | .assign _ value _ => [value]
  | .unary _ operand _ => [operand]
  | .binary _ left right _ => [left, right]
  | .logical _ left right _ => [left, right]
  | .grouping inner _ => [inner]
  | .call callee arguments _ => callee :: arguments

/-- The span of every node of the expression contains those of its children. -/
inductive Expr.Nested : Expr → Prop where
  | intro {e : Expr} (contains : ∀ c ∈ e.children, e.span.Contains c.span) (nested : ∀ c ∈ e.children, Nested c) :
      Nested e

def Stmt.childExpressions : Stmt → List Expr
  | .expression e _ | .print e _ => [e]
  | .var _ initializer _ => initializer.toList
  | .ifElse condition _ _ _ | .whileLoop condition _ _ => [condition]
  | .returns value _ => value.toList
  | .block .. | .function .. => []

def Stmt.children : Stmt → List Stmt
  | .block body _ | .function _ _ body _ => body
  | .ifElse _ thenBranch elseBranch _ => thenBranch :: elseBranch.toList
  | .whileLoop _ body _ => [body]
  | .expression .. | .print .. | .var .. | .returns .. => []

inductive Stmt.Nested : Stmt → Prop where
  | intro {d : Stmt} (expressions : ∀ e ∈ d.childExpressions, d.span.Contains e.span ∧ e.Nested)
      (contains : ∀ c ∈ d.children, d.span.Contains c.span) (nested : ∀ c ∈ d.children, Nested c) : Nested d

/-! ## Expressions -/

namespace Expr

/-- Induction over expressions, all children of a node at once. -/
theorem children_induction {motive : Expr → Prop} (h : ∀ e : Expr, (∀ c ∈ e.children, motive c) → motive e) (e : Expr) :
    motive e := by
  induction e with
  | literal v s => exact h _ (List.forall_mem_nil _)
  | var name s => exact h _ (List.forall_mem_nil _)
  | assign name value s ih => exact h _ (List.forall_mem_singleton.mpr ih)
  | unary op operand s ih => exact h _ (List.forall_mem_singleton.mpr ih)
  | binary op left right s ihl ihr => exact h _ (List.forall_mem_cons.mpr ⟨ihl, List.forall_mem_singleton.mpr ihr⟩)
  | logical op left right s ihl ihr => exact h _ (List.forall_mem_cons.mpr ⟨ihl, List.forall_mem_singleton.mpr ihr⟩)
  | grouping inner s ih => exact h _ (List.forall_mem_singleton.mpr ih)
  | call callee arguments s ihc iha => exact h _ (List.forall_mem_cons.mpr ⟨ihc, iha⟩)

variable {run : Nat → Nat → Span} {c : Expr}

theorem mem_spannedAll {es : List Expr} {i : Nat} (hc : c ∈ spannedAll run i es) :
    ∃ e ∈ es, ∃ j, i ≤ j ∧ j + e.width ≤ i + (spellingAll es).length ∧ c = e.spanned run j := by
  induction es generalizing i with
  | nil => cases hc
  | cons e rest ih =>
      have hlength : e.width ≤ (spellingAll (e :: rest)).length ∧
          (rest ≠ [] → e.width + 1 + (spellingAll rest).length = (spellingAll (e :: rest)).length) := by
        cases rest with
        | nil => exact ⟨Nat.le_refl _, fun h => absurd rfl h⟩
        | cons e' rest =>
            rw [spellingAll, List.length_append, List.length_cons, width]
            omega
      rw [spannedAll] at hc
      rcases List.mem_cons.mp hc with rfl | hc
      · exact ⟨e, List.mem_cons_self .., i, Nat.le_refl _, by omega, rfl⟩
      · obtain ⟨e', he', j, hij, hj, rfl⟩ := ih hc
        have hrest := hlength.2 (List.ne_nil_of_mem he')
        exact ⟨e', List.mem_cons_of_mem _ he', j, by omega, by omega, rfl⟩

/-- The tokens of a child are among those of the expression. -/
theorem mem_children_spanned {e : Expr} {i : Nat} (hc : c ∈ (e.spanned run i).children) :
    ∃ e' ∈ e.children, ∃ j, i ≤ j ∧ j + e'.width ≤ i + e.width ∧ c = e'.spanned run j := by
  cases e with
  | literal v s => rw [spanned] at hc; cases hc
  | var name s => rw [spanned] at hc; cases hc
  | assign name value s =>
      rw [spanned] at hc
      obtain rfl := List.mem_singleton.mp hc
      exact ⟨value, List.mem_singleton_self _, i + 2, by omega, by rw [width_assign]; omega, rfl⟩
  | unary op operand s =>
      rw [spanned] at hc
      obtain rfl := List.mem_singleton.mp hc
      exact ⟨operand, List.mem_singleton_self _, i + 1, by omega, by rw [width_unary]; omega, rfl⟩
  | grouping inner s =>
      rw [spanned] at hc
      obtain rfl := List.mem_singleton.mp hc
      exact ⟨inner, List.mem_singleton_self _, i + 1, by omega, by rw [width_grouping]; omega, rfl⟩
  | binary op left right s =>
      have hwidth : (Expr.binary op left right s).width = left.width + 1 + right.width := op.connects.width ..
      rw [spanned] at hc
      rcases List.mem_cons.mp hc with rfl | hc
      · exact ⟨left, List.mem_cons_self .., i, Nat.le_refl _, by omega, rfl⟩
      · obtain rfl := List.mem_singleton.mp hc
        exact ⟨right, List.mem_cons_of_mem _ (List.mem_singleton_self _), i + left.width + 1, by omega, by omega, rfl⟩
  | logical op left right s =>
      have hwidth : (Expr.logical op left right s).width = left.width + 1 + right.width := op.connects.width ..
      rw [spanned] at hc
      rcases List.mem_cons.mp hc with rfl | hc
      · exact ⟨left, List.mem_cons_self .., i, Nat.le_refl _, by omega, rfl⟩
      · obtain rfl := List.mem_singleton.mp hc
        exact ⟨right, List.mem_cons_of_mem _ (List.mem_singleton_self _), i + left.width + 1, by omega, by omega, rfl⟩
  | call callee arguments s =>
      rw [spanned] at hc
      rw [width_call]
      rcases List.mem_cons.mp hc with rfl | hc
      · exact ⟨callee, List.mem_cons_self .., i, Nat.le_refl _, by omega, rfl⟩
      · obtain ⟨e', he', j, hij, hj, rfl⟩ := mem_spannedAll hc
        exact ⟨e', List.mem_cons_of_mem _ he', j, by omega, by omega, rfl⟩

variable {ts : List Token}

/-- A run contains an expression within it. -/
theorem contains_spanned (hts : Token.Ordered ts) {e : Expr} {i j k : Nat} (hi : i ≤ j) (hj : j + e.width ≤ k)
    (hk : k ≤ ts.length) : (Token.run ts i k).Contains (e.spanned (Token.run ts) j).span := by
  have hpos := e.width_pos
  rw [span_spanned]
  exact hts.contains_run hi (by omega) hj hk

theorem nested_spanned (hts : Token.Ordered ts) (e : Expr) {i : Nat} (hi : i + e.width ≤ ts.length) :
    (e.spanned (Token.run ts) i).Nested := by
  induction e using children_induction generalizing i with
  | h e ih =>
      refine .intro (fun c hc => ?_) (fun c hc => ?_)
      · obtain ⟨e', -, j, hij, hj, rfl⟩ := mem_children_spanned hc
        rw [span_spanned _ i]
        exact contains_spanned hts hij hj hi
      · obtain ⟨e', he', j, hij, hj, rfl⟩ := mem_children_spanned hc
        exact ih e' he' (by omega)

/-- A run contains an expression within it that may be missing. -/
theorem nested_option (hts : Token.Ordered ts) {value : Option Expr} {i j k : Nat} (hi : i ≤ j)
    (hj : j + (spellingOption [] value).length ≤ k) (hk : k ≤ ts.length) :
    ∀ e ∈ value.map (·.spanned (Token.run ts) j), (Token.run ts i k).Contains e.span ∧ e.Nested := by
  intro e he
  cases value with
  | none => cases he
  | some e' =>
      obtain rfl := Option.some.inj he
      rw [spellingOption, List.nil_append, ← width] at hj
      exact ⟨contains_spanned hts hi hj hk, nested_spanned hts e' (by omega)⟩

end Expr

/-! ## Branches and loops -/

namespace Stmt

theorem span_forLoop (initializer : Option Stmt) (condition step : Option Expr) (body : Stmt) (span : Span) :
    (Stmt.forLoop initializer condition step body span).span = span := by
  cases initializer <;> rfl

variable {span : Span}

theorem nested_pair {d d' : Stmt} (h : span.Contains d.span ∧ d.Nested) (h' : span.Contains d'.span ∧ d'.Nested) :
    (Stmt.block [d, d'] span).Nested :=
  .intro (List.forall_mem_nil _) (List.forall_mem_cons.mpr ⟨h.1, List.forall_mem_singleton.mpr h'.1⟩)
    (List.forall_mem_cons.mpr ⟨h.2, List.forall_mem_singleton.mpr h'.2⟩)

theorem nested_whileLoop {test : Expr} {body : Stmt} (htest : span.Contains test.span ∧ test.Nested)
    (hbody : span.Contains body.span ∧ body.Nested) : (Stmt.whileLoop test body span).Nested :=
  .intro (List.forall_mem_singleton.mpr htest) (List.forall_mem_singleton.mpr hbody.1)
    (List.forall_mem_singleton.mpr hbody.2)

theorem nested_ifElse {test : Expr} {thenBranch : Stmt} {elseBranch : Option Stmt}
    (htest : span.Contains test.span ∧ test.Nested) (hthen : span.Contains thenBranch.span ∧ thenBranch.Nested)
    (helse : ∀ d ∈ elseBranch, span.Contains d.span ∧ d.Nested) :
    (Stmt.ifElse test thenBranch elseBranch span).Nested :=
  .intro (List.forall_mem_singleton.mpr htest)
    (List.forall_mem_cons.mpr ⟨hthen.1, fun d hd => (helse d (Option.mem_toList.mp hd)).1⟩)
    (List.forall_mem_cons.mpr ⟨hthen.2, fun d hd => (helse d (Option.mem_toList.mp hd)).2⟩)

/-- The nodes that a loop does not spell have its span, and what it spells lies within that. -/
theorem nested_forLoop {initializer : Option Stmt} {condition step : Option Expr} {body : Stmt}
    (hinitializer : ∀ d ∈ initializer, span.Contains d.span ∧ d.Nested)
    (hcondition : ∀ e ∈ condition, span.Contains e.span ∧ e.Nested)
    (hstep : ∀ e ∈ step, span.Contains e.span ∧ e.Nested) (hbody : span.Contains body.span ∧ body.Nested) :
    (Stmt.forLoop initializer condition step body span).Nested := by
  have htest : span.Contains (condition.getD (.literal (.boolean true) span)).span ∧
      (condition.getD (.literal (.boolean true) span)).Nested := by
    cases condition with
    | none => exact ⟨.refl span, .intro (List.forall_mem_nil _) (List.forall_mem_nil _)⟩
    | some e => exact hcondition e rfl
  have hloop : (Stmt.forLoop none condition step body span).Nested := by
    cases step with
    | none => exact nested_whileLoop htest hbody
    | some e =>
        obtain ⟨hspan, hnested⟩ := hstep e rfl
        have hexpression : (Stmt.expression e e.span).Nested :=
          .intro (List.forall_mem_singleton.mpr ⟨.refl _, hnested⟩) (List.forall_mem_nil _) (List.forall_mem_nil _)
        exact nested_whileLoop htest ⟨.refl span, nested_pair hbody ⟨hspan, hexpression⟩⟩
  cases initializer with
  | none => exact hloop
  | some d => exact nested_pair (hinitializer d rfl) ⟨.refl span, hloop⟩

end Stmt

/-! ## Statements -/

section Statements

variable {ts : List Token}

namespace SimpleStmt

theorem span_tree (run : Nat → Nat → Span) (i : Nat) (c : SimpleStmt) : (c.tree run i).span = run i (i + c.width) := by
  cases c <;> rfl

theorem nested_tree (hts : Token.Ordered ts) (c : SimpleStmt) {i : Nat} (hi : i + c.width ≤ ts.length) :
    (c.tree (Token.run ts) i).Nested := by
  have hexpression : ∀ (e : Expr) (j : Nat), i ≤ j → j + e.width ≤ i + c.width →
      (c.tree (Token.run ts) i).span.Contains (e.spanned (Token.run ts) j).span ∧
        (e.spanned (Token.run ts) j).Nested := by
    intro e j hij hj
    rw [span_tree]
    exact ⟨Expr.contains_spanned hts hij hj hi, Expr.nested_spanned hts e (by omega)⟩
  cases c with
  | expression e =>
      refine .intro (List.forall_mem_singleton.mpr ?_) (List.forall_mem_nil _) (List.forall_mem_nil _)
      exact hexpression e i (Nat.le_refl _) (by rw [width_expression]; omega)
  | print e =>
      refine .intro (List.forall_mem_singleton.mpr ?_) (List.forall_mem_nil _) (List.forall_mem_nil _)
      exact hexpression e (i + 1) (by omega) (by rw [width_print]; omega)
  | var name value =>
      refine .intro (fun e he => ?_) (List.forall_mem_nil _) (List.forall_mem_nil _)
      cases value with
      | none => cases he
      | some value =>
          obtain rfl := List.mem_singleton.mp he
          refine hexpression value (i + 3) (by omega) ?_
          rw [width_var, Expr.spellingOption, List.length_append, List.length_singleton, Expr.width]
          omega
  | returns value =>
      refine .intro (fun e he => ?_) (List.forall_mem_nil _) (List.forall_mem_nil _)
      cases value with
      | none => cases he
      | some value =>
          obtain rfl := List.mem_singleton.mp he
          refine hexpression value (i + 1) (by omega) ?_
          rw [width_returns, Expr.spellingOption, List.nil_append, Expr.width]
          omega

end SimpleStmt

namespace SurfaceStmt

theorem span_tree (run : Nat → Nat → Span) (i : Nat) (f : SurfaceStmt) : (f.tree run i).span = run i (i + f.width) := by
  cases f with
  | simple c => rw [tree, SimpleStmt.span_tree, width_simple]
  | forLoop initializer condition step body => rw [tree]; exact Stmt.span_forLoop ..
  | _ => rw [tree]; rfl

theorem mem_treeAll {run : Nat → Nat → Span} {d : Stmt} {fs : List SurfaceStmt} {i : Nat} (hd : d ∈ treeAll run i fs) :
    ∃ f ∈ fs, ∃ j, i ≤ j ∧ j + f.width ≤ i + (spellingAll fs).length ∧ d = f.tree run j := by
  induction fs generalizing i with
  | nil => cases hd
  | cons f rest ih =>
      have hlength : (spellingAll (f :: rest)).length = f.width + (spellingAll rest).length := by
        rw [spellingAll, List.length_append, width]
      rw [treeAll] at hd
      rcases List.mem_cons.mp hd with rfl | hd
      · exact ⟨f, List.mem_cons_self .., i, Nat.le_refl _, by omega, rfl⟩
      · obtain ⟨f', hf', j, hij, hj, rfl⟩ := ih hd
        exact ⟨f', List.mem_cons_of_mem _ hf', j, by omega, by omega, rfl⟩

/-- A run contains a statement within it. -/
theorem contains_tree (hts : Token.Ordered ts) {f : SurfaceStmt} {i j k : Nat} (hi : i ≤ j) (hj : j + f.width ≤ k)
    (hk : k ≤ ts.length) : (Token.run ts i k).Contains (f.tree (Token.run ts) j).span := by
  have hpos := f.width_pos
  rw [span_tree]
  exact hts.contains_run hi (by omega) hj hk

/-- Statements in turn within a run. -/
theorem nested_treeAll (hts : Token.Ordered ts) {fs : List SurfaceStmt}
    (ih : ∀ f ∈ fs, ∀ {i : Nat}, i + f.width ≤ ts.length → (f.tree (Token.run ts) i).Nested) {i j k : Nat} (hi : i ≤ j)
    (hj : j + (spellingAll fs).length ≤ k) (hk : k ≤ ts.length) :
    ∀ d ∈ treeAll (Token.run ts) j fs, (Token.run ts i k).Contains d.span ∧ d.Nested := by
  intro d hd
  obtain ⟨f, hf, j', hjj', hj', rfl⟩ := mem_treeAll hd
  exact ⟨contains_tree hts (by omega) (by omega) hk, ih f hf (by omega)⟩

/-- **If the nodes of a statement have the spans of their tokens, they contain their children.** -/
theorem nested_tree (hts : Token.Ordered ts) (f : SurfaceStmt) {i : Nat} (hi : i + f.width ≤ ts.length) :
    (f.tree (Token.run ts) i).Nested := by
  induction f generalizing i with
  | simple c =>
      rw [width_simple] at hi
      rw [tree]
      exact c.nested_tree hts hi
  | block body ih =>
      have hbody := nested_treeAll hts ih (i := i) (j := i + 1) (k := i + (block body).width) (by omega)
        (by rw [width_block]; omega) hi
      rw [tree]
      exact .intro (List.forall_mem_nil _) (fun d hd => (hbody d hd).1) (fun d hd => (hbody d hd).2)
  | function name parameters body ih =>
      have hbody := nested_treeAll hts ih (i := i) (j := i + 3 + (spellingNames parameters).length + 2)
        (k := i + (function name parameters body).width) (by omega) (by rw [width_function]; omega) hi
      rw [tree]
      exact .intro (List.forall_mem_nil _) (fun d hd => (hbody d hd).1) (fun d hd => (hbody d hd).2)
  | whileLoop condition body ih =>
      have hwidth : (whileLoop condition body).width = _ := width_whileLoop
      rw [tree]
      exact Stmt.nested_whileLoop
        ⟨Expr.contains_spanned hts (by omega) (by omega) hi, Expr.nested_spanned hts condition (by omega)⟩
        ⟨contains_tree hts (by omega) (by omega) hi, ih (by omega)⟩
  | ifElse condition thenBranch elseBranch iht ihe =>
      have hwidth : (ifElse condition thenBranch elseBranch).width = _ := width_ifElse
      rw [tree]
      refine Stmt.nested_ifElse
        ⟨Expr.contains_spanned hts (by omega) (by omega) hi, Expr.nested_spanned hts condition (by omega)⟩
        ⟨contains_tree hts (by omega) (by omega) hi, iht (by omega)⟩ ?_
      intro d hd
      cases elseBranch with
      | none => cases hd
      | some f =>
          rw [spellingElse, List.length_cons, ← width] at hwidth
          obtain rfl := Option.some.inj hd
          exact ⟨contains_tree hts (by omega) (by omega) hi, ihe f rfl (by omega)⟩
  | forLoop initializer condition step body ih =>
      have hwidth : (forLoop initializer condition step body).width = _ := width_forLoop
      rw [tree]
      refine Stmt.nested_forLoop ?_ ?_ ?_ ⟨contains_tree hts (by omega) (by omega) hi, ih (by omega)⟩
      · intro d hd
        cases initializer with
        | none => cases hd
        | some c =>
            obtain rfl := Option.some.inj hd
            have hc : i + 2 + c.width ≤ i + (forLoop (some c) condition step body).width := by
              rw [hwidth, SimpleStmt.spellingInitial, ← SimpleStmt.width]
              omega
            exact ⟨contains_tree hts (f := simple c) (by omega) hc hi, c.nested_tree hts (by omega)⟩
      · exact Expr.nested_option hts (by omega) (by omega) hi
      · exact Expr.nested_option hts (by omega) (by omega) hi

end SurfaceStmt

end Statements

/-! ## Programs -/

theorem ofTokens_of_parse {source : String} {p : Program} (h : parse source = .ok p) :
    ∃ tokens, scan source = .ok tokens ∧ Program.ofTokens tokens = .ok p := by
  unfold parse at h
  split at h
  · cases h
  · rename_i tokens hscan
    split at h
    · cases h
    · rename_i p' hread
      obtain rfl := Except.ok.inj h
      exact ⟨tokens, hscan, hread⟩

/-- **Every node of a program has the span of its tokens.** A program that is read from a text is what canonical
statements stand for that spell its tokens. Every node that is written begins where the first of its tokens does and ends
where the last one does; what a `for` loop stands for has the span of the loop where it has none of its own. The span of
every node contains those of its children. -/
theorem parse_spans {source : String} {p : Program} (h : parse source = .ok p) :
    ∃ fs ts eof, scan source = .ok (ts ++ [eof]) ∧ eof.kind = .eof ∧ SurfaceStmt.canonicalAll fs = true ∧
      SurfaceStmt.spellingAll fs = ts.map (·.kind) ∧ p = SurfaceStmt.treeAll (Token.run ts) 0 fs ∧
      ∀ d ∈ p, d.Nested := by
  obtain ⟨tokens, hscan, hread⟩ := ofTokens_of_parse h
  obtain ⟨fs, s', hspelling, hcanonical, hgives⟩ := Program.ofTokens_written hread
  have htokens : (TokenStream.ofTokens tokens).rest ++ [(TokenStream.ofTokens tokens).stop] = tokens :=
    TokenStream.tokens_of_scan hscan
  have heof := (TokenStream.spells_ofTokens tokens).stop
  have hordered : Token.Ordered (TokenStream.ofTokens tokens).rest :=
    (scan_ordered hscan).1.sublist (List.takeWhile_sublist _)
  have hat : (TokenStream.ofTokens tokens).At (TokenStream.ofTokens tokens).rest 0 :=
    ⟨rfl, fun h => absurd h (Nat.lt_irrefl 0), Nat.zero_le _, heof⟩
  obtain ⟨hat', rfl⟩ := hgives.extent hordered hat
  refine ⟨fs, _, _, hscan.trans (congrArg Except.ok htokens.symm), heof, hcanonical, hspelling, rfl, fun d hd => ?_⟩
  obtain ⟨f, -, j, -, hj, rfl⟩ := SurfaceStmt.mem_treeAll hd
  have hlen := hat'.le
  exact f.nested_tree hordered (by omega)

/-- A loop over two lines, with an operator within parentheses within another. -/
def loopText : String :=
  "for (var i; i; i = g(i))\n  print -(a + b);"

theorem parse_spans_loop :
    ∃ p, parse loopText = .ok p ∧ ∃ fs ts eof, scan loopText = .ok (ts ++ [eof]) ∧ eof.kind = .eof ∧
      SurfaceStmt.canonicalAll fs = true ∧ SurfaceStmt.spellingAll fs = ts.map (·.kind) ∧
      p = SurfaceStmt.treeAll (Token.run ts) 0 fs ∧ ∀ d ∈ p, d.Nested := by
  have hok : (parse loopText).isOk = true := by decide +kernel
  cases h : parse loopText with
  | error e =>
      rw [h] at hok
      cases hok
  | ok p => exact ⟨p, rfl, parse_spans h⟩

end Lox
