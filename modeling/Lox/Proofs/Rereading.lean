import Lox.Proofs.ExpressionCompleteness
import Lox.Proofs.Writing

/-!
# Reading written statements back

A canonical statement, as it is written, is read back from the tokens it spells, whatever their spans are, and what is
read is what it stands for.

* `SurfaceStmt.Read parse room f` : the statement `f` is read back by `parse`, if an `else` does not follow where it would
  belong to `f`;
* `SurfaceStmt.read` : every canonical statement is read back;
* `Program.ofTokens_of_surface` : so is every program made of such statements.
-/

namespace Lox

/-! ## The beginnings of statements -/

def TokenKind.beginsStatement : TokenKind → Bool
  | .reserved r =>
    (TokenKind.reserved r).beginsExpression || r ∈ [.print, .if, .while, .for, .return, .leftBrace]
  | k => k.beginsExpression

/-- Whether a declaration or statement can begin with the token. -/
def TokenKind.beginsDeclaration (k : TokenKind) : Bool :=
  k.beginsStatement || k ∈ [.reserved .var, .reserved .fun]

theorem TokenKind.beginsStatement_of_beginsExpression {k : TokenKind} (hk : k.beginsExpression = true) :
    k.beginsStatement = true := by
  cases k with
  | reserved r => rw [beginsStatement, hk, Bool.true_or]
  | _ => exact hk

namespace SurfaceStmt

theorem spelling_eq_cons (f : SurfaceStmt) :
    ∃ k ks, f.spelling = k :: ks ∧ k.beginsDeclaration = true ∧ (f.isDeclaration = false → k.beginsStatement = true) := by
  cases f with
  | simple c =>
      cases c with
      | expression e =>
          obtain ⟨k, ks, heq, hbegins⟩ := e.spelling_eq_cons
          have hstatement := TokenKind.beginsStatement_of_beginsExpression hbegins
          refine ⟨k, ks ++ [.reserved .semicolon], ?_, ?_, fun _ => hstatement⟩
          · rw [spelling, SimpleStmt.spelling, SimpleStmt.stmt, Stmt.spelling, heq, List.cons_append]
          · rw [TokenKind.beginsDeclaration, hstatement, Bool.true_or]
      | var name value => exact ⟨_, _, rfl, rfl, by simp [isDeclaration, SimpleStmt.stmt, Stmt.isDeclaration]⟩
      | print e => exact ⟨_, _, rfl, rfl, fun _ => rfl⟩
      | returns value => exact ⟨_, _, rfl, rfl, fun _ => rfl⟩
  | function name parameters body => exact ⟨_, _, by rw [spelling]; rfl, rfl, by simp [isDeclaration]⟩
  | _ => exact ⟨_, _, by rw [spelling]; rfl, rfl, fun _ => rfl⟩

theorem head?_spelling_ne (f : SurfaceStmt) (ks : List TokenKind) {k : TokenKind} (hk : k.beginsDeclaration = false) :
    (f.spelling ++ ks).head? ≠ some k := by
  obtain ⟨k', ks', heq, hbegins, -⟩ := f.spelling_eq_cons
  rw [heq, List.cons_append, List.head?_cons]
  rintro ⟨⟩
  rw [hk] at hbegins
  cases hbegins

theorem head?_spellingAll_ne (body : List SurfaceStmt) (ks : List TokenKind) {k : TokenKind}
    (hk : k.beginsDeclaration = false) (hks : ks.head? ≠ some k) : (spellingAll body ++ ks).head? ≠ some k := by
  cases body with
  | nil => exact hks
  | cons f rest =>
      rw [spellingAll, List.append_assoc]
      exact f.head?_spelling_ne _ hk

/-- The end is not where a statement begins. -/
theorem atEnd_of_spells (f : SurfaceStmt) {s : TokenStream} {ks : List TokenKind} (hs : s.Spells (f.spelling ++ ks)) :
    s.atEnd = false := by
  rw [hs.atEnd_eq, List.isEmpty_eq_false_iff]
  exact List.append_ne_nil_of_left_ne_nil (List.length_pos_iff.mp f.width_pos) _

end SurfaceStmt

namespace Parser

variable {n : Nat} {s : TokenStream} {ks : List TokenKind}

theorem statement_of_expression (hk : s.next.kind.beginsExpression = true) :
    statement (n + 1) s = expressionStatement n s := by
  rw [statement, apply_bind_of_ok (peek_apply s)]
  generalize s.next.kind = k at hk
  split <;> first | rfl | cases hk

/-- A declaration that is none of the special ones is a statement. -/
theorem declaration_of_statement {f : SurfaceStmt} (hf : f.isDeclaration = false) (hs : s.Spells (f.spelling ++ ks)) :
    declaration (n + 1) s = statement n s := by
  obtain ⟨k, ks', heq, -, hbegins⟩ := f.spelling_eq_cons
  rw [heq] at hs
  have hk : s.next.kind.beginsStatement = true := by
    rw [hs.next_kind]
    exact hbegins hf
  rw [declaration, apply_bind_of_ok (peek_apply s)]
  generalize s.next.kind = k at hk
  split <;> first | rfl | cases hk

end Parser

/-! ## Phrases of statements -/

namespace Parser

variable {s : TokenStream} {ks : List TokenKind}

theorem condition_read {e : Expr} (he : e.canonical = true) (n : Nat)
    (hs : s.Spells (.reserved .leftParen :: (e.spelling ++ .reserved .rightParen :: ks)))
    (hn : 4 * (e.spelling.length + ks.length) + 6 ≤ n) :
    ∃ e' s', condition n s = .ok e' s' ∧ s'.Spells ks ∧ e'.bare = e.bare := by
  obtain ⟨e', s₁, hexpr, hs₁, hbare⟩ := (e.reached he).reads_whole n hs.tail hn rfl
  unfold condition
  rw [apply_bind_of_ok (expect_apply hs), apply_bind_of_ok hexpr, apply_bind_of_ok (expect_apply hs₁)]
  exact ⟨e', s₁.tail, rfl, hs₁.tail, hbare⟩

theorem optional_read {value : Option Expr} (he : value.all Expr.canonical = true) (n : Nat) {r : Reserved}
    (hr : (TokenKind.reserved r).beginsExpression = false) (hr' : r.continuation? = none)
    (hs : s.Spells (Expr.spellingOption [] value ++ .reserved r :: ks))
    (hn : 4 * ((Expr.spellingOption [] value).length + ks.length) + 6 ≤ n) :
    ∃ value' s', optional n r s = .ok value' s' ∧ s'.Spells (.reserved r :: ks) ∧
      value'.map Expr.bare = value.map Expr.bare := by
  unfold optional
  cases value with
  | none =>
      rw [apply_bind_of_ok (isNext_of_head hs rfl), if_pos rfl]
      exact ⟨none, s, rfl, hs, rfl⟩
  | some e =>
      simp only [Expr.spellingOption, List.nil_append] at hs hn
      obtain ⟨e', s₁, hexpr, hs₁, hbare⟩ := (e.reached he).reads_whole n hs hn hr'
      rw [apply_bind_of_ok (isNext_of_ne hs (e.head?_spelling_ne _ hr)), if_neg Bool.false_ne_true,
        apply_map_of_ok hexpr]
      exact ⟨some e', s₁, rfl, hs₁, congrArg some hbare⟩

theorem varDeclaration_read {name : String} {value : Option Expr} (he : value.all Expr.canonical = true) (n : Nat)
    (hs : s.Spells (.reserved .var :: .identifier name ::
      (Expr.spellingOption [.reserved .equal] value ++ .reserved .semicolon :: ks)))
    (hn : 4 * ((Expr.spellingOption [.reserved .equal] value).length + ks.length) + 6 ≤ n) :
    ∃ value' span s', varDeclaration n s = .ok (.var name value' span) s' ∧ s'.Spells ks ∧
      value'.map Expr.bare = value.map Expr.bare := by
  unfold varDeclaration
  rw [apply_bind_of_ok (take_apply s), apply_bind_of_ok (identifier_apply hs.tail)]
  cases value with
  | none =>
      have hs₁ := hs.tail.tail
      simp only [Expr.spellingOption, List.nil_append] at hs₁
      simp only [apply_bind_of_ok (accept_of_ne (r := .equal) hs₁ (by simp)), Bool.false_eq_true, if_false]
      rw [apply_bind_of_ok (apply_pure _ _), apply_bind_of_ok (expect_apply hs₁)]
      exact ⟨none, _, _, rfl, hs₁.tail, rfl⟩
  | some e =>
      have hs₁ := hs.tail.tail
      simp only [Expr.spellingOption, List.cons_append, List.nil_append, List.length_cons] at hs₁ hn
      obtain ⟨e', s₂, hexpr, hs₂, hbare⟩ := (e.reached he).reads_whole n hs₁.tail (by omega) rfl
      simp only [apply_bind_of_ok (accept_of_head hs₁), if_true]
      rw [apply_bind_of_ok (apply_map_of_ok hexpr), apply_bind_of_ok (expect_apply hs₂)]
      exact ⟨some e', _, _, rfl, hs₂.tail, congrArg some hbare⟩

theorem expressionStatement_read {e : Expr} (he : e.canonical = true) (n : Nat)
    (hs : s.Spells (e.spelling ++ .reserved .semicolon :: ks)) (hn : 4 * (e.spelling.length + ks.length) + 6 ≤ n) :
    ∃ e' span s', expressionStatement n s = .ok (.expression e' span) s' ∧ s'.Spells ks ∧ e'.bare = e.bare := by
  obtain ⟨e', s₁, hexpr, hs₁, hbare⟩ := (e.reached he).reads_whole n hs hn rfl
  unfold expressionStatement
  rw [apply_bind_of_ok hexpr, apply_bind_of_ok (expect_apply hs₁)]
  exact ⟨e', _, _, rfl, hs₁.tail, hbare⟩

theorem forInitializer_read {initializer : Option SimpleStmt}
    (hcanonical : initializer.all (fun c => c.isInitializer && c.stmt.canonical) = true) (n : Nat)
    (hs : s.Spells (SimpleStmt.spellingInitial initializer ++ ks))
    (hn : 4 * ((SimpleStmt.spellingInitial initializer).length + ks.length) + 2 ≤ n) :
    ∃ value s', forInitializer n s = .ok value s' ∧ s'.Spells ks ∧
      value.map Stmt.bare = initializer.map (·.stmt.bare) := by
  unfold forInitializer
  cases initializer with
  | none =>
      rw [apply_bind_of_ok (accept_of_head hs), if_pos rfl]
      exact ⟨none, s.tail, rfl, hs.tail, rfl⟩
  | some c =>
      rw [Option.all_some, Bool.and_eq_true] at hcanonical
      obtain ⟨hinitializer, hcanonical⟩ := hcanonical
      cases c with
      | expression e =>
          simp only [SimpleStmt.spellingInitial, SimpleStmt.spelling, SimpleStmt.stmt, Stmt.spelling, List.append_assoc,
            List.cons_append, List.nil_append, List.length_append, List.length_cons, List.length_nil] at hs hn
          rw [SimpleStmt.stmt, Stmt.canonical] at hcanonical
          obtain ⟨e', span, s', hread, hs', hbare⟩ := expressionStatement_read hcanonical n hs (by omega)
          rw [apply_bind_of_ok (accept_of_ne hs (e.head?_spelling_ne _ rfl)), if_neg Bool.false_ne_true,
            apply_bind_of_ok (isNext_of_ne hs (e.head?_spelling_ne _ rfl)), if_neg Bool.false_ne_true,
            apply_map_of_ok hread]
          refine ⟨_, s', rfl, hs', ?_⟩
          rw [Option.map_some, Option.map_some, Stmt.bare, SimpleStmt.stmt, Stmt.bare, hbare]
      | var name value =>
          simp only [SimpleStmt.spellingInitial, SimpleStmt.spelling, SimpleStmt.stmt, Stmt.spelling, List.append_assoc,
            List.cons_append, List.nil_append, List.length_append, List.length_cons, List.length_nil] at hs hn
          rw [SimpleStmt.stmt, Stmt.canonical] at hcanonical
          obtain ⟨value', span, s', hread, hs', hbare⟩ := varDeclaration_read hcanonical n hs (by omega)
          rw [apply_bind_of_ok (accept_of_ne hs (by simp)), if_neg Bool.false_ne_true,
            apply_bind_of_ok (isNext_of_head hs rfl), if_pos rfl, apply_map_of_ok hread]
          refine ⟨_, s', rfl, hs', ?_⟩
          rw [Option.map_some, Option.map_some, Stmt.bare, SimpleStmt.stmt, Stmt.bare, hbare]
      | print e => cases hinitializer
      | returns value => cases hinitializer

theorem length_le_spellingNames (names : List String) : names.length ≤ (spellingNames names).length := by
  induction names with
  | nil => exact Nat.le_refl _
  | cons name rest ih =>
      cases rest with
      | nil => exact Nat.le_refl _
      | cons name' rest =>
          simp only [spellingNames, List.length_cons] at ih ⊢
          omega

theorem parameters_read {names : List String} (hne : names ≠ []) (n : Nat) (given : Array String)
    (hlen : given.size + names.length ≤ maxArguments)
    (hs : s.Spells (spellingNames names ++ .reserved .rightParen :: ks)) (hn : names.length ≤ n) :
    ∃ s', parameters n given s = .ok (given.toList ++ names) s' ∧ s'.Spells (.reserved .rightParen :: ks) := by
  induction names generalizing n given s with
  | nil => exact absurd rfl hne
  | cons name rest ih =>
      rw [List.length_cons] at hlen hn
      obtain ⟨n, rfl⟩ : ∃ k, n = k + 1 := ⟨n - 1, by omega⟩
      rw [parameters, if_neg (by omega)]
      cases rest with
      | nil =>
          simp only [spellingNames, List.cons_append, List.nil_append] at hs
          rw [apply_bind_of_ok (identifier_apply hs), apply_bind_of_ok (accept_of_ne hs.tail (by simp))]
          exact ⟨s.tail, by simp, hs.tail⟩
      | cons name' rest =>
          simp only [spellingNames, List.cons_append] at hs
          obtain ⟨s', hnames, hs'⟩ := ih (List.cons_ne_nil _ _) n (given.push name) (by rw [Array.size_push]; omega)
            hs.tail.tail (by omega)
          rw [apply_bind_of_ok (identifier_apply hs), apply_bind_of_ok (accept_of_head hs.tail), if_pos rfl, hnames]
          exact ⟨s', by simp, hs'⟩

end Parser

/-! ## Statements -/

/-- The statement is read from its tokens, and what is read is what it stands for. -/
def SurfaceStmt.Read (parse : Nat → Parser Stmt) (room : Nat) (f : SurfaceStmt) : Prop :=
  ∀ (n : Nat) ⦃s : TokenStream⦄ ⦃ks : List TokenKind⦄, s.Spells (f.spelling ++ ks) →
    (f.endsOpen = true → ks.head? ≠ some (.reserved .else)) → 4 * (f.spelling.length + ks.length) + room ≤ n →
    ∃ d s', parse n s = .ok d s' ∧ s'.Spells ks ∧ d.bare = f.meaning

namespace SurfaceStmt

theorem Read.declaration {f : SurfaceStmt} (hf : f.isDeclaration = false) (h : f.Read Parser.statement 3) :
    f.Read Parser.declaration 4 := by
  intro n s ks hs hopen hn
  obtain ⟨n, rfl⟩ : ∃ k, n = k + 1 := ⟨n - 1, by omega⟩
  rw [Parser.declaration_of_statement hf hs]
  exact h n hs hopen (by omega)

theorem read_expression {e : Expr} (he : e.canonical = true) : (simple (.expression e)).Read Parser.statement 3 := by
  intro n s ks hs _ hn
  obtain ⟨n, rfl⟩ : ∃ k, n = k + 1 := ⟨n - 1, by omega⟩
  simp only [spelling, SimpleStmt.spelling, SimpleStmt.stmt, Stmt.spelling, List.append_assoc, List.cons_append,
    List.nil_append, List.length_append, List.length_cons, List.length_nil] at hs hn
  have hbegins : s.next.kind.beginsExpression = true := by
    obtain ⟨k, ks', heq, hk⟩ := e.spelling_eq_cons
    rw [hs.next_kind, heq]
    exact hk
  obtain ⟨e', span, s', hread, hs', hbare⟩ := Parser.expressionStatement_read he n hs (by omega)
  rw [Parser.statement_of_expression hbegins, hread]
  exact ⟨_, s', rfl, hs', by rw [meaning, SimpleStmt.stmt, Stmt.bare, Stmt.bare, hbare]⟩

theorem read_print {e : Expr} (he : e.canonical = true) : (simple (.print e)).Read Parser.statement 3 := by
  intro n s ks hs _ hn
  obtain ⟨n, rfl⟩ : ∃ k, n = k + 1 := ⟨n - 1, by omega⟩
  simp only [spelling, SimpleStmt.spelling, SimpleStmt.stmt, Stmt.spelling, List.append_assoc, List.cons_append,
    List.nil_append, List.length_append, List.length_cons, List.length_nil] at hs hn
  have hkind : s.next.kind = .reserved .print := hs.next_kind
  obtain ⟨e', s₁, hexpr, hs₁, hbare⟩ := (e.reached he).reads_whole n hs.tail (by omega) rfl
  rw [Parser.statement, apply_bind_of_ok (Parser.peek_apply s)]
  simp only [hkind]
  rw [apply_bind_of_ok (Parser.take_apply s), apply_bind_of_ok hexpr, apply_bind_of_ok (Parser.expect_apply hs₁)]
  exact ⟨_, _, rfl, hs₁.tail, by rw [meaning, SimpleStmt.stmt, Stmt.bare, Stmt.bare, hbare]⟩

theorem read_returns {value : Option Expr} (he : value.all Expr.canonical = true) :
    (simple (.returns value)).Read Parser.statement 3 := by
  intro n s ks hs _ hn
  obtain ⟨n, rfl⟩ : ∃ k, n = k + 1 := ⟨n - 1, by omega⟩
  simp only [spelling, SimpleStmt.spelling, SimpleStmt.stmt, Stmt.spelling, List.append_assoc, List.cons_append,
    List.nil_append, List.length_append, List.length_cons, List.length_nil] at hs hn
  have hkind : s.next.kind = .reserved .return := hs.next_kind
  obtain ⟨value', s₁, hvalue, hs₁, hbare⟩ := Parser.optional_read he n rfl rfl hs.tail (by omega)
  rw [Parser.statement, apply_bind_of_ok (Parser.peek_apply s)]
  simp only [hkind]
  rw [apply_bind_of_ok (Parser.take_apply s), apply_bind_of_ok hvalue, apply_bind_of_ok (Parser.expect_apply hs₁)]
  exact ⟨_, _, rfl, hs₁.tail, by rw [meaning, SimpleStmt.stmt, Stmt.bare, Stmt.bare, hbare]⟩

theorem read_var {name : String} {value : Option Expr} (he : value.all Expr.canonical = true) :
    (simple (.var name value)).Read Parser.declaration 4 := by
  intro n s ks hs _ hn
  obtain ⟨n, rfl⟩ : ∃ k, n = k + 1 := ⟨n - 1, by omega⟩
  simp only [spelling, SimpleStmt.spelling, SimpleStmt.stmt, Stmt.spelling, List.append_assoc, List.cons_append,
    List.nil_append, List.length_append, List.length_cons, List.length_nil] at hs hn
  have hkind : s.next.kind = .reserved .var := hs.next_kind
  obtain ⟨value', span', s₁, hvar, hs₁, hbare⟩ := Parser.varDeclaration_read he n hs (by omega)
  rw [Parser.declaration, apply_bind_of_ok (Parser.peek_apply s)]
  simp only [hkind]
  exact ⟨_, _, hvar, hs₁, by rw [meaning, SimpleStmt.stmt, Stmt.bare, Stmt.bare, hbare]⟩

theorem read_whileLoop {condition : Expr} {body : SurfaceStmt} (hcondition : condition.canonical = true)
    (hbody : body.Read Parser.statement 3) : (whileLoop condition body).Read Parser.statement 3 := by
  intro n s ks hs hopen hn
  obtain ⟨n, rfl⟩ : ∃ k, n = k + 1 := ⟨n - 1, by omega⟩
  simp only [spelling, List.append_assoc, List.cons_append] at hs
  simp only [spelling, List.length_append, List.length_cons] at hn
  have hkind : s.next.kind = .reserved .while := hs.next_kind
  obtain ⟨e', s₁, htest, hs₁, hbare⟩ :=
    Parser.condition_read hcondition n hs.tail (by simp only [List.length_append]; omega)
  obtain ⟨body', s₂, hstmt, hs₂, hbare'⟩ := hbody n hs₁ hopen (by omega)
  rw [Parser.statement, apply_bind_of_ok (Parser.peek_apply s)]
  simp only [hkind]
  rw [apply_bind_of_ok (Parser.take_apply s), apply_bind_of_ok htest, apply_bind_of_ok hstmt]
  exact ⟨_, s₂, rfl, hs₂, by rw [Stmt.bare, meaning, hbare, hbare']⟩

theorem read_forLoop {initializer : Option SimpleStmt} {condition step : Option Expr} {body : SurfaceStmt}
    (hinitializer : initializer.all (fun c => c.isInitializer && c.stmt.canonical) = true)
    (hcondition : condition.all Expr.canonical = true) (hstep : step.all Expr.canonical = true)
    (hbody : body.Read Parser.statement 3) : (forLoop initializer condition step body).Read Parser.statement 3 := by
  intro n s ks hs hopen hn
  obtain ⟨n, rfl⟩ : ∃ k, n = k + 1 := ⟨n - 1, by omega⟩
  simp only [spelling, List.append_assoc, List.cons_append] at hs
  simp only [spelling, List.length_append, List.length_cons] at hn
  have hkind : s.next.kind = .reserved .for := hs.next_kind
  obtain ⟨value', s₂, hread, hs₂, hbare⟩ := Parser.forInitializer_read hinitializer n hs.tail.tail
    (by simp only [List.length_append, List.length_cons]; omega)
  obtain ⟨condition', s₃, hread', hs₃, hbare'⟩ := Parser.optional_read hcondition n rfl rfl hs₂
    (by simp only [List.length_append, List.length_cons]; omega)
  obtain ⟨step', s₄, hread'', hs₄, hbare''⟩ := Parser.optional_read hstep n rfl rfl hs₃.tail
    (by simp only [List.length_append]; omega)
  obtain ⟨body', s₅, hstmt, hs₅, hbare₃⟩ := hbody n hs₄.tail hopen (by omega)
  rw [Parser.statement, apply_bind_of_ok (Parser.peek_apply s)]
  simp only [hkind]
  rw [apply_bind_of_ok (Parser.take_apply s), apply_bind_of_ok (Parser.expect_apply hs.tail), apply_bind_of_ok hread,
    apply_bind_of_ok hread', apply_bind_of_ok (Parser.expect_apply hs₃), apply_bind_of_ok hread'',
    apply_bind_of_ok (Parser.expect_apply hs₄), apply_bind_of_ok hstmt]
  exact ⟨_, s₅, rfl, hs₅, by rw [Stmt.bare_forLoop, meaning, hbare, hbare', hbare'', hbare₃]⟩

theorem read_ifElse {condition : Expr} {thenBranch : SurfaceStmt} {elseBranch : Option SurfaceStmt}
    (hcondition : condition.canonical = true) (hthen : thenBranch.Read Parser.statement 3)
    (helse : ∀ f ∈ elseBranch, f.Read Parser.statement 3)
    (hclosed : (elseBranch.isSome && thenBranch.endsOpen) = false) :
    (ifElse condition thenBranch elseBranch).Read Parser.statement 3 := by
  intro n s ks hs hopen hn
  obtain ⟨n, rfl⟩ : ∃ k, n = k + 1 := ⟨n - 1, by omega⟩
  simp only [spelling, List.append_assoc, List.cons_append] at hs
  simp only [spelling, List.length_append, List.length_cons] at hn
  have hkind : s.next.kind = .reserved .if := hs.next_kind
  obtain ⟨e', s₁, htest, hs₁, hbare⟩ :=
    Parser.condition_read hcondition n hs.tail (by simp only [List.length_append]; omega)
  rw [Parser.statement, apply_bind_of_ok (Parser.peek_apply s)]
  simp only [hkind]
  rw [apply_bind_of_ok (Parser.take_apply s), apply_bind_of_ok htest]
  cases elseBranch with
  | none =>
      have hnoelse : ks.head? ≠ some (.reserved .else) := hopen rfl
      simp only [spellingElse, List.nil_append, List.length_nil] at hs₁ hn
      obtain ⟨then', s₂, hstmt, hs₂, hbare'⟩ := hthen n hs₁ (fun _ => hnoelse) (by omega)
      rw [apply_bind_of_ok hstmt]
      simp only [apply_bind_of_ok (Parser.accept_of_ne hs₂ hnoelse), Bool.false_eq_true, if_false]
      exact ⟨_, s₂, rfl, hs₂, by rw [Stmt.bare, meaning, hbare, hbare', Stmt.bareElse, meaningElse]⟩
  | some f =>
      simp only [spellingElse, List.cons_append, List.length_cons] at hs₁ hn
      have hnotopen : thenBranch.endsOpen ≠ true := by simpa using hclosed
      obtain ⟨then', s₂, hstmt, hs₂, hbare'⟩ :=
        hthen n hs₁ (fun h => absurd h hnotopen) (by simp only [List.length_cons, List.length_append]; omega)
      obtain ⟨d', s₃, hstmt', hs₃, hbare''⟩ := helse f rfl n hs₂.tail hopen (by omega)
      rw [apply_bind_of_ok hstmt]
      simp only [apply_bind_of_ok (Parser.accept_of_head hs₂), if_true]
      rw [apply_bind_of_ok (apply_map_of_ok hstmt')]
      exact ⟨_, s₃, rfl, hs₃, by rw [Stmt.bare, meaning, hbare, hbare', Stmt.bareElse, meaningElse, hbare'']⟩

theorem mem_canonicalAll {body : List SurfaceStmt} (h : canonicalAll body = true) {f : SurfaceStmt} (hf : f ∈ body) :
    f.canonical = true := by
  induction body with
  | nil => cases hf
  | cons f' rest ih =>
      rw [canonicalAll, Bool.and_eq_true] at h
      rcases List.mem_cons.mp hf with rfl | hf
      · exact h.1
      · exact ih h.2 hf

/-- Declarations are read up to the closing brace. -/
theorem declarations_read {body : List SurfaceStmt} (hbody : ∀ f ∈ body, f.Read Parser.declaration 4) (n : Nat)
    (given : Array Stmt) {s : TokenStream} {ks : List TokenKind}
    (hs : s.Spells (spellingAll body ++ .reserved .rightBrace :: ks))
    (hn : 4 * ((spellingAll body).length + ks.length) + 9 ≤ n) :
    ∃ body' s', Parser.declarations n given s = .ok (given.toList ++ body') s' ∧
      s'.Spells (.reserved .rightBrace :: ks) ∧ Stmt.bareAll body' = meaningAll body := by
  induction body generalizing n given s with
  | nil =>
      obtain ⟨n, rfl⟩ : ∃ k, n = k + 1 := ⟨n - 1, by omega⟩
      rw [spellingAll, List.nil_append] at hs
      have hstarts : s.starts .rightBrace = true := by
        rw [hs.starts_eq]
        exact decide_eq_true rfl
      rw [Parser.declarations, apply_bind_of_ok (apply_get s), if_pos (by rw [hstarts, Bool.true_or])]
      exact ⟨[], s, by simp, hs, rfl⟩
  | cons f rest ih =>
      obtain ⟨n, rfl⟩ : ∃ k, n = k + 1 := ⟨n - 1, by omega⟩
      simp only [spellingAll, List.append_assoc] at hs
      simp only [spellingAll, List.length_append] at hn
      have hstarts : s.starts .rightBrace = false := by
        rw [hs.starts_eq]
        exact decide_eq_false (f.head?_spelling_ne _ rfl)
      have hend := f.atEnd_of_spells hs
      have hpos : 0 < f.spelling.length := f.width_pos
      have hnoelse : (spellingAll rest ++ .reserved .rightBrace :: ks).head? ≠ some (.reserved .else) :=
        head?_spellingAll_ne rest _ rfl (by simp)
      obtain ⟨d', s₁, hdecl, hs₁, hbare⟩ := hbody f (List.mem_cons_self ..) n hs (fun _ => hnoelse)
        (by simp only [List.length_append, List.length_cons]; omega)
      obtain ⟨body', s₂, hdecls, hs₂, hbare'⟩ :=
        ih (fun d hmem => hbody d (List.mem_cons_of_mem _ hmem)) n (given.push d') hs₁ (by omega)
      rw [Parser.declarations, apply_bind_of_ok (apply_get s), if_neg (by simp [hstarts, hend]),
        apply_bind_of_ok hdecl, hdecls]
      exact ⟨d' :: body', s₂, by simp, hs₂, by rw [Stmt.bareAll, meaningAll, hbare, hbare']⟩

theorem block_read {body : List SurfaceStmt} (hbody : ∀ f ∈ body, f.Read Parser.declaration 4) (n : Nat)
    {s : TokenStream} {ks : List TokenKind}
    (hs : s.Spells (.reserved .leftBrace :: (spellingAll body ++ .reserved .rightBrace :: ks)))
    (hn : 4 * ((spellingAll body).length + ks.length) + 10 ≤ n) :
    ∃ body' s', Parser.block n s = .ok body' s' ∧ s'.Spells ks ∧ Stmt.bareAll body' = meaningAll body := by
  obtain ⟨n, rfl⟩ : ∃ k, n = k + 1 := ⟨n - 1, by omega⟩
  obtain ⟨body', s₁, hdecls, hs₁, hbare⟩ := declarations_read hbody n #[] hs.tail (by omega)
  rw [Parser.block, apply_bind_of_ok (Parser.expect_apply hs), apply_bind_of_ok hdecls,
    apply_bind_of_ok (Parser.expect_apply hs₁)]
  exact ⟨body', s₁.tail, by simp, hs₁.tail, hbare⟩

theorem read_block {body : List SurfaceStmt} (hbody : ∀ f ∈ body, f.Read Parser.declaration 4) :
    (block body).Read Parser.statement 3 := by
  intro n s ks hs _ hn
  obtain ⟨n, rfl⟩ : ∃ k, n = k + 1 := ⟨n - 1, by omega⟩
  simp only [spelling, List.append_assoc, List.cons_append, List.nil_append] at hs
  simp only [spelling, List.length_append, List.length_cons, List.length_nil] at hn
  have hkind : s.next.kind = .reserved .leftBrace := hs.next_kind
  obtain ⟨body', s₁, hblock, hs₁, hbare⟩ := block_read hbody n hs (by omega)
  rw [Parser.statement, apply_bind_of_ok (Parser.peek_apply s)]
  simp only [hkind]
  rw [apply_bind_of_ok (Parser.peek_apply s), apply_bind_of_ok hblock]
  exact ⟨_, s₁, rfl, hs₁, by rw [Stmt.bare, meaning, hbare]⟩

theorem read_function {name : String} {parameters : List String} {body : List SurfaceStmt}
    (hlen : parameters.length ≤ Parser.maxArguments) (hbody : ∀ f ∈ body, f.Read Parser.declaration 4) :
    (function name parameters body).Read Parser.declaration 4 := by
  intro n s ks hs _ hn
  obtain ⟨n, rfl⟩ : ∃ k, n = k + 1 := ⟨n - 1, by omega⟩
  simp only [spelling, List.append_assoc, List.cons_append, List.nil_append] at hs
  simp only [spelling, List.length_append, List.length_cons, List.length_nil] at hn
  have hkind : s.next.kind = .reserved .fun := hs.next_kind
  have hrest : ∀ s₂ : TokenStream, s₂.Spells (.reserved .rightParen :: .reserved .leftBrace ::
      (spellingAll body ++ .reserved .rightBrace :: ks)) → ∃ d' s', (do
        let _ ← Parser.expect .rightParen
        let body ← Parser.block n
        return Stmt.function name parameters body (← Parser.spanSince s.next.span) : Parser Stmt) s₂ = .ok d' s' ∧
      s'.Spells ks ∧ d'.bare = (function name parameters body).meaning := by
    intro s₂ hs₂
    obtain ⟨body', s₃, hblock, hs₃, hbare⟩ := block_read hbody n hs₂.tail (by omega)
    rw [apply_bind_of_ok (Parser.expect_apply hs₂), apply_bind_of_ok hblock]
    exact ⟨_, s₃, rfl, hs₃, by rw [Stmt.bare, meaning, hbare]⟩
  have hs₁ := hs.tail.tail.tail
  rw [Parser.declaration, apply_bind_of_ok (Parser.peek_apply s)]
  simp only [hkind]
  rw [apply_bind_of_ok (Parser.take_apply s), apply_bind_of_ok (Parser.identifier_apply hs.tail),
    apply_bind_of_ok (Parser.expect_apply hs.tail.tail)]
  cases parameters with
  | nil =>
      rw [spellingNames, List.nil_append] at hs₁
      simp only [apply_bind_of_ok (Parser.isNext_of_head hs₁ rfl), if_true]
      exact hrest _ hs₁
  | cons name' rest =>
      have hhead : (spellingNames (name' :: rest) ++ .reserved .rightParen :: .reserved .leftBrace ::
          (spellingAll body ++ .reserved .rightBrace :: ks)).head? ≠ some (.reserved .rightParen) := by
        cases rest <;> simp [spellingNames]
      have hnames := Parser.length_le_spellingNames (name' :: rest)
      obtain ⟨s₂, hread, hs₂⟩ := Parser.parameters_read (List.cons_ne_nil name' rest) n #[]
        (by simpa using hlen) hs₁ (by omega)
      simp only [apply_bind_of_ok (Parser.isNext_of_ne hs₁ hhead), Bool.false_eq_true, if_false]
      rw [apply_bind_of_ok hread]
      exact hrest s₂ hs₂

/-- **Every canonical statement is read back.** -/
theorem read (f : SurfaceStmt) (hf : f.canonical = true) :
    f.Read Parser.declaration 4 ∧ (f.isDeclaration = false → f.Read Parser.statement 3) := by
  have hboth : ∀ {f : SurfaceStmt}, f.isDeclaration = false → f.Read Parser.statement 3 →
      f.Read Parser.declaration 4 ∧ (f.isDeclaration = false → f.Read Parser.statement 3) := by
    intro f hf h
    exact ⟨h.declaration hf, fun _ => h⟩
  induction f with
  | simple c =>
      cases c with
      | expression e =>
          rw [canonical, SimpleStmt.stmt, Stmt.canonical] at hf
          exact hboth rfl (read_expression hf)
      | print e =>
          rw [canonical, SimpleStmt.stmt, Stmt.canonical] at hf
          exact hboth rfl (read_print hf)
      | var name value =>
          rw [canonical, SimpleStmt.stmt, Stmt.canonical] at hf
          refine ⟨read_var hf, ?_⟩
          intro h
          cases h
      | returns value =>
          rw [canonical, SimpleStmt.stmt, Stmt.canonical] at hf
          exact hboth rfl (read_returns hf)
  | block body ih =>
      rw [canonical] at hf
      exact hboth rfl (read_block fun f hmem => (ih f hmem (mem_canonicalAll hf hmem)).1)
  | ifElse condition thenBranch elseBranch iht ihe =>
      simp only [canonical, Bool.and_eq_true, Bool.not_eq_true'] at hf
      obtain ⟨⟨⟨⟨hcondition, htdecl⟩, hthen⟩, hclosed⟩, helse⟩ := hf
      refine hboth rfl (read_ifElse hcondition ((iht hthen).2 htdecl) ?_ hclosed)
      intro f hmem
      obtain rfl := Option.mem_def.mp hmem
      rw [canonicalElse, Bool.and_eq_true, Bool.not_eq_true'] at helse
      exact (ihe f hmem helse.2).2 helse.1
  | whileLoop condition body ih =>
      simp only [canonical, Bool.and_eq_true, Bool.not_eq_true'] at hf
      obtain ⟨⟨hcondition, hdecl⟩, hbody⟩ := hf
      exact hboth rfl (read_whileLoop hcondition ((ih hbody).2 hdecl))
  | forLoop initializer condition step body ih =>
      rw [canonical, Bool.and_eq_true, Bool.and_eq_true, Bool.and_eq_true, Bool.and_eq_true, Bool.not_eq_true'] at hf
      obtain ⟨⟨⟨⟨hinitializer, hcondition⟩, hstep⟩, hdecl⟩, hbody⟩ := hf
      exact hboth rfl (read_forLoop hinitializer hcondition hstep ((ih hbody).2 hdecl))
  | function name parameters body ih =>
      rw [canonical, Bool.and_eq_true, decide_eq_true_iff] at hf
      refine ⟨read_function hf.1 fun f hmem => (ih f hmem (mem_canonicalAll hf.2 hmem)).1, ?_⟩
      intro h
      cases h

end SurfaceStmt

/-! ## Programs -/

/-- A reading adds what the statements that the stream spells stand for, and no errors. -/
theorem Reading.from_reads {fs : List SurfaceStmt} (hfs : SurfaceStmt.canonicalAll fs = true) (fuel rounds : Nat)
    {r : Reading} {s : TokenStream} (hs : s.Spells (SurfaceStmt.spellingAll fs))
    (hfuel : 4 * (SurfaceStmt.spellingAll fs).length + 4 ≤ fuel)
    (hrounds : (SurfaceStmt.spellingAll fs).length ≤ rounds) :
    ∃ (p : Program) (r' : Reading), Reading.from fuel rounds r s = some r' ∧
      r'.statements.toList = r.statements.toList ++ p ∧ r'.errors = r.errors ∧ p.bare = SurfaceStmt.meaningAll fs := by
  induction fs generalizing rounds r s with
  | nil =>
      have hnil : s.rest = [] := List.length_eq_zero_iff.mp hs.length_rest
      exact ⟨[], r, Reading.from_of_nil hnil, (List.append_nil _).symm, rfl, rfl⟩
  | cons f rest ih =>
      simp only [SurfaceStmt.canonicalAll, Bool.and_eq_true] at hfs
      simp only [SurfaceStmt.spellingAll, List.length_append] at hs hfuel hrounds
      have hpos : 0 < f.spelling.length := f.width_pos
      obtain ⟨rounds, rfl⟩ : ∃ k, rounds = k + 1 := ⟨rounds - 1, by omega⟩
      have hne : s.rest ≠ [] := by
        intro hnil
        have hend := f.atEnd_of_spells hs
        rw [TokenStream.atEnd, hnil] at hend
        cases hend
      have hnoelse : (SurfaceStmt.spellingAll rest).head? ≠ some (.reserved .else) := by
        have hhead := SurfaceStmt.head?_spellingAll_ne rest [] (k := .reserved .else) rfl (by simp)
        rwa [List.append_nil] at hhead
      obtain ⟨d', s₁, hdecl, hs₁, hbare⟩ := (f.read hfs.1).1 fuel hs (fun _ => hnoelse) hfuel
      obtain ⟨p', r', hr', hstatements, herrors, hbare'⟩ :=
        ih hfs.2 rounds (r := { r with statements := r.statements.push d' }) hs₁ (by omega) (by omega)
      refine ⟨d' :: p', r', (Reading.from_of_ok hne hdecl).trans hr', ?_, herrors, ?_⟩
      · rw [hstatements, Array.toList_push, List.append_assoc, List.singleton_append]
      · rw [Program.bare, Stmt.bareAll, SurfaceStmt.meaningAll, hbare]
        exact congrArg _ hbare'

/-- **A program made of canonical statements, as they are written, is read back as what they stand for.** -/
theorem Program.ofTokens_of_surface {fs : List SurfaceStmt} (hfs : SurfaceStmt.canonicalAll fs = true)
    {tokens : List Token} (h : (tokens.takeWhile (! ·.kind.isEof)).map (·.kind) = SurfaceStmt.spellingAll fs) :
    ∃ p, Program.ofTokens tokens = .ok p ∧ p.bare = SurfaceStmt.meaningAll fs := by
  have hs := TokenStream.spells_ofTokens tokens
  rw [h] at hs
  obtain ⟨p, r, hr, hstatements, herrors, hbare⟩ := Reading.from_reads hfs
    (4 * ((TokenStream.ofTokens tokens).rest.length + 1)) (TokenStream.ofTokens tokens).rest.length (r := {}) hs
    (by rw [hs.length_rest]; omega) (Nat.le_of_eq hs.length_rest.symm)
  refine ⟨p, ?_, hbare⟩
  rw [Program.ofTokens_of_read hr, hstatements, herrors]
  rfl

end Lox
