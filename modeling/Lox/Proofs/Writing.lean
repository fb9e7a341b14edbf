import Lox.Proofs.Giving

/-!
# Reading statements as they are written

* `Parser.condition_takes`, `Parser.optional_takes`, ... : the phrases that statements are made of;
* `Parser.statements_take` : a statement that is read takes its tokens off the stream, and is what they stand for;
* `Program.ofTokens_written` : a program that is read is what canonical statements stand for that spell its tokens.
-/

namespace Lox

namespace Parser

/-! ## Phrases -/

section Phrases

variable {n : Nat} {s s' : TokenStream} {ks : List TokenKind}

theorem expression_reads {e : Expr} (hs : s.Spells ks) (hn : 4 * ks.length + 2 ≤ n)
    (he : expression n .assignment s = .ok e s') : ∃ ks', s'.Spells ks' ∧ Takes ks e ks' ∧ e.Extends s s' := by
  obtain ⟨ks', hs', htakes⟩ := expression_takes hs hn he
  refine ⟨ks', hs', htakes, fun ts i hts hat => expression_extends hts hat ?_ he⟩
  rw [← List.length_drop, ← hat.rest, hs.length_rest]
  exact hn

theorem condition_takes {e : Expr} (hs : s.Spells ks) (hn : 4 * ks.length + 2 ≤ n) (he : condition n s = .ok e s') :
    ∃ ks', s'.Spells ks' ∧ ks = .reserved .leftParen :: e.spelling ++ .reserved .rightParen :: ks' ∧
      e.canonical = true ∧ e.ExtendsInside s s' := by
  unfold condition at he
  obtain ⟨_, s₁, hopen, he⟩ := apply_bind_eq_ok.mp he
  obtain ⟨e', s₂, hexpr, he⟩ := apply_bind_eq_ok.mp he
  obtain ⟨_, s₃, hclose, he⟩ := apply_bind_eq_ok.mp he
  obtain ⟨rfl, rfl⟩ := EStateM.Result.ok.inj he
  obtain ⟨ks₁, rfl, hs₁⟩ := expect_eq_ok hs hopen
  rw [List.length_cons] at hn
  obtain ⟨ks₂, hs₂, htakes, hextends⟩ := expression_reads hs₁ (by omega) hexpr
  obtain ⟨ks', rfl, hs'⟩ := expect_eq_ok hs₂ hclose
  refine ⟨ks', hs', by rw [htakes.spelling, List.cons_append], htakes.canonical, fun ts i hts hat => ?_⟩
  obtain ⟨hat₂, hspanned⟩ := hextends hts (expect_at hat hopen).1
  exact ⟨(expect_at hat₂ hclose).1, hspanned⟩

theorem optional_takes {r : Reserved} {value : Option Expr} (hs : s.Spells ks) (hn : 4 * ks.length + 2 ≤ n)
    (he : optional n r s = .ok value s') :
    ∃ ks', s'.Spells ks' ∧ ks = Expr.spellingOption [] value ++ ks' ∧ value.all Expr.canonical = true ∧
      Expr.ExtendsOption value s s' := by
  unfold optional at he
  by_cases hnext : ks.head? = some (.reserved r)
  · rw [apply_bind_of_ok (isNext_of_head hs hnext), if_pos rfl] at he
    obtain ⟨rfl, rfl⟩ := EStateM.Result.ok.inj he
    exact ⟨ks, hs, rfl, rfl, fun ts i hts hat => ⟨hat, rfl⟩⟩
  · rw [apply_bind_of_ok (isNext_of_ne hs hnext), if_neg Bool.false_ne_true] at he
    obtain ⟨e, hexpr, rfl⟩ := apply_map_eq_ok.mp he
    obtain ⟨ks', hs', htakes, hextends⟩ := expression_reads hs hn hexpr
    refine ⟨ks', hs', htakes.spelling, htakes.canonical, fun ts i hts hat => ?_⟩
    obtain ⟨hat', hspanned⟩ := hextends hts hat
    exact ⟨hat', by rw [Option.map_some, hspanned]⟩

theorem expressionStatement_takes {d : Stmt} (hs : s.Spells ks) (hn : 4 * ks.length + 2 ≤ n)
    (he : expressionStatement n s = .ok d s') :
    ∃ e ks', s'.Spells ks' ∧ TakesStmt ks (.simple (.expression e)) ks' ∧
      (SurfaceStmt.simple (.expression e)).Gives s d s' := by
  unfold expressionStatement at he
  obtain ⟨e, s₁, hexpr, he⟩ := apply_bind_eq_ok.mp he
  obtain ⟨close, s₂, hclose, he⟩ := apply_bind_eq_ok.mp he
  obtain ⟨rfl, rfl⟩ := EStateM.Result.ok.inj he
  obtain ⟨ks₁, hs₁, htakes, hextends⟩ := expression_reads hs hn hexpr
  obtain ⟨ks', rfl, hs'⟩ := expect_eq_ok hs₁ hclose
  refine ⟨e, ks', hs', .of_closed ?_ htakes.canonical rfl, .expression hextends hclose⟩
  rw [htakes.spelling, SurfaceStmt.spelling, SimpleStmt.spelling, SimpleStmt.stmt, Stmt.spelling, List.append_assoc]
  rfl

theorem varDeclaration_takes {d : Stmt} (hs : s.Spells (.reserved .var :: ks)) (hn : 4 * ks.length + 2 ≤ n)
    (he : varDeclaration n s = .ok d s') :
    ∃ name value ks', s'.Spells ks' ∧ TakesStmt (.reserved .var :: ks) (.simple (.var name value)) ks' ∧
      (SurfaceStmt.simple (.var name value)).Gives s d s' := by
  unfold varDeclaration at he
  rw [apply_bind_of_ok (take_apply s)] at he
  obtain ⟨name, s₁, hname, he⟩ := apply_bind_eq_ok.mp he
  obtain ⟨ks₁, rfl, hs₁⟩ := identifier_eq_ok hs.tail hname
  rw [List.length_cons] at hn
  obtain ⟨value, s₂, ks₂, hs₂, hspelling, hcanonical, hextends, he⟩ : ∃ value s₂ ks₂, s₂.Spells ks₂ ∧
      ks₁ = Expr.spellingOption [.reserved .equal] value ++ ks₂ ∧ value.all Expr.canonical = true ∧
      (∀ ⦃ts i⦄, Token.Ordered ts → s₁.At ts i →
        s₂.At ts (i + (Expr.spellingOption [.reserved .equal] value).length) ∧
          value.map (·.spanned (Token.run ts) (i + 1)) = value) ∧
      (do
        let close ← expect .semicolon
        return Stmt.var name value (s.next.span.merge close.span) : Parser Stmt) s₂ = .ok d s' := by
    by_cases hequal : ks₁.head? = some (.reserved .equal)
    · obtain ⟨ks₂, rfl⟩ := List.head?_eq_some_iff.mp hequal
      simp only [apply_bind_of_ok (accept_of_head hs₁), if_true] at he
      obtain ⟨value, s₂, hvalue, he⟩ := apply_bind_eq_ok.mp he
      obtain ⟨e, hexpr, rfl⟩ := apply_map_eq_ok.mp hvalue
      rw [List.length_cons] at hn
      obtain ⟨ks₃, hs₃, htakes, hextends⟩ := expression_reads hs₁.tail (by omega) hexpr
      refine ⟨some e, s₂, ks₃, hs₃, by rw [htakes.spelling]; rfl, htakes.canonical, fun ts i hts hat => ?_, he⟩
      obtain ⟨hat', hspanned⟩ := hextends hts (hat.tail hs₁.next_ne_eof)
      refine ⟨hat'.congr ?_, by rw [Option.map_some, hspanned]⟩
      rw [Expr.spellingOption, List.length_append, List.length_singleton, Expr.width, Nat.add_assoc]
    · simp only [apply_bind_of_ok (accept_of_ne hs₁ hequal), Bool.false_eq_true, if_false] at he
      exact ⟨none, s₁, ks₁, hs₁, rfl, rfl, fun ts i hts hat => ⟨hat, rfl⟩, he⟩
  obtain ⟨close, s₃, hclose, he⟩ := apply_bind_eq_ok.mp he
  obtain ⟨rfl, rfl⟩ := EStateM.Result.ok.inj he
  obtain ⟨ks', rfl, hs'⟩ := expect_eq_ok hs₂ hclose
  refine ⟨name, value, ks', hs', .of_closed ?_ hcanonical rfl,
    .var hs.next_ne_eof hname hextends hclose⟩
  rw [hspelling, SurfaceStmt.spelling, SimpleStmt.spelling, SimpleStmt.stmt, Stmt.spelling]
  simp

theorem forInitializer_takes {value : Option Stmt} (hs : s.Spells ks) (hn : 4 * ks.length + 2 ≤ n)
    (he : forInitializer n s = .ok value s') :
    ∃ initializer ks', s'.Spells ks' ∧ ks = SimpleStmt.spellingInitial initializer ++ ks' ∧
      SimpleStmt.GivesInitial initializer s value s' := by
  unfold forInitializer at he
  by_cases hsemicolon : ks.head? = some (.reserved .semicolon)
  · obtain ⟨ks', rfl⟩ := List.head?_eq_some_iff.mp hsemicolon
    rw [apply_bind_of_ok (accept_of_head hs), if_pos rfl] at he
    obtain ⟨rfl, rfl⟩ := EStateM.Result.ok.inj he
    exact ⟨none, ks', hs.tail, rfl, rfl, rfl, fun ts i hts hat => ⟨hat.tail hs.next_ne_eof, rfl⟩⟩
  rw [apply_bind_of_ok (accept_of_ne hs hsemicolon), if_neg Bool.false_ne_true] at he
  by_cases hvar : ks.head? = some (.reserved .var)
  · obtain ⟨ks₁, rfl⟩ := List.head?_eq_some_iff.mp hvar
    rw [apply_bind_of_ok (isNext_of_head hs hvar), if_pos rfl] at he
    obtain ⟨d, hd, rfl⟩ := apply_map_eq_ok.mp he
    rw [List.length_cons] at hn
    obtain ⟨name, value, ks', hs', htakes, hgives⟩ := varDeclaration_takes hs (by omega) hd
    exact ⟨some (.var name value), ks', hs', htakes.spelling, hgives.initial htakes rfl⟩
  · rw [apply_bind_of_ok (isNext_of_ne hs hvar), if_neg Bool.false_ne_true] at he
    obtain ⟨d, hd, rfl⟩ := apply_map_eq_ok.mp he
    obtain ⟨e, ks', hs', htakes, hgives⟩ := expressionStatement_takes hs hn hd
    exact ⟨some (.expression e), ks', hs', htakes.spelling, hgives.initial htakes rfl⟩

theorem parameters_take (n : Nat) {s s' : TokenStream} {ks : List TokenKind} {given : Array String}
    {names : List String} (hs : s.Spells ks) (hn : ks.length < n) (he : parameters n given s = .ok names s') :
    ∃ more ks', s'.Spells ks' ∧ ks = spellingNames more ++ ks' ∧ more ≠ [] ∧ names = given.toList ++ more ∧
      names.length ≤ maxArguments ∧ ∀ ⦃ts i⦄, s.At ts i → s'.At ts (i + (spellingNames more).length) := by
  induction n generalizing s ks given with
  | zero => omega
  | succ n ih =>
      rw [parameters] at he
      split at he
      · cases he
      · rename_i hfew
        obtain ⟨name, s₁, hname, he⟩ := apply_bind_eq_ok.mp he
        obtain ⟨ks₁, rfl, hs₁⟩ := identifier_eq_ok hs hname
        rw [List.length_cons] at hn
        by_cases hcomma : ks₁.head? = some (.reserved .comma)
        · obtain ⟨ks₂, rfl⟩ := List.head?_eq_some_iff.mp hcomma
          rw [apply_bind_of_ok (accept_of_head hs₁), if_pos rfl] at he
          rw [List.length_cons] at hn
          obtain ⟨more, ks', hs', rfl, hne, rfl, hlen, hat'⟩ := ih hs₁.tail (by omega) he
          obtain ⟨name', rest, rfl⟩ := List.exists_cons_of_ne_nil hne
          refine ⟨name :: name' :: rest, ks', hs', rfl, List.cons_ne_nil _ _, by simp, hlen, fun ts i hat => ?_⟩
          refine (hat' ((identifier_at hat hname).tail hs₁.next_ne_eof)).congr ?_
          rw [spellingNames, List.length_cons, List.length_cons]
          omega
        · rw [apply_bind_of_ok (accept_of_ne hs₁ hcomma)] at he
          obtain ⟨rfl, rfl⟩ := EStateM.Result.ok.inj he
          refine ⟨[name], ks₁, hs₁, rfl, List.cons_ne_nil _ _, by simp, ?_, fun ts i hat => identifier_at hat hname⟩
          rw [Array.toList_push, List.length_append, List.length_singleton, Array.length_toList]
          omega

end Phrases

/-! ## Statements

What each of the functions that read statements does with a stream, if `n` is large enough for the tokens in it. -/

/-- A declaration that is read takes its tokens off the stream. -/
def DeclarationTakes (n : Nat) : Prop :=
  ∀ ⦃s s' : TokenStream⦄ ⦃ks : List TokenKind⦄ ⦃d : Stmt⦄, s.Spells ks → 4 * ks.length + 4 ≤ n →
    declaration n s = .ok d s' → ∃ f ks', s'.Spells ks' ∧ TakesStmt ks f ks' ∧ f.Gives s d s'

def StatementTakes (n : Nat) : Prop :=
  ∀ ⦃s s' : TokenStream⦄ ⦃ks : List TokenKind⦄ ⦃d : Stmt⦄, s.Spells ks → 4 * ks.length + 3 ≤ n →
    statement n s = .ok d s' →
    ∃ f ks', s'.Spells ks' ∧ TakesStmt ks f ks' ∧ f.Gives s d s' ∧ f.isDeclaration = false

def BlockTakes (n : Nat) : Prop :=
  ∀ ⦃s s' : TokenStream⦄ ⦃ks : List TokenKind⦄ ⦃body : List Stmt⦄, s.Spells ks → 4 * ks.length + 2 ≤ n →
    block n s = .ok body s' →
    ∃ fs ks', s'.Spells ks' ∧
      ks = .reserved .leftBrace :: SurfaceStmt.spellingAll fs ++ .reserved .rightBrace :: ks' ∧
      SurfaceStmt.canonicalAll fs = true ∧ SurfaceStmt.GivesAll 1 fs s body s'

def DeclarationsTake (n : Nat) : Prop :=
  ∀ ⦃s s' : TokenStream⦄ ⦃ks : List TokenKind⦄ ⦃given : Array Stmt⦄ ⦃body : List Stmt⦄, s.Spells ks →
    4 * ks.length + 5 ≤ n → declarations n given s = .ok body s' →
    ∃ fs more ks', s'.Spells ks' ∧ ks = SurfaceStmt.spellingAll fs ++ ks' ∧ SurfaceStmt.canonicalAll fs = true ∧
      SurfaceStmt.GivesAll 0 fs s more s' ∧ body = given.toList ++ more

variable {n : Nat}

theorem declarationsTake_succ (hdecl : DeclarationTakes n) (hdecls : DeclarationsTake n) :
    DeclarationsTake (n + 1) := by
  intro s s' ks given body hs hn he
  rw [declarations, apply_bind_of_ok (apply_get s)] at he
  split at he
  · obtain ⟨rfl, rfl⟩ := EStateM.Result.ok.inj he
    exact ⟨[], [], ks, hs, rfl, rfl, .nil s, (List.append_nil _).symm⟩
  · obtain ⟨d, s₁, hd, he⟩ := apply_bind_eq_ok.mp he
    obtain ⟨f, ks₁, hs₁, htakes, hgives⟩ := hdecl hs (by omega) hd
    have hlt := htakes.length_lt
    obtain ⟨fs, more, ks', hs', hspelling, hcanonical, hgives', rfl⟩ := hdecls hs₁ (by omega) he
    refine ⟨f :: fs, d :: more, ks', hs', ?_, ?_, hgives.cons hgives', by simp⟩
    · rw [htakes.spelling, hspelling, SurfaceStmt.spellingAll, List.append_assoc]
    · rw [SurfaceStmt.canonicalAll, htakes.canonical, hcanonical, Bool.and_true]

theorem blockTakes_succ (hdecls : DeclarationsTake n) : BlockTakes (n + 1) := by
  intro s s' ks body hs hn he
  rw [block] at he
  obtain ⟨_, s₁, hopen, he⟩ := apply_bind_eq_ok.mp he
  obtain ⟨body', s₂, hbody, he⟩ := apply_bind_eq_ok.mp he
  obtain ⟨_, s₃, hclose, he⟩ := apply_bind_eq_ok.mp he
  obtain ⟨rfl, rfl⟩ := EStateM.Result.ok.inj he
  obtain ⟨ks₁, rfl, hs₁⟩ := expect_eq_ok hs hopen
  rw [List.length_cons] at hn
  obtain ⟨fs, more, ks₂, hs₂, rfl, hcanonical, hgives, rfl⟩ := hdecls hs₁ (by omega) hbody
  obtain ⟨ks', rfl, hs'⟩ := expect_eq_ok hs₂ hclose
  refine ⟨fs, ks', hs', by simp, hcanonical, hgives.meaning, hgives.plain, fun ts i hts hat => ?_⟩
  obtain ⟨hat₂, htree⟩ := hgives.extent hts (expect_at hat hopen).1
  exact ⟨(expect_at hat₂ hclose).1, htree⟩

theorem ifElse_takes {s s' : TokenStream} {ks : List TokenKind} {d : Stmt} (hstmt : StatementTakes n)
    (hs : s.Spells (.reserved .if :: ks)) (hn : 4 * ks.length + 2 ≤ n)
    (he : (do
      let start ← take
      let test ← condition n
      let thenBranch ← statement n
      let elseBranch ← if ← accept .else then some <$> statement n else pure none
      return .ifElse test thenBranch elseBranch (← spanSince start.span) : Parser Stmt) s = .ok d s') :
    ∃ f ks', s'.Spells ks' ∧ TakesStmt (.reserved .if :: ks) f ks' ∧ f.Gives s d s' ∧ f.isDeclaration = false := by
  rw [apply_bind_of_ok (take_apply s)] at he
  obtain ⟨test, s₁, htest, he⟩ := apply_bind_eq_ok.mp he
  obtain ⟨thenBranch, s₂, hthen, he⟩ := apply_bind_eq_ok.mp he
  obtain ⟨ks₁, hs₁, rfl, hcanonical, hextends⟩ := condition_takes hs.tail (by omega) htest
  simp only [List.length_append, List.length_cons] at hn
  obtain ⟨f, ks₂, hs₂, htakes, hgives, hdecl⟩ := hstmt hs₁ (by omega) hthen
  have hlt := htakes.length_lt
  by_cases helse : ks₂.head? = some (.reserved .else)
  · obtain ⟨ks₃, rfl⟩ := List.head?_eq_some_iff.mp helse
    simp only [apply_bind_of_ok (accept_of_head hs₂), if_true] at he
    obtain ⟨elseBranch, s₃, hbranch, he⟩ := apply_bind_eq_ok.mp he
    obtain ⟨d', hd', rfl⟩ := apply_map_eq_ok.mp hbranch
    obtain ⟨rfl, rfl⟩ := EStateM.Result.ok.inj he
    rw [List.length_cons] at hlt
    obtain ⟨f', ks', hs', htakes', hgives', hdecl'⟩ := hstmt hs₂.tail (by omega) hd'
    exact ⟨_, ks', hs', htakes.ifElse htakes' hcanonical hdecl hdecl',
      .ifElse hs.next_ne_eof hextends hgives hs₂.next_ne_eof hgives', rfl⟩
  · simp only [apply_bind_of_ok (accept_of_ne hs₂ helse), Bool.false_eq_true, if_false] at he
    obtain ⟨rfl, rfl⟩ := EStateM.Result.ok.inj he
    exact ⟨_, ks₂, hs₂, htakes.ifThen hcanonical hdecl helse, .ifThen hs.next_ne_eof hextends hgives, rfl⟩

theorem forLoop_takes {s s' : TokenStream} {ks : List TokenKind} {d : Stmt} (hstmt : StatementTakes n)
    (hs : s.Spells (.reserved .for :: ks)) (hn : 4 * ks.length + 2 ≤ n)
    (he : (do
      let start ← take
      let _ ← expect .leftParen
      let initializer ← forInitializer n
      let test ← optional n .semicolon
      let _ ← expect .semicolon
      let step ← optional n .rightParen
      let _ ← expect .rightParen
      let body ← statement n
      return .forLoop initializer test step body (← spanSince start.span) : Parser Stmt) s = .ok d s') :
    ∃ f ks', s'.Spells ks' ∧ TakesStmt (.reserved .for :: ks) f ks' ∧ f.Gives s d s' ∧ f.isDeclaration = false := by
  rw [apply_bind_of_ok (take_apply s)] at he
  obtain ⟨_, s₁, hopen, he⟩ := apply_bind_eq_ok.mp he
  obtain ⟨value, s₂, hinitializer, he⟩ := apply_bind_eq_ok.mp he
  obtain ⟨test, s₃, htest, he⟩ := apply_bind_eq_ok.mp he
  obtain ⟨_, s₄, hsemicolon, he⟩ := apply_bind_eq_ok.mp he
  obtain ⟨step, s₅, hstep, he⟩ := apply_bind_eq_ok.mp he
  obtain ⟨_, s₆, hclose, he⟩ := apply_bind_eq_ok.mp he
  obtain ⟨body, s₇, hbody, he⟩ := apply_bind_eq_ok.mp he
  obtain ⟨rfl, rfl⟩ := EStateM.Result.ok.inj he
  obtain ⟨ks₁, rfl, hs₁⟩ := expect_eq_ok hs.tail hopen
  rw [List.length_cons] at hn
  obtain ⟨initializer, ks₂, hs₂, rfl, hgives⟩ := forInitializer_takes hs₁ (by omega) hinitializer
  rw [List.length_append] at hn
  obtain ⟨ks₃, hs₃, rfl, hcanonical, hextends⟩ := optional_takes hs₂ (by omega) htest
  obtain ⟨ks₄, rfl, hs₄⟩ := expect_eq_ok hs₃ hsemicolon
  rw [List.length_append, List.length_cons] at hn
  obtain ⟨ks₅, hs₅, rfl, hcanonical', hextends'⟩ := optional_takes hs₄ (by omega) hstep
  obtain ⟨ks₆, rfl, hs₆⟩ := expect_eq_ok hs₅ hclose
  rw [List.length_append, List.length_cons] at hn
  obtain ⟨f, ks', hs', htakes, hgives', hdecl⟩ := hstmt hs₆ (by omega) hbody
  exact ⟨_, ks', hs', htakes.forLoop hgives.canonical hcanonical hcanonical' hdecl,
    .forLoop hs.next_ne_eof hopen hgives hextends hsemicolon hextends' hclose hgives', rfl⟩

theorem statementTakes_succ (hstmt : StatementTakes n) (hblock : BlockTakes n) : StatementTakes (n + 1) := by
  intro s s' ks d hs hn he
  rw [statement, apply_bind_of_ok (peek_apply s)] at he
  generalize hkind : s.next.kind = k at he
  split at he
  · obtain ⟨ks₁, rfl, hs₁⟩ := hs.of_next hkind (TokenKind.reserved_ne_eof _)
    rw [apply_bind_of_ok (take_apply s)] at he
    obtain ⟨e, s₂, hexpr, he⟩ := apply_bind_eq_ok.mp he
    obtain ⟨close, s₃, hclose, he⟩ := apply_bind_eq_ok.mp he
    obtain ⟨rfl, rfl⟩ := EStateM.Result.ok.inj he
    rw [List.length_cons] at hn
    obtain ⟨ks₂, hs₂, htakes, hextends⟩ := expression_reads hs₁ (by omega) hexpr
    obtain ⟨ks', rfl, hs'⟩ := expect_eq_ok hs₂ hclose
    refine ⟨.simple (.print e), ks', hs', .of_closed ?_ htakes.canonical rfl,
      .print hs.next_ne_eof hextends hclose, rfl⟩
    rw [htakes.spelling, SurfaceStmt.spelling, SimpleStmt.spelling, SimpleStmt.stmt, Stmt.spelling]
    simp
  · obtain ⟨ks₁, rfl, hs₁⟩ := hs.of_next hkind (TokenKind.reserved_ne_eof _)
    rw [List.length_cons] at hn
    exact ifElse_takes hstmt hs (by omega) he
  · obtain ⟨ks₁, rfl, hs₁⟩ := hs.of_next hkind (TokenKind.reserved_ne_eof _)
    rw [apply_bind_of_ok (take_apply s)] at he
    obtain ⟨test, s₂, htest, he⟩ := apply_bind_eq_ok.mp he
    obtain ⟨body, s₃, hbody, he⟩ := apply_bind_eq_ok.mp he
    obtain ⟨rfl, rfl⟩ := EStateM.Result.ok.inj he
    rw [List.length_cons] at hn
    obtain ⟨ks₂, hs₂, rfl, hcanonical, hextends⟩ := condition_takes hs₁ (by omega) htest
    obtain ⟨f, ks', hs', htakes, hgives, hdecl⟩ := hstmt hs₂ (by simp at hn; omega) hbody
    exact ⟨_, ks', hs', htakes.whileLoop hcanonical hdecl, .whileLoop hs.next_ne_eof hextends hgives, rfl⟩
  · obtain ⟨ks₁, rfl, hs₁⟩ := hs.of_next hkind (TokenKind.reserved_ne_eof _)
    rw [List.length_cons] at hn
    exact forLoop_takes hstmt hs (by omega) he
  · obtain ⟨ks₁, rfl, hs₁⟩ := hs.of_next hkind (TokenKind.reserved_ne_eof _)
    rw [apply_bind_of_ok (take_apply s)] at he
    obtain ⟨value, s₂, hvalue, he⟩ := apply_bind_eq_ok.mp he
    obtain ⟨close, s₃, hclose, he⟩ := apply_bind_eq_ok.mp he
    obtain ⟨rfl, rfl⟩ := EStateM.Result.ok.inj he
    rw [List.length_cons] at hn
    obtain ⟨ks₂, hs₂, rfl, hcanonical, hextends⟩ := optional_takes hs₁ (by omega) hvalue
    obtain ⟨ks', rfl, hs'⟩ := expect_eq_ok hs₂ hclose
    refine ⟨.simple (.returns value), ks', hs', .of_closed ?_ hcanonical rfl,
      .returns hs.next_ne_eof hextends hclose, rfl⟩
    rw [SurfaceStmt.spelling, SimpleStmt.spelling, SimpleStmt.stmt, Stmt.spelling]
    simp
  · rw [apply_bind_of_ok (peek_apply s)] at he
    obtain ⟨body, s₁, hbody, he⟩ := apply_bind_eq_ok.mp he
    obtain ⟨rfl, rfl⟩ := EStateM.Result.ok.inj he
    obtain ⟨fs, ks', hs', rfl, hcanonical, hgives⟩ := hblock hs (by omega) hbody
    refine ⟨.block fs, ks', hs', .of_closed ?_ hcanonical rfl, .block hs.next_ne_eof hgives, rfl⟩
    rw [SurfaceStmt.spelling]
    simp
  · obtain ⟨e, ks', hs', htakes, hgives⟩ := expressionStatement_takes hs (by omega) he
    exact ⟨_, ks', hs', htakes, hgives, rfl⟩

/-- A function is taken behind its name and its opening parenthesis: there are its parameters, of which there may be
none, and its body. -/
theorem function_takes {name : String} {t : Token} {d : Stmt} {s s₁ s₂ s' : TokenStream} {ks : List TokenKind}
    (hblock : BlockTakes n) (hstart : s.next.kind ≠ .eof) (hname : identifier s.tail = .ok name s₁)
    (hopen : expect .leftParen s₁ = .ok t s₂) (hs : s₂.Spells ks) (hn : 4 * ks.length + 2 ≤ n)
    (he : (do
      let names ← if ← isNext .rightParen then pure [] else parameters n #[]
      let _ ← expect .rightParen
      let body ← block n
      return .function name names body (← spanSince s.next.span) : Parser Stmt) s₂ = .ok d s') :
    ∃ f ks', s'.Spells ks' ∧
      TakesStmt (.reserved .fun :: .identifier name :: .reserved .leftParen :: ks) f ks' ∧ f.Gives s d s' := by
  obtain ⟨names, s₃, ks₁, hs₁, rfl, hlen, hparameters, he⟩ : ∃ names s₃ ks₁, s₃.Spells ks₁ ∧
      ks = spellingNames names ++ ks₁ ∧ names.length ≤ maxArguments ∧
      (∀ ⦃ts i⦄, s₂.At ts i → s₃.At ts (i + (spellingNames names).length)) ∧
      (do
        let _ ← expect .rightParen
        let body ← block n
        return Stmt.function name names body (← spanSince s.next.span) : Parser Stmt) s₃ = .ok d s' := by
    by_cases hclose : ks.head? = some (.reserved .rightParen)
    · simp only [apply_bind_of_ok (isNext_of_head hs hclose), if_true] at he
      exact ⟨[], s₂, ks, hs, rfl, Nat.zero_le _, fun ts i hat => hat, he⟩
    · simp only [apply_bind_of_ok (isNext_of_ne hs hclose), Bool.false_eq_true, if_false] at he
      obtain ⟨names, s₃, hnames, he⟩ := apply_bind_eq_ok.mp he
      obtain ⟨more, ks₁, hs₁, hspelling, -, rfl, hlen, hat'⟩ := parameters_take n hs (by omega) hnames
      exact ⟨_, s₃, ks₁, hs₁, hspelling, hlen, hat', he⟩
  obtain ⟨_, s₄, hclose, he⟩ := apply_bind_eq_ok.mp he
  obtain ⟨body, s₅, hbody, he⟩ := apply_bind_eq_ok.mp he
  obtain ⟨rfl, rfl⟩ := EStateM.Result.ok.inj he
  obtain ⟨ks₂, rfl, hs₂⟩ := expect_eq_ok hs₁ hclose
  simp only [List.length_append, List.length_cons] at hn
  obtain ⟨fs, ks', hs', rfl, hcanonical, hgives⟩ := hblock hs₂ (by omega) hbody
  refine ⟨.function name names fs, ks', hs', .of_closed ?_ ?_ rfl,
    .function hstart hname hopen hparameters hclose hgives⟩
  · rw [SurfaceStmt.spelling]
    simp
  · rw [SurfaceStmt.canonical, hcanonical, decide_eq_true hlen]
    rfl

theorem declarationTakes_succ (hstmt : StatementTakes n) (hblock : BlockTakes n) : DeclarationTakes (n + 1) := by
  intro s s' ks d hs hn he
  rw [declaration, apply_bind_of_ok (peek_apply s)] at he
  generalize hkind : s.next.kind = k at he
  split at he
  · obtain ⟨ks₁, rfl, hs₁⟩ := hs.of_next hkind (TokenKind.reserved_ne_eof _)
    rw [apply_bind_of_ok (take_apply s)] at he
    obtain ⟨name, s₂, hname, he⟩ := apply_bind_eq_ok.mp he
    obtain ⟨_, s₃, hopen, he⟩ := apply_bind_eq_ok.mp he
    obtain ⟨ks₂, rfl, hs₂⟩ := identifier_eq_ok hs₁ hname
    obtain ⟨ks₃, rfl, hs₃⟩ := expect_eq_ok hs₂ hopen
    simp only [List.length_cons] at hn
    exact function_takes hblock hs.next_ne_eof hname hopen hs₃ (by omega) he
  · obtain ⟨ks₁, rfl, -⟩ := hs.of_next hkind (TokenKind.reserved_ne_eof _)
    rw [List.length_cons] at hn
    obtain ⟨name, value, ks', hs', htakes, hgives⟩ := varDeclaration_takes hs (by omega) he
    exact ⟨_, ks', hs', htakes, hgives⟩
  · cases he
  · obtain ⟨f, ks', hs', htakes, hgives, -⟩ := hstmt hs (by omega) he
    exact ⟨f, ks', hs', htakes, hgives⟩

/-- All of them do so, whatever `n` is. -/
theorem statements_take (n : Nat) : DeclarationTakes n ∧ StatementTakes n ∧ BlockTakes n ∧ DeclarationsTake n := by
  induction n with
  | zero =>
      refine ⟨?_, ?_, ?_, ?_⟩
      · intro s s' ks d hs hn
        omega
      · intro s s' ks d hs hn
        omega
      · intro s s' ks body hs hn
        omega
      · intro s s' ks given body hs hn
        omega
  | succ n ih =>
      obtain ⟨hdecl, hstmt, hblock, hdecls⟩ := ih
      exact ⟨declarationTakes_succ hstmt hblock, statementTakes_succ hstmt hblock, blockTakes_succ hdecls,
        declarationsTake_succ hdecl hdecls⟩

end Parser

/-! ## Programs -/

theorem TokenStream.spells_ofTokens (tokens : List Token) :
    (TokenStream.ofTokens tokens).Spells ((tokens.takeWhile (! ·.kind.isEof)).map (·.kind)) where
  kinds := rfl
  stop := TokenStream.stop_kind_ofTokens tokens

/-- An error that has been noted stays noted. -/
theorem Reading.errors_of_from {fuel rounds : Nat} {r r' : Reading} {s : TokenStream}
    (h : Reading.from fuel rounds r s = some r') (hempty : r'.errors.isEmpty = true) : r.errors.isEmpty = true := by
  induction rounds generalizing r s with
  | zero =>
      rw [Reading.from] at h
      split at h <;> cases h
      exact hempty
  | succ rounds ih =>
      rw [Reading.from] at h
      split at h
      · cases h
        exact hempty
      · split at h
        · have hkept := ih h
          exact hkept
        · have hpush := ih h
          simp at hpush
        · cases h

/-- A reading without errors adds the statements that the stream spells. -/
theorem Reading.from_written {fuel rounds : Nat} {r r' : Reading} {s : TokenStream} {ks : List TokenKind}
    (hs : s.Spells ks) (hfuel : 4 * ks.length + 4 ≤ fuel) (h : Reading.from fuel rounds r s = some r')
    (hempty : r'.errors.isEmpty = true) :
    ∃ fs more s', r'.statements.toList = r.statements.toList ++ more ∧
      ks = SurfaceStmt.spellingAll fs ∧ SurfaceStmt.canonicalAll fs = true ∧ SurfaceStmt.GivesAll 0 fs s more s' := by
  induction rounds generalizing r s ks with
  | zero =>
      rw [Reading.from] at h
      split at h
      · rename_i hend
        cases h
        rw [hs.atEnd_eq, List.isEmpty_iff] at hend
        exact ⟨[], [], s, by simp, hend, rfl, .nil s⟩
      · cases h
  | succ rounds ih =>
      rw [Reading.from] at h
      split at h
      · rename_i hend
        cases h
        rw [hs.atEnd_eq, List.isEmpty_iff] at hend
        exact ⟨[], [], s, by simp, hend, rfl, .nil s⟩
      · split at h
        · rename_i d s₁ hd
          obtain ⟨f, ks₁, hs₁, htakes, hgives⟩ := (Parser.statements_take fuel).1 hs hfuel hd
          have hlt := htakes.length_lt
          obtain ⟨fs, more, s', hmore, hspelling, hcanonical, hgives'⟩ := ih hs₁ (by omega) h
          refine ⟨f :: fs, d :: more, s', ?_, ?_, ?_, hgives.cons hgives'⟩
          · simp only [hmore, Array.toList_push, List.append_assoc, List.singleton_append]
          · rw [htakes.spelling, hspelling, SurfaceStmt.spellingAll]
          · rw [SurfaceStmt.canonicalAll, htakes.canonical, hcanonical, Bool.and_true]
        · have hpush := Reading.errors_of_from h hempty
          simp at hpush
        · cases h

/-- A program that is read is what canonical statements stand for that spell the tokens up to the end. -/
theorem Program.ofTokens_written {tokens : List Token} {p : Program} (h : Program.ofTokens tokens = .ok p) :
    ∃ fs s', SurfaceStmt.spellingAll fs = (tokens.takeWhile (! ·.kind.isEof)).map (·.kind) ∧
      SurfaceStmt.canonicalAll fs = true ∧ SurfaceStmt.GivesAll 0 fs (TokenStream.ofTokens tokens) p s' := by
  have hs := TokenStream.spells_ofTokens tokens
  obtain ⟨r, hr⟩ := TokenStream.exists_read? tokens
  rw [Program.ofTokens_of_read hr] at h
  split at h
  · rename_i hempty
    obtain rfl := Except.ok.inj h
    obtain ⟨fs, more, s', hmore, hspelling, hcanonical, hgives⟩ :=
      Reading.from_written hs (by rw [hs.length_rest]; omega) hr hempty
    rw [hmore]
    exact ⟨fs, s', hspelling.symm, hcanonical, hgives⟩
  · cases h

end Lox
