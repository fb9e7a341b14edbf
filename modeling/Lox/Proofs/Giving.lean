import Lox.Proofs.Surface

/-!
# What written statements give

How a statement that is read from a stream belongs to the statement that is written there.

* `Expr.Extends e s s'` : over tokens in order, the expression has the spans of the tokens between `s` and `s'`;
* `TakesStmt ks f ks'` : the tokens `ks` spell the canonical statement `f` and go on with `ks'`;
* `SurfaceStmt.Gives f s d s'` : the statement `d`, read from `s` up to `s'`, is what `f` stands for, and over tokens in
  order it has the spans of its tokens.

For each kind of statement, there is a lemma that builds these facts from those about its parts.
-/

namespace Lox

/-! ## Expressions -/

/-- Over tokens in order, the expression extends from where `s` is up to where `s'` is. -/
def Expr.Extends (e : Expr) (s s' : TokenStream) : Prop :=
  ∀ ⦃ts : List Token⦄ ⦃i : Nat⦄, Token.Ordered ts → s.At ts i →
    s'.At ts (i + e.width) ∧ e.spanned (Token.run ts) i = e

def Expr.ExtendsInside (e : Expr) (s s' : TokenStream) : Prop :=
  ∀ ⦃ts : List Token⦄ ⦃i : Nat⦄, Token.Ordered ts → s.At ts i →
    s'.At ts (i + 1 + e.width + 1) ∧ e.spanned (Token.run ts) (i + 1) = e

def Expr.ExtendsOption (value : Option Expr) (s s' : TokenStream) : Prop :=
  ∀ ⦃ts : List Token⦄ ⦃i : Nat⦄, Token.Ordered ts → s.At ts i →
    s'.At ts (i + (Expr.spellingOption [] value).length) ∧ value.map (·.spanned (Token.run ts) i) = value

/-! ## Tokens of statements -/

/-- The tokens `ks` spell the statement, and then there are the tokens `ks'`. -/
structure TakesStmt (ks : List TokenKind) (f : SurfaceStmt) (ks' : List TokenKind) : Prop where
  spelling : ks = f.spelling ++ ks'
  canonical : f.canonical = true
  follows : f.endsOpen = true → ks'.head? ≠ some (.reserved .else)

namespace TakesStmt

variable {ks ks' ks'' : List TokenKind} {f : SurfaceStmt} {test : Expr}

theorem length_lt (h : TakesStmt ks f ks') : ks'.length < ks.length := by
  have hpos := f.width_pos
  unfold SurfaceStmt.width at hpos
  rw [h.spelling, List.length_append]
  omega

/-- A statement to which no `else` could belong. -/
theorem of_closed (hspelling : ks = f.spelling ++ ks') (hcanonical : f.canonical = true) (hclosed : f.endsOpen = false) :
    TakesStmt ks f ks' := by
  refine ⟨hspelling, hcanonical, fun hopen => ?_⟩
  rw [hclosed] at hopen
  cases hopen

/-- A branch without `else` behind it. -/
theorem ifThen (h : TakesStmt ks f ks') (htest : test.canonical = true) (hdecl : f.isDeclaration = false)
    (helse : ks'.head? ≠ some (.reserved .else)) :
    TakesStmt (.reserved .if :: .reserved .leftParen :: test.spelling ++ .reserved .rightParen :: ks)
      (.ifElse test f none) ks' where
  spelling := by simp [h.spelling, SurfaceStmt.spelling, SurfaceStmt.spellingElse]
  canonical := by
    rw [SurfaceStmt.canonical, SurfaceStmt.canonicalElse, htest, hdecl, h.canonical]
    rfl
  follows _ := helse

/-- A branch with `else` behind it, which was not taken into the branch. -/
theorem ifElse {f' : SurfaceStmt} (h : TakesStmt ks f (.reserved .else :: ks')) (h' : TakesStmt ks' f' ks'')
    (htest : test.canonical = true) (hdecl : f.isDeclaration = false) (hdecl' : f'.isDeclaration = false) :
    TakesStmt (.reserved .if :: .reserved .leftParen :: test.spelling ++ .reserved .rightParen :: ks)
      (.ifElse test f (some f')) ks'' where
  spelling := by simp [h.spelling, h'.spelling, SurfaceStmt.spelling, SurfaceStmt.spellingElse]
  canonical := by
    have hclosed : f.endsOpen = false := Bool.eq_false_iff.mpr fun hopen => h.follows hopen rfl
    rw [SurfaceStmt.canonical, SurfaceStmt.canonicalElse, htest, hdecl, h.canonical, hclosed, hdecl', h'.canonical]
    rfl
  follows := h'.follows

theorem whileLoop (h : TakesStmt ks f ks') (htest : test.canonical = true) (hdecl : f.isDeclaration = false) :
    TakesStmt (.reserved .while :: .reserved .leftParen :: test.spelling ++ .reserved .rightParen :: ks)
      (.whileLoop test f) ks' where
  spelling := by simp [h.spelling, SurfaceStmt.spelling]
  canonical := by
    rw [SurfaceStmt.canonical, htest, hdecl, h.canonical]
    rfl
  follows := h.follows

theorem forLoop {initializer : Option SimpleStmt} {condition step : Option Expr} (h : TakesStmt ks f ks')
    (hinitializer : initializer.all (fun c => c.isInitializer && c.stmt.canonical) = true)
    (hcondition : condition.all Expr.canonical = true) (hstep : step.all Expr.canonical = true)
    (hdecl : f.isDeclaration = false) :
    TakesStmt (.reserved .for :: .reserved .leftParen :: (SimpleStmt.spellingInitial initializer ++
      (Expr.spellingOption [] condition ++ .reserved .semicolon :: (Expr.spellingOption [] step ++
        .reserved .rightParen :: ks)))) (.forLoop initializer condition step f) ks' where
  spelling := by simp [h.spelling, SurfaceStmt.spelling]
  canonical := by
    rw [SurfaceStmt.canonical, hinitializer, hcondition, hstep, hdecl, h.canonical]
    rfl
  follows := h.follows

end TakesStmt

/-! ## Statements -/

/-- The statement `d`, read from `s` up to `s'`, is what `f` stands for. Without `for`, it is written as it is. Over
tokens in order, it has the spans of its tokens. -/
structure SurfaceStmt.Gives (f : SurfaceStmt) (s : TokenStream) (d : Stmt) (s' : TokenStream) : Prop where
  meaning : d.bare = f.meaning
  plain : .reserved .for ∉ f.spelling → f = d.surface
  extent : ∀ ⦃ts : List Token⦄ ⦃i : Nat⦄, Token.Ordered ts → s.At ts i →
    s'.At ts (i + f.width) ∧ d = f.tree (Token.run ts) i

structure SurfaceStmt.GivesAll (k : Nat) (fs : List SurfaceStmt) (s : TokenStream) (body : List Stmt)
    (s' : TokenStream) : Prop where
  meaning : Stmt.bareAll body = meaningAll fs
  plain : .reserved .for ∉ spellingAll fs → fs = Stmt.surfaceAll body
  extent : ∀ ⦃ts : List Token⦄ ⦃i : Nat⦄, Token.Ordered ts → s.At ts i →
    s'.At ts (i + k + (spellingAll fs).length + k) ∧ body = treeAll (Token.run ts) (i + k) fs

theorem SurfaceStmt.GivesAll.nil (s : TokenStream) : GivesAll 0 [] s [] s :=
  ⟨rfl, fun _ => rfl, fun _ _ _ hat => ⟨hat, rfl⟩⟩

theorem SurfaceStmt.Gives.cons {f : SurfaceStmt} {fs : List SurfaceStmt} {s s₁ s' : TokenStream} {d : Stmt}
    {body : List Stmt} (h : f.Gives s d s₁) (h' : GivesAll 0 fs s₁ body s') :
    GivesAll 0 (f :: fs) s (d :: body) s' where
  meaning := by rw [Stmt.bareAll, meaningAll, h.meaning, h'.meaning]
  plain hfor := by
    rw [spellingAll, List.mem_append, not_or] at hfor
    rw [Stmt.surfaceAll, ← h.plain hfor.1, ← h'.plain hfor.2]
  extent ts i hts hat := by
    obtain ⟨hat₁, hd⟩ := h.extent hts hat
    obtain ⟨hat', hbody⟩ := h'.extent hts hat₁
    refine ⟨hat'.congr ?_, ?_⟩
    · rw [spellingAll, List.length_append, width]
      omega
    · rw [treeAll, hd, hbody]
      rfl

structure SimpleStmt.GivesInitial (initializer : Option SimpleStmt) (s : TokenStream) (value : Option Stmt)
    (s' : TokenStream) : Prop where
  canonical : initializer.all (fun c => c.isInitializer && c.stmt.canonical) = true
  meaning : value.map Stmt.bare = initializer.map (·.stmt.bare)
  extent : ∀ ⦃ts : List Token⦄ ⦃i : Nat⦄, Token.Ordered ts → s.At ts i →
    s'.At ts (i + (spellingInitial initializer).length) ∧ initializer.map (·.tree (Token.run ts) i) = value

/-- A statement that a `for` loop can begin with. -/
theorem SurfaceStmt.Gives.initial {c : SimpleStmt} {s s' : TokenStream} {d : Stmt} {ks ks' : List TokenKind}
    (h : (SurfaceStmt.simple c).Gives s d s') (htakes : TakesStmt ks (.simple c) ks') (hc : c.isInitializer = true) :
    SimpleStmt.GivesInitial (some c) s (some d) s' where
  canonical := by
    have hcanonical : c.stmt.canonical = true := htakes.canonical
    rw [Option.all_some, hc, hcanonical]
    rfl
  meaning := congrArg some h.meaning
  extent ts i hts hat := by
    obtain ⟨hat', rfl⟩ := h.extent hts hat
    exact ⟨hat', rfl⟩

theorem Expr.span_bare (e : Expr) : e.bare.span = {} := by
  cases e <;> rw [bare] <;> rfl

theorem Stmt.bare_forLoop (initializer : Option Stmt) (condition step : Option Expr) (body : Stmt) (span : Span) :
    (Stmt.forLoop initializer condition step body span).bare =
      Stmt.forLoop (initializer.map bare) (condition.map Expr.bare) (step.map Expr.bare) body.bare {} := by
  cases initializer <;> cases condition <;> cases step <;>
    simp [Stmt.forLoop, bare, bareAll, Expr.bare, Expr.span_bare]

namespace SurfaceStmt.Gives

variable {s s₁ s₂ s' : TokenStream} {f f' : SurfaceStmt} {d d' : Stmt} {test : Expr}

/-- The span from the first token of the statement to the one taken last. -/
theorem span_eq {ts : List Token} {i : Nat} (hts : Token.Ordered ts) (hstart : s.next.kind ≠ .eof) (hat : s.At ts i)
    (hat' : s'.At ts (i + f.width)) : s.next.span.merge s'.last.span = Token.run ts i (i + f.width) := by
  rw [hat.next_span hstart, hat'.merge_last hts (Nat.lt_add_of_pos_right f.width_pos)]

theorem expression {e : Expr} {close : Token} (h : e.Extends s s₁)
    (hclose : Parser.expect .semicolon s₁ = .ok close s') :
    (simple (.expression e)).Gives s (.expression e (e.span.merge close.span)) s' where
  meaning := rfl
  plain _ := rfl
  extent ts i hts hat := by
    obtain ⟨hat₁, hspanned⟩ := h hts hat
    obtain ⟨hat', hspan⟩ := Parser.expect_at hat₁ hclose
    have hpos := e.width_pos
    rw [width_simple, tree, SimpleStmt.tree, SimpleStmt.width_expression, ← Nat.add_assoc, hspanned, hspan,
      Expr.span_of_spanned hspanned, hts.merge_run (by omega) (by omega) (by omega) hat'.le]
    exact ⟨hat', rfl⟩

theorem print {e : Expr} {close : Token} (hstart : s.next.kind ≠ .eof) (h : e.Extends s.tail s₁)
    (hclose : Parser.expect .semicolon s₁ = .ok close s') :
    (simple (.print e)).Gives s (.print e (s.next.span.merge close.span)) s' where
  meaning := rfl
  plain _ := rfl
  extent ts i hts hat := by
    obtain ⟨hat₁, hspanned⟩ := h hts (hat.tail hstart)
    obtain ⟨hat', hspan⟩ := Parser.expect_at hat₁ hclose
    rw [width_simple, tree, SimpleStmt.tree, SimpleStmt.width_print, ← Nat.add_assoc, ← Nat.add_assoc, hspanned, hspan,
      hat.next_span hstart, hts.merge_run (by omega) (by omega) (by omega) hat'.le]
    exact ⟨hat', rfl⟩

theorem returns {value : Option Expr} {close : Token} (hstart : s.next.kind ≠ .eof)
    (h : Expr.ExtendsOption value s.tail s₁) (hclose : Parser.expect .semicolon s₁ = .ok close s') :
    (simple (.returns value)).Gives s (.returns value (s.next.span.merge close.span)) s' where
  meaning := rfl
  plain _ := rfl
  extent ts i hts hat := by
    obtain ⟨hat₁, hspanned⟩ := h hts (hat.tail hstart)
    obtain ⟨hat', hspan⟩ := Parser.expect_at hat₁ hclose
    rw [width_simple, tree, SimpleStmt.tree, SimpleStmt.width_returns, ← Nat.add_assoc, ← Nat.add_assoc, hspanned,
      hspan, hat.next_span hstart, hts.merge_run (by omega) (by omega) (by omega) hat'.le]
    exact ⟨hat', rfl⟩

/-- A variable is declared from behind its name (`s₁`) and its initializer (`s₂`) on. -/
theorem var {name : String} {value : Option Expr} {close : Token} (hstart : s.next.kind ≠ .eof)
    (hname : Parser.identifier s.tail = .ok name s₁)
    (h : ∀ ⦃ts i⦄, Token.Ordered ts → s₁.At ts i →
      s₂.At ts (i + (Expr.spellingOption [.reserved .equal] value).length) ∧
        value.map (·.spanned (Token.run ts) (i + 1)) = value)
    (hclose : Parser.expect .semicolon s₂ = .ok close s') :
    (simple (.var name value)).Gives s (.var name value (s.next.span.merge close.span)) s' where
  meaning := rfl
  plain _ := rfl
  extent ts i hts hat := by
    obtain ⟨hat₂, hspanned⟩ := h hts (Parser.identifier_at (hat.tail hstart) hname)
    obtain ⟨hat', hspan⟩ := Parser.expect_at hat₂ hclose
    rw [width_simple, tree, SimpleStmt.tree, SimpleStmt.width_var, ← Nat.add_assoc, ← Nat.add_assoc, hspanned, hspan,
      hat.next_span hstart, hts.merge_run (by omega) (by omega) (by omega) hat'.le]
    exact ⟨hat', rfl⟩

theorem ifThen (hstart : s.next.kind ≠ .eof) (htest : test.ExtendsInside s.tail s₁) (h : f.Gives s₁ d s') :
    (SurfaceStmt.ifElse test f none).Gives s (.ifElse test d none (s.next.span.merge s'.last.span)) s' where
  meaning := by
    rw [Stmt.bare, SurfaceStmt.meaning, h.meaning]
    rfl
  plain hfor := by
    rw [Stmt.surface, ← h.plain fun hmem => hfor (by simp [SurfaceStmt.spelling, hmem])]
    rfl
  extent ts i hts hat := by
    obtain ⟨hat₁, hspanned⟩ := htest hts (hat.tail hstart)
    obtain ⟨hat', rfl⟩ := h.extent hts hat₁
    have hat' : s'.At ts (i + (SurfaceStmt.ifElse test f none).width) :=
      hat'.congr (by rw [width_ifElse, spellingElse, List.length_nil]; omega)
    rw [tree, hspanned, span_eq hts hstart hat hat']
    exact ⟨hat', rfl⟩

theorem ifElse (hstart : s.next.kind ≠ .eof) (htest : test.ExtendsInside s.tail s₁) (h : f.Gives s₁ d s₂)
    (helse : s₂.next.kind ≠ .eof) (h' : f'.Gives s₂.tail d' s') :
    (SurfaceStmt.ifElse test f (some f')).Gives s
      (.ifElse test d (some d') (s.next.span.merge s'.last.span)) s' where
  meaning := by rw [Stmt.bare, SurfaceStmt.meaning, h.meaning, Stmt.bareElse, h'.meaning, meaningElse]
  plain hfor := by
    rw [Stmt.surface, ← h.plain fun hmem => hfor (by simp [SurfaceStmt.spelling, hmem]), Stmt.surfaceElse,
      ← h'.plain fun hmem => hfor (by simp [SurfaceStmt.spelling, spellingElse, hmem])]
  extent ts i hts hat := by
    obtain ⟨hat₁, hspanned⟩ := htest hts (hat.tail hstart)
    obtain ⟨hat₂, rfl⟩ := h.extent hts hat₁
    obtain ⟨hat', rfl⟩ := h'.extent hts (hat₂.tail helse)
    have hat' : s'.At ts (i + (SurfaceStmt.ifElse test f (some f')).width) :=
      hat'.congr (by rw [width_ifElse, spellingElse, List.length_cons, ← width]; omega)
    rw [tree, hspanned, span_eq hts hstart hat hat']
    exact ⟨hat', rfl⟩

theorem whileLoop (hstart : s.next.kind ≠ .eof) (htest : test.ExtendsInside s.tail s₁) (h : f.Gives s₁ d s') :
    (SurfaceStmt.whileLoop test f).Gives s (.whileLoop test d (s.next.span.merge s'.last.span)) s' where
  meaning := by rw [Stmt.bare, SurfaceStmt.meaning, h.meaning]
  plain hfor := by rw [Stmt.surface, ← h.plain fun hmem => hfor (by simp [SurfaceStmt.spelling, hmem])]
  extent ts i hts hat := by
    obtain ⟨hat₁, hspanned⟩ := htest hts (hat.tail hstart)
    obtain ⟨hat', rfl⟩ := h.extent hts hat₁
    have hat' : s'.At ts (i + (SurfaceStmt.whileLoop test f).width) :=
      hat'.congr (by rw [width_whileLoop]; omega)
    rw [tree, hspanned, span_eq hts hstart hat hat']
    exact ⟨hat', rfl⟩

theorem block {fs : List SurfaceStmt} {body : List Stmt} (hstart : s.next.kind ≠ .eof) (h : GivesAll 1 fs s body s') :
    (SurfaceStmt.block fs).Gives s (.block body (s.next.span.merge s'.last.span)) s' where
  meaning := by rw [Stmt.bare, SurfaceStmt.meaning, h.meaning]
  plain hfor := by rw [Stmt.surface, ← h.plain fun hmem => hfor (by simp [SurfaceStmt.spelling, hmem])]
  extent ts i hts hat := by
    obtain ⟨hat', rfl⟩ := h.extent hts hat
    have hat' : s'.At ts (i + (SurfaceStmt.block fs).width) := hat'.congr (by rw [width_block]; omega)
    rw [tree, span_eq hts hstart hat hat']
    exact ⟨hat', rfl⟩

/-- A loop is read from behind its opening parenthesis (`s₁`), its initializer (`s₂`), its condition (`s₃`), the second
semicolon (`s₄`), its step (`s₅`) and its closing parenthesis (`s₆`) on. -/
theorem forLoop {s₃ s₄ s₅ s₆ : TokenStream} {t t₁ t₂ : Token} {initializer : Option SimpleStmt} {value : Option Stmt}
    {condition step : Option Expr} (hstart : s.next.kind ≠ .eof)
    (hopen : Parser.expect .leftParen s.tail = .ok t s₁)
    (hinitializer : SimpleStmt.GivesInitial initializer s₁ value s₂) (hcondition : Expr.ExtendsOption condition s₂ s₃)
    (hsemicolon : Parser.expect .semicolon s₃ = .ok t₁ s₄) (hstep : Expr.ExtendsOption step s₄ s₅)
    (hclose : Parser.expect .rightParen s₅ = .ok t₂ s₆) (h : f.Gives s₆ d s') :
    (SurfaceStmt.forLoop initializer condition step f).Gives s
      (.forLoop value condition step d (s.next.span.merge s'.last.span)) s' where
  meaning := by rw [Stmt.bare_forLoop, SurfaceStmt.meaning, h.meaning, hinitializer.meaning]
  plain hfor := absurd (by rw [SurfaceStmt.spelling]; simp) hfor
  extent ts i hts hat := by
    obtain ⟨hat₂, hvalue⟩ := hinitializer.extent hts (Parser.expect_at (hat.tail hstart) hopen).1
    obtain ⟨hat₃, hspanned⟩ := hcondition hts hat₂
    obtain ⟨hat₅, hspanned'⟩ := hstep hts (Parser.expect_at hat₃ hsemicolon).1
    obtain ⟨hat', hd⟩ := h.extent hts (Parser.expect_at hat₅ hclose).1
    have hat' : s'.At ts (i + (SurfaceStmt.forLoop initializer condition step f).width) :=
      hat'.congr (by rw [width_forLoop]; omega)
    rw [tree, hvalue, hspanned, hspanned', ← hd, span_eq hts hstart hat hat']
    exact ⟨hat', rfl⟩

/-- A function is read from behind its name (`s₁`), its opening parenthesis (`s₂`), its parameters (`s₃`) and its closing
parenthesis (`s₄`) on. -/
theorem function {s₃ s₄ : TokenStream} {t t₁ : Token} {name : String} {parameters : List String}
    {fs : List SurfaceStmt} {body : List Stmt} (hstart : s.next.kind ≠ .eof)
    (hname : Parser.identifier s.tail = .ok name s₁) (hopen : Parser.expect .leftParen s₁ = .ok t s₂)
    (hparameters : ∀ ⦃ts i⦄, s₂.At ts i → s₃.At ts (i + (spellingNames parameters).length))
    (hclose : Parser.expect .rightParen s₃ = .ok t₁ s₄) (h : GivesAll 1 fs s₄ body s') :
    (SurfaceStmt.function name parameters fs).Gives s
      (.function name parameters body (s.next.span.merge s'.last.span)) s' where
  meaning := by rw [Stmt.bare, SurfaceStmt.meaning, h.meaning]
  plain hfor := by rw [Stmt.surface, ← h.plain fun hmem => hfor (by simp [SurfaceStmt.spelling, hmem])]
  extent ts i hts hat := by
    have hat₂ := (Parser.expect_at (Parser.identifier_at (hat.tail hstart) hname) hopen).1
    obtain ⟨hat', rfl⟩ := h.extent hts (Parser.expect_at (hparameters hat₂) hclose).1
    have hat' : s'.At ts (i + (SurfaceStmt.function name parameters fs).width) :=
      hat'.congr (by rw [width_function]; omega)
    rw [tree, span_eq hts hstart hat hat']
    exact ⟨hat', rfl⟩

end SurfaceStmt.Gives

end Lox
