import Lox.Proofs.Streams

/-!
# Streams that are alike

Two streams that begin with the same tokens are read alike, whatever stands behind these tokens and however far the
count goes that the parsers run down.

* `Likeness` : which streams are alike, by how many tokens they have in common, and which are when a semicolon has
  been taken from both;
* `Likeness.Results` : two results are alike; `Likeness.Results.bind` carries this through a sequence;
* `Likeness.expression` : expressions are read alike;
* `Likeness.simple` : so are statements that end with a semicolon.

One error takes the semicolon that a statement should end with, `SyntaxError.missesOperand`, and has a case of its own
in `Likeness.Results`.
-/

namespace Lox

/-- Whether a semicolon stands where an expression had to. -/
def SyntaxError.missesOperand : SyntaxError → Bool
  | .unexpected expected found _ => expected = "expression" && found = Reserved.semicolon.text
  | _ => false

/-- A way in which two streams can be alike. -/
structure Likeness where
  /-- The streams have this many tokens in common. -/
  alike : Nat → TokenStream → TokenStream → Prop
  /-- A semicolon has been taken from both. -/
  behind : Nat → TokenStream → TokenStream → Prop
  next_eq : ∀ {l s t}, alike l s t → s.next = t.next
  pos : ∀ {l s t}, alike l s t → s.next.kind ≠ .eof → 0 < l
  tail : ∀ {l s t}, alike l s t → s.next.kind ≠ .reserved .semicolon → alike (l - 1) s.tail t.tail
  tail_semicolon : ∀ {l s t}, alike l s t → s.next.kind = .reserved .semicolon → behind (l - 1) s.tail t.tail

namespace Likeness

variable {L : Likeness} {α β : Type} {l b b' : Nat} {s t : TokenStream} {r : Reserved}
  {after after' : Nat → TokenStream → TokenStream → Prop}

/-! ## Results -/

/-- Both parsers succeed with the same value and leave streams that are related, with fewer than `b` tokens in common,
or both fail with the same error and leave streams that are alike. -/
inductive Results (L : Likeness) (after : Nat → TokenStream → TokenStream → Prop) (b : Nat) {α : Type} :
    EStateM.Result Parser.Stop TokenStream α → EStateM.Result Parser.Stop TokenStream α → Prop where
  | ok (a : α) {l : Nat} {s t : TokenStream} (hl : l < b) (h : after l s t) : Results L after b (.ok a s) (.ok a t)
  | error {e : SyntaxError} {l : Nat} {s t : TokenStream} (he : e.missesOperand = false) (h : L.alike l s t) :
      Results L after b (.error (.error e) s) (.error (.error e) t)
  | missing {e : SyntaxError} {l : Nat} {s t : TokenStream} (he : e.missesOperand = true) (h : L.behind l s t) :
      Results L after b (.error (.error e) s) (.error (.error e) t)

theorem Results.bind {x y : Parser α} {f g : α → Parser β} (hx : L.Results after b (x s) (y t))
    (hf : ∀ a l s' t', l < b → after l s' t' → L.Results after' b' (f a s') (g a t')) :
    L.Results after' b' ((x >>= f) s) ((y >>= g) t) := by
  generalize hr : x s = r at hx
  generalize hu : y t = u at hx
  cases hx with
  | ok a hl h =>
      rw [apply_bind_of_ok hr, apply_bind_of_ok hu]
      exact hf a _ _ _ hl h
  | error he h =>
      rw [apply_bind_of_error hr, apply_bind_of_error hu]
      exact .error he h
  | missing he h =>
      rw [apply_bind_of_error hr, apply_bind_of_error hu]
      exact .missing he h

theorem Results.map {x y : Parser α} (f : α → β) (hx : L.Results after b (x s) (y t)) :
    L.Results after b ((f <$> x) s) ((f <$> y) t) := by
  show L.Results after b (EStateM.map f x s) (EStateM.map f y t)
  unfold EStateM.map
  generalize x s = r at hx
  generalize y t = u at hx
  cases hx with
  | ok a hl h => exact .ok (f a) hl h
  | error he h => exact .error he h
  | missing he h => exact .missing he h

theorem Results.mono {x y : EStateM.Result Parser.Stop TokenStream α} (hx : L.Results after b x y) (hb : b ≤ b') :
    L.Results after b' x y := by
  cases hx with
  | ok a hl h => exact .ok a (Nat.lt_of_lt_of_le hl hb) h
  | error he h => exact .error he h
  | missing he h => exact .missing he h

/-! ## Primitive parsers -/

section Primitives

variable (h : L.alike l s t)

include h

theorem starts_eq (r : Reserved) : s.starts r = t.starts r := by
  unfold TokenStream.starts
  rw [L.next_eq h]

/-- A sequence that begins with a look at the next token. -/
theorem peek {f g : Token → Parser β} (hf : L.Results after b (f s.next s) (g s.next t)) :
    L.Results after b ((Parser.peek >>= f) s) ((Parser.peek >>= g) t) := by
  rw [apply_bind_of_ok (Parser.peek_apply s), apply_bind_of_ok (Parser.peek_apply t), ← L.next_eq h]
  exact hf

/-- A sequence that begins with taking the next token. -/
theorem take {f g : Token → Parser β} (hf : L.Results after b (f s.next s.tail) (g s.next t.tail)) :
    L.Results after b ((Parser.take >>= f) s) ((Parser.take >>= g) t) := by
  rw [apply_bind_of_ok (Parser.take_apply s), apply_bind_of_ok (Parser.take_apply t), ← L.next_eq h]
  exact hf

/-- A sequence that begins with the question whether a token comes next. -/
theorem isNext {f g : Bool → Parser β} (hf : L.Results after b (f (s.starts r) s) (g (s.starts r) t)) :
    L.Results after b ((Parser.isNext r >>= f) s) ((Parser.isNext r >>= g) t) := by
  have hs : Parser.isNext r s = .ok (s.starts r) s := rfl
  have ht : Parser.isNext r t = .ok (s.starts r) t := by
    rw [starts_eq h]
    rfl
  rw [apply_bind_of_ok hs, apply_bind_of_ok ht]
  exact hf

theorem refuse {expected : String} (he : expected ≠ "expression") :
    L.Results after b (Parser.refuse expected s : EStateM.Result Parser.Stop TokenStream α)
      (Parser.refuse expected t) := by
  refine peek h ?_
  refine .error ?_ h
  simp [SyntaxError.missesOperand, he]

theorem refuseMore (what : String) :
    L.Results after b (Parser.refuseMore what s : EStateM.Result Parser.Stop TokenStream α)
      (Parser.refuseMore what t) := by
  refine peek h ?_
  exact .error rfl h

end Primitives

/-- What follows a token other than a semicolon. -/
theorem tail_of_ne (h : L.alike l s t) (hr : r ≠ .semicolon) (hkind : s.next.kind = .reserved r) :
    L.alike (l - 1) s.tail t.tail := by
  refine L.tail h ?_
  rw [hkind]
  exact fun heq => hr (TokenKind.reserved.inj heq)

theorem pred_lt_of_starts (h : L.alike l s t) (hstarts : s.starts r = true) : l - 1 < l := by
  refine Nat.sub_lt (L.pos h ?_) Nat.one_pos
  rw [TokenStream.kind_of_starts hstarts]
  exact fun heq => nomatch heq

/-- What a token is called where it is missing is not what an expression is called. -/
theorem quoted_ne_expression (r : Reserved) : s!"'{r.text}'" ≠ "expression" := by
  cases r <;> decide

theorem expect_of_tail (h : L.alike l s t) (htail : s.next.kind = .reserved r → after (l - 1) s.tail t.tail) :
    L.Results after l (Parser.expect r s) (Parser.expect r t) := by
  refine isNext h ?_
  cases hstarts : s.starts r with
  | true =>
      show L.Results after l (.ok s.next s.tail) (.ok t.next t.tail)
      rw [← L.next_eq h]
      exact .ok s.next (pred_lt_of_starts h hstarts) (htail (TokenStream.kind_of_starts hstarts))
  | false => exact refuse h (quoted_ne_expression r)

theorem expect (h : L.alike l s t) (hr : r ≠ .semicolon) :
    L.Results L.alike l (Parser.expect r s) (Parser.expect r t) :=
  expect_of_tail h (tail_of_ne h hr)

/-- The semicolon at the end of a statement. -/
theorem expectSemicolon (h : L.alike l s t) :
    L.Results L.behind l (Parser.expect .semicolon s) (Parser.expect .semicolon t) :=
  expect_of_tail h (L.tail_semicolon h)

theorem accept_apply (r : Reserved) (s : TokenStream) :
    Parser.accept r s = .ok (s.starts r) (if s.starts r then s.tail else s) := by
  unfold Parser.accept
  rw [apply_bind_of_ok (rfl : Parser.isNext r s = .ok (s.starts r) s)]
  cases s.starts r <;> rfl

/-- A sequence that begins with taking a certain token, if it is there. -/
theorem accept {f g : Bool → Parser β} (h : L.alike l s t)
    (htrue : s.next.kind = .reserved r → l - 1 < l → L.Results after b (f true s.tail) (g true t.tail))
    (hfalse : L.Results after b (f false s) (g false t)) :
    L.Results after b ((Parser.accept r >>= f) s) ((Parser.accept r >>= g) t) := by
  rw [apply_bind_of_ok (accept_apply r s), apply_bind_of_ok (accept_apply r t), ← starts_eq h]
  cases hstarts : s.starts r with
  | true => exact htrue (TokenStream.kind_of_starts hstarts) (pred_lt_of_starts h hstarts)
  | false => exact hfalse

theorem identifier (h : L.alike l s t) : L.Results L.alike l (Parser.identifier s) (Parser.identifier t) := by
  unfold Parser.identifier
  refine peek h ?_
  cases hkind : s.next.kind with
  | identifier name =>
      have hpos : 0 < l := L.pos h (by rw [hkind]; exact fun heq => nomatch heq)
      refine take h ?_
      exact .ok name (Nat.sub_lt hpos Nat.one_pos) (L.tail h (by rw [hkind]; exact fun heq => nomatch heq))
  | _ => exact refuse h (by decide)

/-! ## Expressions

What each of the functions that read expressions does with streams that are alike, if both counts are large enough
for the tokens in common. -/

/-- An expression takes at least one token. -/
def ExpressionAlike (L : Likeness) (n : Nat) : Prop :=
  ∀ ⦃m l : Nat⦄ ⦃s t : TokenStream⦄ (least : Precedence), L.alike l s t → 4 * l + 2 ≤ n → 4 * l + 2 ≤ m →
    L.Results L.alike l (Parser.expression n least s) (Parser.expression m least t)

def OperandAlike (L : Likeness) (n : Nat) : Prop :=
  ∀ ⦃m l : Nat⦄ ⦃s t : TokenStream⦄, L.alike l s t → 4 * l + 1 ≤ n → 4 * l + 1 ≤ m →
    L.Results L.alike l (Parser.operand n s) (Parser.operand m t)

def ContinuationsAlike (L : Likeness) (n : Nat) : Prop :=
  ∀ ⦃m l : Nat⦄ ⦃s t : TokenStream⦄ (least : Precedence) (left : Expr), L.alike l s t → 4 * l + 1 ≤ n →
    4 * l + 1 ≤ m →
      L.Results L.alike (l + 1) (Parser.continuations n least left s) (Parser.continuations m least left t)

def ContinuationAlike (L : Likeness) (n : Nat) : Prop :=
  ∀ ⦃m l : Nat⦄ ⦃s t : TokenStream⦄ (c : Continuation) (left : Expr), L.alike l s t →
    s.next.kind = .reserved c.token → 4 * l ≤ n → 4 * l ≤ m →
    L.Results L.alike l (Parser.continuation n c left s) (Parser.continuation m c left t)

def ArgumentsAlike (L : Likeness) (n : Nat) : Prop :=
  ∀ ⦃m l : Nat⦄ ⦃s t : TokenStream⦄ (given : Array Expr), L.alike l s t → 4 * l + 3 ≤ n → 4 * l + 3 ≤ m →
    L.Results L.alike l (Parser.arguments n given s) (Parser.arguments m given t)

variable {n : Nat}

theorem expressionAlike_succ (ho : L.OperandAlike n) (hcs : L.ContinuationsAlike n) : L.ExpressionAlike (n + 1) := by
  intro m l s t least h hn hm
  obtain ⟨m, rfl⟩ : ∃ m', m = m' + 1 := ⟨m - 1, by omega⟩
  rw [Parser.expression, Parser.expression]
  refine (ho h (by omega) (by omega)).bind fun left l' s' t' hl h' => ?_
  exact (hcs least left h' (by omega) (by omega)).mono hl

theorem operandAlike_succ (hexpr : L.ExpressionAlike n) : L.OperandAlike (n + 1) := by
  intro m l s t h hn hm
  obtain ⟨m, rfl⟩ : ∃ m', m = m' + 1 := ⟨m - 1, by omega⟩
  rw [Parser.operand, Parser.operand]
  refine take h ?_
  have hpos : s.next.kind ≠ .eof → l - 1 < l := fun hne => Nat.sub_lt (L.pos h hne) Nat.one_pos
  have htail := L.tail h
  have hunary : ∀ op : UnaryOp, s.next.kind ≠ .eof → s.next.kind ≠ .reserved .semicolon →
      L.Results L.alike l
        ((do
          let operand ← Parser.expression n .unary
          return .unary op operand (s.next.span.merge operand.span) : Parser Expr) s.tail)
        ((do
          let operand ← Parser.expression m .unary
          return .unary op operand (s.next.span.merge operand.span) : Parser Expr) t.tail) := by
    intro op heof hsemi
    have hlt := hpos heof
    refine (hexpr .unary (htail hsemi) (by omega) (by omega)).bind fun operand l' s' t' hl h' => ?_
    exact .ok _ (by omega) h'
  cases hkind : s.next.kind with
  | number x => exact .ok _ (hpos (by simp [hkind])) (htail (by simp [hkind]))
  | string x => exact .ok _ (hpos (by simp [hkind])) (htail (by simp [hkind]))
  | identifier name => exact .ok _ (hpos (by simp [hkind])) (htail (by simp [hkind]))
  | eof => exact .error rfl (htail (by simp [hkind]))
  | reserved r =>
      rw [hkind] at hpos htail hunary
      cases r with
      | leftParen =>
          have hlt := hpos (by simp)
          refine (hexpr .assignment (htail (by simp)) (by omega) (by omega)).bind fun inner l' s' t' hl h' => ?_
          refine (expect h' (by decide)).bind fun close l'' s'' t'' hl' h'' => ?_
          exact .ok _ (by omega) h''
      | nil | true | false => exact .ok _ (hpos (by simp)) (htail (by simp))
      | minus => exact hunary .negate (by simp) (by simp)
      | bang => exact hunary .not (by simp) (by simp)
      | semicolon => exact .missing rfl (L.tail_semicolon h hkind)
      | _ => exact .error rfl (htail (by simp))

theorem continuationsAlike_succ (hc : L.ContinuationAlike n) (hcs : L.ContinuationsAlike n) :
    L.ContinuationsAlike (n + 1) := by
  intro m l s t least left h hn hm
  obtain ⟨m, rfl⟩ : ∃ m', m = m' + 1 := ⟨m - 1, by omega⟩
  rw [Parser.continuations, Parser.continuations]
  refine peek h ?_
  cases hk : s.next.kind.continuation? with
  | none => exact .ok left (Nat.lt_succ_self l) h
  | some c =>
      dsimp only
      by_cases hloose : c.precedence.rank < least.rank
      · rw [if_pos hloose, if_pos hloose]
        exact .ok left (Nat.lt_succ_self l) h
      · rw [if_neg hloose, if_neg hloose]
        have hkind := TokenKind.continuation?_eq_some.mp hk
        refine (hc c left h hkind (by omega) (by omega)).bind fun e l' s' t' hl h' => ?_
        exact (hcs least e h' (by omega) (by omega)).mono (by omega)

theorem continuationAlike_succ (hexpr : L.ExpressionAlike n) (hargs : L.ArgumentsAlike n) :
    L.ContinuationAlike (n + 1) := by
  intro m l s t c left h hkind hn hm
  have hpos : 0 < l := L.pos h (by simp [hkind])
  obtain ⟨m, rfl⟩ : ∃ m', m = m' + 1 := ⟨m - 1, by omega⟩
  have htail : L.alike (l - 1) s.tail t.tail := by
    refine L.tail h ?_
    rw [hkind]
    rcases c with _ | op | op | _ | _
    · decide
    · cases op <;> decide
    · cases op <;> decide
    · decide
    · decide
  rw [Parser.continuation, Parser.continuation]
  refine take h ?_
  cases c with
  | assign =>
      refine (hexpr .assignment htail (by omega) (by omega)).bind fun value l' s' t' hl h' => ?_
      cases left with
      | var name span => exact .ok _ (by omega) h'
      | _ => exact .error rfl h'
  | logical op =>
      refine (hexpr _ htail (by omega) (by omega)).bind fun right l' s' t' hl h' => ?_
      exact .ok _ (by omega) h'
  | binary op =>
      refine (hexpr _ htail (by omega) (by omega)).bind fun right l' s' t' hl h' => ?_
      exact .ok _ (by omega) h'
  | call =>
      have hclose : ∀ given l₁ s₁ t₁, l₁ < l → L.alike l₁ s₁ t₁ → L.Results L.alike l
          ((do
            let close ← Parser.expect .rightParen
            return .call left given (left.span.merge close.span) : Parser Expr) s₁)
          ((do
            let close ← Parser.expect .rightParen
            return .call left given (left.span.merge close.span) : Parser Expr) t₁) := by
        intro given l₁ s₁ t₁ hl₁ h₁
        refine (expect h₁ (by decide)).bind fun close l₂ s₂ t₂ hl₂ h₂ => ?_
        exact .ok _ (by omega) h₂
      refine isNext htail ?_
      cases s.tail.starts .rightParen with
      | true => exact hclose [] _ _ _ (by omega) htail
      | false =>
          refine (hargs #[] htail (by omega) (by omega)).bind fun given l₁ s₁ t₁ hl₁ h₁ => ?_
          exact hclose given l₁ s₁ t₁ (by omega) h₁
  | member => exact .error rfl htail

theorem argumentsAlike_succ (hexpr : L.ExpressionAlike n) (hargs : L.ArgumentsAlike n) : L.ArgumentsAlike (n + 1) := by
  intro m l s t given h hn hm
  obtain ⟨m, rfl⟩ : ∃ m', m = m' + 1 := ⟨m - 1, by omega⟩
  rw [Parser.arguments, Parser.arguments]
  split
  · exact refuseMore h _
  · refine (hexpr .assignment h (by omega) (by omega)).bind fun e l' s' t' hl h' => ?_
    refine accept h' (fun hcomma hlt => ?_) ?_
    · exact (hargs _ (tail_of_ne h' (by decide) hcomma) (by omega) (by omega)).mono (by omega)
    · exact .ok _ hl h'

/-- All of them do so, whatever `n` is. -/
theorem expressions_alike (L : Likeness) (n : Nat) :
    L.ExpressionAlike n ∧ L.OperandAlike n ∧ L.ContinuationsAlike n ∧ L.ContinuationAlike n ∧ L.ArgumentsAlike n := by
  induction n with
  | zero =>
      refine ⟨?_, ?_, ?_, ?_, ?_⟩
      · intro m l s t least h hn
        omega
      · intro m l s t h hn
        omega
      · intro m l s t least left h hn
        omega
      · intro m l s t c left h hkind hn
        have hpos : 0 < l := L.pos h (by simp [hkind])
        omega
      · intro m l s t given h hn
        omega
  | succ n ih =>
      obtain ⟨hexpr, ho, hcs, hc, hargs⟩ := ih
      exact ⟨expressionAlike_succ ho hcs, operandAlike_succ hexpr, continuationsAlike_succ hc hcs,
        continuationAlike_succ hexpr hargs, argumentsAlike_succ hexpr hargs⟩

/-! ## Statements that end with a semicolon -/

variable {m : Nat}

theorem expression (h : L.alike l s t) (least : Precedence) (hn : 4 * l + 2 ≤ n) (hm : 4 * l + 2 ≤ m) :
    L.Results L.alike l (Parser.expression n least s) (Parser.expression m least t) :=
  (expressions_alike L n).1 least h hn hm

theorem optional (h : L.alike l s t) (r : Reserved) (hn : 4 * l + 2 ≤ n) (hm : 4 * l + 2 ≤ m) :
    L.Results L.alike (l + 1) (Parser.optional n r s) (Parser.optional m r t) := by
  unfold Parser.optional
  refine isNext h ?_
  cases s.starts r with
  | true => exact .ok none (Nat.lt_succ_self l) h
  | false => exact ((expression h .assignment hn hm).map some).mono (Nat.le_succ l)

theorem expressionStatement (h : L.alike l s t) (hn : 4 * l + 2 ≤ n) (hm : 4 * l + 2 ≤ m) :
    L.Results L.behind l (Parser.expressionStatement n s) (Parser.expressionStatement m t) := by
  unfold Parser.expressionStatement
  refine (expression h .assignment hn hm).bind fun e l' s' t' hl h' => ?_
  refine (expectSemicolon h').bind fun close l'' s'' t'' hl' h'' => ?_
  exact .ok _ (by omega) h''

theorem varDeclaration (h : L.alike l s t) (hkind : s.next.kind = .reserved .var) (hn : 4 * l + 2 ≤ n)
    (hm : 4 * l + 2 ≤ m) :
    L.Results L.behind l (Parser.varDeclaration n s) (Parser.varDeclaration m t) := by
  have hpos : 0 < l := L.pos h (by simp [hkind])
  unfold Parser.varDeclaration
  refine take h ?_
  refine (identifier (L.tail h (by simp [hkind]))).bind fun name l₁ s₁ t₁ hl₁ h₁ => ?_
  have hclose : ∀ value l₂ s₂ t₂, l₂ ≤ l₁ → L.alike l₂ s₂ t₂ → L.Results L.behind l
      ((do
        let close ← Parser.expect .semicolon
        return Stmt.var name value (s.next.span.merge close.span) : Parser Stmt) s₂)
      ((do
        let close ← Parser.expect .semicolon
        return Stmt.var name value (s.next.span.merge close.span) : Parser Stmt) t₂) := by
    intro value l₂ s₂ t₂ hl₂ h₂
    refine (expectSemicolon h₂).bind fun close l₃ s₃ t₃ hl₃ h₃ => ?_
    exact .ok _ (by omega) h₃
  refine accept h₁ (fun hequal hlt => ?_) ?_
  · have htail := tail_of_ne h₁ (by decide) hequal
    refine ((expression htail .assignment (by omega) (by omega)).map some).bind fun value l₂ s₂ t₂ hl₂ h₂ => ?_
    exact hclose value l₂ s₂ t₂ (by omega) h₂
  · exact hclose none l₁ s₁ t₁ (Nat.le_refl _) h₁

/-- Statements other than blocks, branches and loops. -/
theorem simpleStatement (h : L.alike l s t)
    (hkind : ∀ r ∈ [Reserved.if, .while, .for, .leftBrace], s.next.kind ≠ .reserved r) (hn : 4 * l + 3 ≤ n)
    (hm : 4 * l + 3 ≤ m) :
    L.Results L.behind l (Parser.statement n s) (Parser.statement m t) := by
  obtain ⟨n, rfl⟩ : ∃ n', n = n' + 1 := ⟨n - 1, by omega⟩
  obtain ⟨m, rfl⟩ : ∃ m', m = m' + 1 := ⟨m - 1, by omega⟩
  rw [Parser.statement, Parser.statement]
  refine peek h ?_
  generalize hk : s.next.kind = k at hkind ⊢
  split
  · have hpos : 0 < l := L.pos h (by simp [hk])
    refine take h ?_
    refine (expression (L.tail h (by simp [hk])) .assignment (by omega) (by omega)).bind fun e l₁ s₁ t₁ hl₁ h₁ => ?_
    refine (expectSemicolon h₁).bind fun close l₂ s₂ t₂ hl₂ h₂ => ?_
    exact .ok _ (by omega) h₂
  · exact absurd rfl (hkind .if (by simp))
  · exact absurd rfl (hkind .while (by simp))
  · exact absurd rfl (hkind .for (by simp))
  · have hpos : 0 < l := L.pos h (by simp [hk])
    refine take h ?_
    refine (optional (L.tail h (by simp [hk])) .semicolon (by omega) (by omega)).bind fun value l₁ s₁ t₁ hl₁ h₁ => ?_
    refine (expectSemicolon h₁).bind fun close l₂ s₂ t₂ hl₂ h₂ => ?_
    exact .ok _ (by omega) h₂
  · exact absurd rfl (hkind .leftBrace (by simp))
  · exact expressionStatement h (by omega) (by omega)

/-- Declarations and statements other than functions, classes, blocks, branches and loops. -/
theorem simple (h : L.alike l s t)
    (hkind : ∀ r ∈ [Reserved.fun, .class, .if, .while, .for, .leftBrace], s.next.kind ≠ .reserved r)
    (hn : 4 * l + 4 ≤ n) (hm : 4 * l + 4 ≤ m) :
    L.Results L.behind l (Parser.declaration n s) (Parser.declaration m t) := by
  obtain ⟨n, rfl⟩ : ∃ n', n = n' + 1 := ⟨n - 1, by omega⟩
  obtain ⟨m, rfl⟩ : ∃ m', m = m' + 1 := ⟨m - 1, by omega⟩
  have hstatement := fun hn hm => simpleStatement (n := n) (m := m) h
    (fun r hr => hkind r (List.mem_cons_of_mem _ (List.mem_cons_of_mem _ hr))) hn hm
  rw [Parser.declaration, Parser.declaration]
  refine peek h ?_
  generalize hk : s.next.kind = k at hkind ⊢
  split
  · exact absurd rfl (hkind .fun (by simp))
  · exact varDeclaration h hk (by omega) (by omega)
  · exact absurd rfl (hkind .class (by simp))
  · exact hstatement (by omega) (by omega)

end Likeness

end Lox
