import Lox.Proofs.Streams

/-!
# Reading expressions: soundness

* `Expr.bound` : how tightly what stands behind an expression may bind;
* `Takes ks e ks'` : the tokens `ks` spell the canonical expression `e` and go on with `ks'`, which is not to be
  taken into it;
* `Parser.operand_cases` : the ways in which an operand can be read;
* `Parser.expressions_take` : an expression that is read takes its tokens off the stream.

The functions that read expressions count down a number that bounds how deep they nest. A number of four for each
token that is left, and a few more, is enough for them never to stop for that reason.
-/

namespace Lox

/-! ## What is left behind an expression -/

/-- How tightly a token behind an expression may bind, so as not to be taken into the last part of it. -/
def Expr.bound : Expr → Nat
  | .assign .. => Precedence.assignment.rank - 1
  | .unary .. => Precedence.unary.rank - 1
  | e => e.level.rank

theorem Expr.bound_le_level (e : Expr) : e.bound ≤ e.level.rank := by
  cases e <;> first | exact Nat.le_refl _ | exact Nat.sub_le _ _

theorem TokenKind.strength_le (k : TokenKind) : k.strength ≤ Precedence.call.rank := by
  cases hk : k.continuation? with
  | none => simp [strength, hk]
  | some c =>
      rw [strength, hk]
      rcases c with _ | op | op | _ | _
      · decide
      · cases op <;> decide
      · cases op <;> decide
      · decide
      · decide

/-- The tokens `ks` spell the expression, and then there are the tokens `ks'`. -/
structure Takes (ks : List TokenKind) (e : Expr) (ks' : List TokenKind) : Prop where
  spelling : ks = e.spelling ++ ks'
  canonical : e.canonical = true
  follows : leading ks' ≤ e.bound

namespace Takes

variable {ks ks' : List TokenKind} {e : Expr}

theorem of_primary (hspelling : ks = e.spelling ++ ks') (hcanonical : e.canonical = true)
    (hbound : e.bound = Precedence.primary.rank) : Takes ks e ks' where
  spelling := hspelling
  canonical := hcanonical
  follows := by
    rw [hbound]
    exact Nat.le_trans (TokenKind.strength_le _) (by decide)

theorem unary {op : UnaryOp} {span : Span} (h : Takes ks e ks') (hlevel : Precedence.unary.rank ≤ e.level.rank)
    (hstop : leading ks' < Precedence.unary.rank) :
    Takes (.reserved op.token :: ks) (.unary op e span) ks' where
  spelling := by rw [Expr.spelling, h.spelling, List.cons_append]
  canonical := by
    rw [Expr.canonical, h.canonical, Expr.bindsLike, Bool.and_true]
    exact decide_eq_true hlevel
  follows := Nat.le_pred_of_lt hstop

theorem length_lt (h : Takes ks e ks') : ks'.length < ks.length := by
  have hpos := e.spelling_length_pos
  rw [h.spelling, List.length_append]
  omega

end Takes

/-! ## Operators between operands -/

/-- The continuation is an operator between two operands, and `make` is the node it makes of them. -/
structure Continuation.Connects (c : Continuation) (make : Expr → Expr → Span → Expr) : Prop where
  spelling : ∀ left right span, (make left right span).spelling = left.spelling ++ .reserved c.token :: right.spelling
  level : ∀ left right span, (make left right span).level = c.precedence
  bound : ∀ left right span, (make left right span).bound = c.precedence.rank
  canonical : ∀ left right span, (make left right span).canonical = (left.bindsLike c.precedence &&
    right.bindsLike c.precedence.next && left.canonical && right.canonical)
  bare : ∀ left right span, (make left right span).bare = make left.bare right.bare {}
  read : ∀ n left s, Parser.continuation (n + 1) c left s = (do
    let right ← Parser.expression n c.precedence.next
    return make left right (left.span.merge right.span) : Parser Expr) s.tail
  rank_next : c.precedence.next.rank = c.precedence.rank + 1
  lt_unary : c.precedence.rank < Precedence.unary.rank
  assignment_lt : Precedence.assignment.rank < c.precedence.rank

theorem BinaryOp.connects (op : BinaryOp) : Continuation.Connects (.binary op) (.binary op) where
  spelling left right span := by rw [Expr.spelling]; rfl
  level _ _ _ := rfl
  bound _ _ _ := rfl
  canonical left right span := by rw [Expr.canonical]; rfl
  bare left right span := by rw [Expr.bare]
  read n left s := by rw [Parser.continuation, apply_bind_of_ok (Parser.take_apply s)]; rfl
  rank_next := by cases op <;> rfl
  lt_unary := by cases op <;> decide
  assignment_lt := by cases op <;> decide

theorem LogicalOp.connects (op : LogicalOp) : Continuation.Connects (.logical op) (.logical op) where
  spelling left right span := by rw [Expr.spelling]; rfl
  level _ _ _ := rfl
  bound _ _ _ := rfl
  canonical left right span := by rw [Expr.canonical]; rfl
  bare left right span := by rw [Expr.bare]
  read n left s := by rw [Parser.continuation, apply_bind_of_ok (Parser.take_apply s)]; rfl
  rank_next := by cases op <;> rfl
  lt_unary := by cases op <;> decide
  assignment_lt := by cases op <;> decide

/-- The right operand of an operator is followed by what binds no tighter than the operator. -/
theorem Continuation.Connects.takes {c : Continuation} {make : Expr → Expr → Span → Expr} (h : c.Connects make)
    {left right : Expr} {span : Span} {ks ks' : List TokenKind} (hleft : left.canonical = true)
    (hl : c.precedence.rank ≤ left.level.rank) (htakes : Takes ks right ks')
    (hlevel : c.precedence.next.rank ≤ right.level.rank) (hstop : leading ks' < c.precedence.next.rank) :
    Takes (left.spelling ++ .reserved c.token :: ks) (make left right span) ks' where
  spelling := by rw [h.spelling, htakes.spelling, List.append_assoc, List.cons_append]
  canonical := by
    simp only [h.canonical, Expr.bindsLike, hleft, htakes.canonical, hl, hlevel, decide_true, Bool.and_true]
  follows := by
    rw [h.rank_next] at hstop
    rw [h.bound]
    exact Nat.le_of_lt_succ hstop

/-! ## Operands -/

namespace Parser

section Operands

variable {s s' : TokenStream} {ks : List TokenKind} {e : Expr} {n : Nat}

theorem operand_literal {v : Value} (hs : s.Spells (v.token :: ks)) :
    operand (n + 1) s = .ok (.literal v s.next.span) s.tail := by
  have hkind : s.next.kind = v.token := hs.next_kind
  rw [operand, apply_bind_of_ok (take_apply s), hkind]
  rcases v with _ | (_ | _) | _ | _ <;> rfl

theorem operand_var {name : String} (hs : s.Spells (.identifier name :: ks)) :
    operand (n + 1) s = .ok (.var name s.next.span) s.tail := by
  have hkind : s.next.kind = .identifier name := hs.next_kind
  rw [operand, apply_bind_of_ok (take_apply s), hkind]
  rfl

theorem operand_grouping (hs : s.Spells (.reserved .leftParen :: ks)) :
    operand (n + 1) s = (do
      let inner ← expression n .assignment
      let close ← expect .rightParen
      return .grouping inner (s.next.span.merge close.span) : Parser Expr) s.tail := by
  have hkind : s.next.kind = .reserved .leftParen := hs.next_kind
  rw [operand, apply_bind_of_ok (take_apply s), hkind]

theorem operand_unary {op : UnaryOp} (hs : s.Spells (.reserved op.token :: ks)) :
    operand (n + 1) s = (do
      let operand ← expression n .unary
      return .unary op operand (s.next.span.merge operand.span) : Parser Expr) s.tail := by
  have hkind : s.next.kind = .reserved op.token := hs.next_kind
  rw [operand, apply_bind_of_ok (take_apply s), hkind]
  cases op <;> rfl

/-- The ways in which an operand can be read. -/
theorem operand_cases (hs : s.Spells ks) (he : operand (n + 1) s = .ok e s') :
    (∃ v ks', ks = v.token :: ks' ∧ e = .literal v s.next.span ∧ s' = s.tail) ∨
    (∃ name ks', ks = .identifier name :: ks' ∧ e = .var name s.next.span ∧ s' = s.tail) ∨
    (∃ inner close s₁ ks', ks = .reserved .leftParen :: ks' ∧ expression n .assignment s.tail = .ok inner s₁ ∧
      expect .rightParen s₁ = .ok close s' ∧ e = .grouping inner (s.next.span.merge close.span)) ∨
    ∃ op operand ks', ks = .reserved (UnaryOp.token op) :: ks' ∧ expression n .unary s.tail = .ok operand s' ∧
      e = .unary op operand (s.next.span.merge operand.span) := by
  have hliteral : ∀ v : Value, s.next.kind = v.token → v.token ≠ .eof →
      ∃ v ks', ks = Value.token v :: ks' ∧ e = .literal v s.next.span ∧ s' = s.tail := by
    intro v hv hne
    obtain ⟨ks', rfl, -⟩ := hs.of_next hv hne
    obtain ⟨rfl, rfl⟩ := EStateM.Result.ok.inj ((operand_literal hs).symm.trans he)
    exact ⟨v, ks', rfl, rfl, rfl⟩
  have hunary : ∀ op : UnaryOp, s.next.kind = .reserved op.token → ∃ op operand ks',
      ks = .reserved (UnaryOp.token op) :: ks' ∧ expression n .unary s.tail = .ok operand s' ∧
      e = .unary op operand (s.next.span.merge operand.span) := by
    intro op hop
    obtain ⟨ks', rfl, -⟩ := hs.of_next hop (fun heq => nomatch heq)
    obtain ⟨operand, s₁, hoperand, hreturn⟩ := apply_bind_eq_ok.mp ((operand_unary hs).symm.trans he)
    obtain ⟨rfl, rfl⟩ := EStateM.Result.ok.inj hreturn
    exact ⟨op, operand, ks', rfl, hoperand, rfl⟩
  cases hkind : s.next.kind with
  | number x => exact .inl (hliteral (.number x) hkind (fun heq => nomatch heq))
  | string x => exact .inl (hliteral (.string x) hkind (fun heq => nomatch heq))
  | identifier name =>
      obtain ⟨ks', rfl, -⟩ := hs.of_next hkind (fun heq => nomatch heq)
      obtain ⟨rfl, rfl⟩ := EStateM.Result.ok.inj ((operand_var hs).symm.trans he)
      exact .inr (.inl ⟨name, ks', rfl, rfl, rfl⟩)
  | reserved r =>
      cases r with
      | nil => exact .inl (hliteral .nil hkind (fun heq => nomatch heq))
      | true => exact .inl (hliteral (.boolean true) hkind (fun heq => nomatch heq))
      | false => exact .inl (hliteral (.boolean false) hkind (fun heq => nomatch heq))
      | minus => exact .inr (.inr (.inr (hunary .negate hkind)))
      | bang => exact .inr (.inr (.inr (hunary .not hkind)))
      | leftParen =>
          obtain ⟨ks', rfl, -⟩ := hs.of_next hkind (fun heq => nomatch heq)
          obtain ⟨inner, s₁, hinner, hrest⟩ := apply_bind_eq_ok.mp ((operand_grouping hs).symm.trans he)
          obtain ⟨close, s₂, hclose, hreturn⟩ := apply_bind_eq_ok.mp hrest
          obtain ⟨rfl, rfl⟩ := EStateM.Result.ok.inj hreturn
          exact .inr (.inr (.inl ⟨inner, close, s₁, ks', rfl, hinner, hclose, rfl⟩))
      | _ =>
          rw [operand, apply_bind_of_ok (take_apply s), hkind] at he
          cases he
  | eof =>
      rw [operand, apply_bind_of_ok (take_apply s), hkind] at he
      cases he

end Operands

/-! ## Expressions

What each of the functions that read expressions does with a stream, if `n` is large enough for the tokens in
it. -/

/-- An expression that is read takes its tokens off the stream. -/
def ExpressionTakes (n : Nat) : Prop :=
  ∀ ⦃s s' : TokenStream⦄ ⦃ks : List TokenKind⦄ ⦃e : Expr⦄ ⦃least : Precedence⦄, s.Spells ks →
    4 * ks.length + 2 ≤ n → least.rank ≤ Precedence.unary.rank → expression n least s = .ok e s' →
    ∃ ks', s'.Spells ks' ∧ Takes ks e ks' ∧ least.rank ≤ e.level.rank ∧ leading ks' < least.rank

def OperandTakes (n : Nat) : Prop :=
  ∀ ⦃s s' : TokenStream⦄ ⦃ks : List TokenKind⦄ ⦃e : Expr⦄, s.Spells ks → 4 * ks.length + 1 ≤ n →
    operand n s = .ok e s' → ∃ ks', s'.Spells ks' ∧ Takes ks e ks' ∧ Precedence.unary.rank ≤ e.level.rank

def ContinuationsTake (n : Nat) : Prop :=
  ∀ ⦃s s' : TokenStream⦄ ⦃ks : List TokenKind⦄ ⦃e left : Expr⦄ ⦃least : Precedence⦄, s.Spells ks →
    4 * ks.length + 1 ≤ n → left.canonical = true → leading ks ≤ left.bound → least.rank ≤ left.level.rank →
    continuations n least left s = .ok e s' →
    ∃ ks', s'.Spells ks' ∧ Takes (left.spelling ++ ks) e ks' ∧ least.rank ≤ e.level.rank ∧ leading ks' < least.rank

def ContinuationTakes (n : Nat) : Prop :=
  ∀ ⦃s s' : TokenStream⦄ ⦃ks : List TokenKind⦄ ⦃e left : Expr⦄ ⦃c : Continuation⦄,
    s.Spells (.reserved c.token :: ks) → 4 * ks.length + 4 ≤ n → left.canonical = true →
    c.precedence.rank ≤ left.level.rank → continuation n c left s = .ok e s' →
    ∃ ks', s'.Spells ks' ∧ ks'.length ≤ ks.length ∧ Takes (left.spelling ++ .reserved c.token :: ks) e ks' ∧
      e.level = c.precedence

def ArgumentsTake (n : Nat) : Prop :=
  ∀ ⦃s s' : TokenStream⦄ ⦃ks : List TokenKind⦄ ⦃given : Array Expr⦄ ⦃es : List Expr⦄, s.Spells ks →
    4 * ks.length + 3 ≤ n → arguments n given s = .ok es s' →
    ∃ more ks', s'.Spells ks' ∧ ks = Expr.spellingAll more ++ ks' ∧ Expr.canonicalAll more = true ∧ more ≠ [] ∧
      es = given.toList ++ more ∧ es.length ≤ maxArguments

variable {n : Nat}

theorem expressionTakes_succ (ho : OperandTakes n) (hc : ContinuationsTake n) : ExpressionTakes (n + 1) := by
  intro s s' ks e least hs hn hl he
  rw [expression] at he
  obtain ⟨left, s₁, hleft, he⟩ := apply_bind_eq_ok.mp he
  obtain ⟨ks₁, hs₁, htakes, hlevel⟩ := ho hs (by omega) hleft
  have hlt := htakes.length_lt
  obtain ⟨ks', hs', htakes', hlevel', hstop⟩ := hc hs₁ (by omega) htakes.canonical
    htakes.follows (Nat.le_trans hl hlevel) he
  rw [← htakes.spelling] at htakes'
  exact ⟨ks', hs', htakes', hlevel', hstop⟩

theorem operandTakes_succ (hexpr : ExpressionTakes n) : OperandTakes (n + 1) := by
  intro s s' ks e hs hn he
  have hprimary : Precedence.unary.rank ≤ Precedence.primary.rank := by decide
  rcases operand_cases hs he with ⟨v, ks', rfl, rfl, rfl⟩ | ⟨name, ks', rfl, rfl, rfl⟩ |
    ⟨inner, close, s₁, ks₁, rfl, hinner, hclose, rfl⟩ | ⟨op, operand, ks₁, rfl, hoperand, rfl⟩
  · exact ⟨ks', hs.tail, .of_primary (by rw [Expr.spelling]; rfl) rfl rfl, hprimary⟩
  · exact ⟨ks', hs.tail, .of_primary (by rw [Expr.spelling]; rfl) rfl rfl, hprimary⟩
  · rw [List.length_cons] at hn
    obtain ⟨ks₂, hs₂, htakes, -⟩ := hexpr hs.tail (by omega) (by decide) hinner
    obtain ⟨ks', rfl, hs'⟩ := expect_eq_ok hs₂ hclose
    refine ⟨ks', hs', .of_primary ?_ htakes.canonical rfl, hprimary⟩
    rw [htakes.spelling, Expr.spelling]
    simp
  · rw [List.length_cons] at hn
    obtain ⟨ks', hs', htakes, hlevel, hstop⟩ := hexpr hs.tail (by omega) (Nat.le_refl _) hoperand
    exact ⟨ks', hs', htakes.unary hlevel hstop, Nat.le_refl _⟩

theorem continuationsTake_succ (hc : ContinuationTakes n) (hcs : ContinuationsTake n) :
    ContinuationsTake (n + 1) := by
  intro s s' ks e left least hs hn hleft hfollows hl he
  rw [continuations, apply_bind_of_ok (peek_apply s)] at he
  cases hk : s.next.kind.continuation? with
  | none =>
      simp only [hk] at he
      obtain ⟨rfl, rfl⟩ := EStateM.Result.ok.inj he
      have hzero : leading ks = 0 := by
        rw [leading, ← hs.next_kind, TokenKind.strength, hk]
      exact ⟨ks, hs, ⟨rfl, hleft, hfollows⟩, hl, by rw [hzero]; exact least.rank_pos⟩
  | some c =>
      simp only [hk] at he
      obtain ⟨ks₁, rfl, -⟩ := hs.of_next (TokenKind.continuation?_eq_some.mp hk) (by rintro ⟨⟩)
      rw [leading_cons, c.strength_token] at hfollows
      split at he
      · rename_i hloose
        obtain ⟨rfl, rfl⟩ := EStateM.Result.ok.inj he
        refine ⟨_, hs, ⟨rfl, hleft, ?_⟩, hl, ?_⟩
        · rwa [leading_cons, c.strength_token]
        · rwa [leading_cons, c.strength_token]
      · rename_i htight
        rw [List.length_cons] at hn
        obtain ⟨e₁, s₁, he₁, he⟩ := apply_bind_eq_ok.mp he
        obtain ⟨ks₂, hs₂, hlen, htakes, hlevel⟩ := hc hs (by omega) hleft
          (Nat.le_trans hfollows left.bound_le_level) he₁
        obtain ⟨ks', hs', htakes', hlevel', hstop⟩ := hcs hs₂ (by omega) htakes.canonical
          htakes.follows (by rw [hlevel]; omega) he
        rw [← htakes.spelling] at htakes'
        exact ⟨ks', hs', htakes', hlevel', hstop⟩

theorem continuationTakes_succ (hexpr : ExpressionTakes n) (hargs : ArgumentsTake n) :
    ContinuationTakes (n + 1) := by
  intro s s' ks e left c hs hn hleft hl he
  have hs₁ := hs.tail
  have hconnects : ∀ make, c.Connects make → ∃ ks', s'.Spells ks' ∧ ks'.length ≤ ks.length ∧
      Takes (left.spelling ++ .reserved c.token :: ks) e ks' ∧ e.level = c.precedence := by
    intro make hmake
    have hlt := hmake.lt_unary
    have hnext := hmake.rank_next
    rw [hmake.read] at he
    obtain ⟨right, s₂, hright, he⟩ := apply_bind_eq_ok.mp he
    obtain ⟨rfl, rfl⟩ := EStateM.Result.ok.inj he
    obtain ⟨ks', hs', htakes, hlevel, hstop⟩ := hexpr hs₁ (by omega) (by omega) hright
    exact ⟨ks', hs', Nat.le_of_lt htakes.length_lt, hmake.takes hleft hl htakes hlevel hstop, hmake.level _ _ _⟩
  cases c with
  | logical op => exact hconnects _ op.connects
  | binary op => exact hconnects _ op.connects
  | assign =>
      rw [continuation, apply_bind_of_ok (take_apply s)] at he
      obtain ⟨value, s₂, hvalue, he⟩ := apply_bind_eq_ok.mp he
      obtain ⟨ks', hs', htakes, -, hstop⟩ := hexpr hs₁ (by omega) (by decide) hvalue
      cases left with
      | var name span =>
          obtain ⟨rfl, rfl⟩ := EStateM.Result.ok.inj he
          refine ⟨ks', hs', Nat.le_of_lt htakes.length_lt, ⟨?_, htakes.canonical, Nat.le_pred_of_lt hstop⟩, rfl⟩
          rw [htakes.spelling]
          rfl
      | _ => cases he
  | call =>
      rw [continuation, apply_bind_of_ok (take_apply s)] at he
      obtain ⟨given, s₂, ks₂, hs₂, hspelling, hcanonical, hlen, he⟩ : ∃ given s₂ ks₂, s₂.Spells ks₂ ∧
          ks = Expr.spellingAll given ++ ks₂ ∧ Expr.canonicalAll given = true ∧ given.length ≤ maxArguments ∧
          (do
            let close ← expect .rightParen
            return left.call given (left.span.merge close.span) : Parser Expr) s₂ = .ok e s' := by
        by_cases hclose : ks.head? = some (.reserved .rightParen)
        · simp only [apply_bind_of_ok (isNext_of_head hs₁ hclose), if_true] at he
          exact ⟨[], s.tail, ks, hs₁, rfl, rfl, Nat.zero_le _, he⟩
        · simp only [apply_bind_of_ok (isNext_of_ne hs₁ hclose), Bool.false_eq_true, if_false] at he
          obtain ⟨given, s₂, hgiven, he⟩ := apply_bind_eq_ok.mp he
          obtain ⟨more, ks₂, hs₂, hspelling, hcanonical, -, rfl, hlen⟩ := hargs hs₁ (by omega) hgiven
          exact ⟨_, s₂, ks₂, hs₂, hspelling, hcanonical, hlen, he⟩
      obtain ⟨close, s₃, hclose, he⟩ := apply_bind_eq_ok.mp he
      obtain ⟨rfl, rfl⟩ := EStateM.Result.ok.inj he
      obtain ⟨ks', rfl, hs'⟩ := expect_eq_ok hs₂ hclose
      refine ⟨ks', hs', ?_, ⟨?_, ?_, TokenKind.strength_le _⟩, rfl⟩
      · rw [hspelling, List.length_append, List.length_cons]
        omega
      · rw [hspelling, Expr.spelling]
        simp [Continuation.token]
      · have hl' : Precedence.call.rank ≤ left.level.rank := hl
        simp only [Expr.canonical, Expr.bindsLike, hleft, hcanonical, hl', hlen, decide_true, Bool.and_true]
  | member =>
      rw [continuation, apply_bind_of_ok (take_apply s)] at he
      cases he

theorem argumentsTake_succ (hexpr : ExpressionTakes n) (hargs : ArgumentsTake n) : ArgumentsTake (n + 1) := by
  intro s s' ks given es hs hn he
  rw [arguments] at he
  split at he
  · cases he
  · rename_i hfew
    obtain ⟨e, s₁, hread, he⟩ := apply_bind_eq_ok.mp he
    obtain ⟨ks₁, hs₁, htakes, -⟩ := hexpr hs (by omega) (by decide) hread
    have hlt := htakes.length_lt
    by_cases hcomma : ks₁.head? = some (.reserved .comma)
    · obtain ⟨ks₂, rfl⟩ := List.head?_eq_some_iff.mp hcomma
      rw [apply_bind_of_ok (accept_of_head hs₁), if_pos rfl] at he
      rw [List.length_cons] at hlt
      obtain ⟨more, ks', hs', hspelling, hcanonical, hne, rfl, hlen⟩ :=
        hargs hs₁.tail (by omega) he
      refine ⟨e :: more, ks', hs', ?_, ?_, List.cons_ne_nil _ _, by simp, hlen⟩
      · obtain ⟨e', rest, rfl⟩ := List.exists_cons_of_ne_nil hne
        rw [htakes.spelling, hspelling, Expr.spellingAll, List.append_assoc, List.cons_append]
      · rw [Expr.canonicalAll, htakes.canonical, hcanonical, Bool.and_true]
    · rw [apply_bind_of_ok (accept_of_ne hs₁ hcomma)] at he
      obtain ⟨rfl, rfl⟩ := EStateM.Result.ok.inj he
      refine ⟨[e], ks₁, hs₁, htakes.spelling, ?_, List.cons_ne_nil _ _, by simp, ?_⟩
      · rw [Expr.canonicalAll, htakes.canonical]
        rfl
      · rw [Array.toList_push, List.length_append, List.length_singleton, Array.length_toList]
        omega

/-- All of them do so, whatever `n` is. -/
theorem expressions_take (n : Nat) :
    ExpressionTakes n ∧ OperandTakes n ∧ ContinuationsTake n ∧ ContinuationTakes n ∧ ArgumentsTake n := by
  induction n with
  | zero =>
      refine ⟨?_, ?_, ?_, ?_, ?_⟩
      · intro s s' ks e least hs hn
        omega
      · intro s s' ks e hs hn
        omega
      · intro s s' ks e left least hs hn
        omega
      · intro s s' ks e left c hs hn
        omega
      · intro s s' ks given es hs hn
        omega
  | succ n ih =>
      obtain ⟨hexpr, ho, hcs, hc, hargs⟩ := ih
      exact ⟨expressionTakes_succ ho hcs, operandTakes_succ hexpr, continuationsTake_succ hc hcs,
        continuationTakes_succ hexpr hargs, argumentsTake_succ hexpr hargs⟩

theorem expression_takes {s s' : TokenStream} {ks : List TokenKind} {e : Expr} (hs : s.Spells ks)
    (hn : 4 * ks.length + 2 ≤ n) (he : expression n .assignment s = .ok e s') :
    ∃ ks', s'.Spells ks' ∧ Takes ks e ks' := by
  obtain ⟨ks', hs', htakes, -⟩ := (expressions_take n).1 hs hn (by decide) he
  exact ⟨ks', hs', htakes⟩

end Parser

end Lox
