import Lox.Proofs.ExpressionSoundness

/-!
# Reading expressions: completeness

A canonical expression is read back from the tokens it spells, whatever their spans are.

* `Expr.Reached e` : reading the tokens of `e`, the parser gets to where it has read `e` and looks for what may
  continue it;
* `Expr.reached` : every canonical expression is reached;
* `Expr.Reached.reads` : if what follows binds too loosely to continue it, the expression is the result.

An expression is not read in one go: its leftmost operand is read first and then taken into larger and larger
expressions. This is why the induction is on `Reached`, which says nothing about how the loop goes on.
-/

namespace Lox

namespace Parser

variable {s s' : TokenStream} {ks : List TokenKind} {e left : Expr} {least : Precedence} {n : Nat}

/-! ## The loop -/

theorem expression_of_operand (h : operand n s = .ok e s') :
    expression (n + 1) least s = continuations n least e s' := by
  rw [expression, apply_bind_of_ok h]

/-- What binds too loosely ends the expression. -/
theorem continuations_stop (hs : s.Spells ks) (hstop : leading ks < least.rank) :
    continuations (n + 1) least left s = .ok left s := by
  have hkind := hs.next_kind
  rw [continuations, apply_bind_of_ok (peek_apply s), hkind]
  unfold leading TokenKind.strength at hstop
  cases hc : (ks.headD .eof).continuation? with
  | none => rfl
  | some c =>
      rw [hc] at hstop
      simp only [if_pos hstop]
      rfl

/-- What binds tightly enough takes the expression into a larger one. -/
theorem continuations_step {c : Continuation} (hs : s.Spells (.reserved c.token :: ks))
    (hl : least.rank ≤ c.precedence.rank) (h : continuation n c left s = .ok e s') :
    continuations (n + 1) least left s = continuations n least e s' := by
  have hkind : s.next.kind = .reserved c.token := hs.next_kind
  rw [continuations, apply_bind_of_ok (peek_apply s), hkind, TokenKind.continuation?_eq_some.mpr rfl]
  simp only [if_neg (Nat.not_lt.mpr hl)]
  exact apply_bind_of_ok h

end Parser

/-! ## Expressions -/

/-- From the tokens of the expression the parser gets to where it has read the expression, up to spans, and looks
for what may continue it. -/
def Expr.Reached (e : Expr) : Prop :=
  ∀ (n : Nat) (least : Precedence) ⦃s : TokenStream⦄ ⦃ks : List TokenKind⦄, s.Spells (e.spelling ++ ks) →
    4 * (e.spelling.length + ks.length) + 2 ≤ n → least.rank ≤ e.level.rank → leading ks ≤ e.bound →
    ∃ e' s' m, Parser.expression n least s = Parser.continuations m least e' s' ∧ 4 * ks.length + 1 ≤ m ∧
      s'.Spells ks ∧ e'.bare = e.bare

theorem Expr.le_bound_of_lt_level {e : Expr} {k : Nat} (h : k < e.level.rank) : k ≤ e.bound := by
  cases e <;> first | exact Nat.le_pred_of_lt h | exact Nat.le_of_lt h

/-- What binds as tightly as an expression may follow it, unless it is an assignment or has an operator in front. -/
theorem Expr.le_bound_of_le_level {e : Expr} {k : Nat} (h : k ≤ e.level.rank)
    (hassign : k ≠ Precedence.assignment.rank) (hunary : k ≠ Precedence.unary.rank) : k ≤ e.bound := by
  cases e with
  | assign name value s => exact Nat.le_pred_of_lt (Nat.lt_of_le_of_ne h hassign)
  | unary op operand s => exact Nat.le_pred_of_lt (Nat.lt_of_le_of_ne h hunary)
  | _ => exact h

/-- The expression is read, if what follows binds too loosely to continue it. -/
theorem Expr.Reached.reads {e : Expr} (h : e.Reached) (n : Nat) (least : Precedence) {s : TokenStream}
    {ks : List TokenKind} (hs : s.Spells (e.spelling ++ ks)) (hn : 4 * (e.spelling.length + ks.length) + 2 ≤ n)
    (hl : least.rank ≤ e.level.rank) (hstop : leading ks < least.rank) :
    ∃ e' s', Parser.expression n least s = .ok e' s' ∧ s'.Spells ks ∧ e'.bare = e.bare := by
  obtain ⟨e', s', m, heq, hm, hs', hbare⟩ := h n least hs hn hl (le_bound_of_lt_level (Nat.lt_of_lt_of_le hstop hl))
  obtain ⟨m, rfl⟩ : ∃ k, m = k + 1 := ⟨m - 1, by omega⟩
  exact ⟨e', s', by rw [heq, Parser.continuations_stop hs' hstop], hs', hbare⟩

/-- Where a whole expression is read, it is read if the next token does not continue it. -/
theorem Expr.Reached.reads_whole {e : Expr} (h : e.Reached) (n : Nat) {s : TokenStream} {k : TokenKind}
    {ks : List TokenKind} (hs : s.Spells (e.spelling ++ k :: ks)) (hn : 4 * (e.spelling.length + ks.length) + 6 ≤ n)
    (hk : k.continuation? = none) :
    ∃ e' s', Parser.expression n .assignment s = .ok e' s' ∧ s'.Spells (k :: ks) ∧ e'.bare = e.bare := by
  have hstop : leading (k :: ks) < Precedence.assignment.rank := by
    rw [leading_cons, TokenKind.strength, hk]
    decide
  exact h.reads n .assignment hs (by rw [List.length_cons]; omega) (Precedence.rank_pos _) hstop

namespace Expr

theorem reached_literal (v : Value) (span : Span) : (literal v span).Reached := by
  intro n least s ks hs hn hl hbound
  obtain ⟨n, rfl⟩ : ∃ k, n = k + 2 := ⟨n - 2, by omega⟩
  rw [spelling] at hs hn
  simp only [List.length_cons, List.length_nil] at hn
  exact ⟨_, _, n + 1, Parser.expression_of_operand (Parser.operand_literal hs), by omega, hs.tail, rfl⟩

theorem reached_var (name : String) (span : Span) : (var name span).Reached := by
  intro n least s ks hs hn hl hbound
  obtain ⟨n, rfl⟩ : ∃ k, n = k + 2 := ⟨n - 2, by omega⟩
  rw [spelling] at hs hn
  simp only [List.length_cons, List.length_nil] at hn
  exact ⟨_, _, n + 1, Parser.expression_of_operand (Parser.operand_var hs), by omega, hs.tail, rfl⟩

theorem reached_grouping {inner : Expr} (span : Span) (h : inner.Reached) : (grouping inner span).Reached := by
  intro n least s ks hs hn hl hbound
  obtain ⟨n, rfl⟩ : ∃ k, n = k + 2 := ⟨n - 2, by omega⟩
  simp only [spelling, List.cons_append, List.append_assoc, List.nil_append] at hs
  simp only [spelling, List.length_append, List.length_cons, List.length_nil] at hn
  obtain ⟨e', s₁, hexpr, hs₁, hbare⟩ := h.reads_whole n hs.tail (by omega) rfl
  have hoperand := @Parser.operand_grouping s _ n hs
  rw [apply_bind_of_ok hexpr, apply_bind_of_ok (Parser.expect_apply hs₁)] at hoperand
  refine ⟨_, _, n + 1, Parser.expression_of_operand hoperand, by omega, hs₁.tail, ?_⟩
  rw [bare, bare, hbare]

theorem reached_unary {op : UnaryOp} {operand : Expr} (span : Span) (h : operand.Reached)
    (hl : Precedence.unary.rank ≤ operand.level.rank) : (unary op operand span).Reached := by
  intro n least s ks hs hn _ hbound
  obtain ⟨n, rfl⟩ : ∃ k, n = k + 2 := ⟨n - 2, by omega⟩
  simp only [spelling, List.cons_append] at hs
  simp only [spelling, List.length_cons] at hn
  have hstop : leading ks < Precedence.unary.rank := Nat.lt_of_le_pred (Precedence.rank_pos _) hbound
  obtain ⟨e', s₁, hexpr, hs₁, hbare⟩ := h.reads n .unary hs.tail (by omega) hl hstop
  have hoperand := @Parser.operand_unary s _ n op hs
  rw [apply_bind_of_ok hexpr] at hoperand
  refine ⟨_, _, n + 1, Parser.expression_of_operand hoperand, by omega, hs₁, ?_⟩
  rw [bare, bare, hbare]

theorem reached_assign {name : String} {value : Expr} (span : Span) (h : value.Reached) :
    (assign name value span).Reached := by
  intro n least s ks hs hn hl hbound
  simp only [spelling, List.cons_append] at hs
  simp only [spelling, List.length_cons] at hn
  obtain ⟨n, rfl⟩ : ∃ k, n = k + 4 := ⟨n - 4, by omega⟩
  have hstop : leading ks < Precedence.assignment.rank := Nat.lt_of_le_pred (Precedence.rank_pos _) hbound
  obtain ⟨value', s₁, hvalue, hs₁, hbare⟩ := h.reads (n + 1) .assignment hs.tail.tail (by omega)
    (Precedence.rank_pos _) hstop
  have hname := @Parser.expression_of_operand _ _ _ least _ (@Parser.operand_var s _ (n + 2) name hs)
  have hassign : Parser.continuation (n + 2) .assign (.var name s.next.span) s.tail =
      .ok (.assign name value' (s.next.span.merge value'.span)) s₁ := by
    rw [Parser.continuation, apply_bind_of_ok (Parser.take_apply _)]
    exact apply_bind_of_ok hvalue
  rw [Parser.continuations_step (c := .assign) hs.tail hl hassign] at hname
  refine ⟨_, s₁, n + 2, hname, by omega, hs₁, ?_⟩
  rw [bare, bare, hbare]

theorem reached_connected {c : Continuation} {make : Expr → Expr → Span → Expr} (hmake : c.Connects make)
    {left right : Expr} (span : Span) (hleft : left.Reached) (hright : right.Reached)
    (hl : c.precedence.rank ≤ left.level.rank) (hr : c.precedence.next.rank ≤ right.level.rank) :
    (make left right span).Reached := by
  intro n least s ks hs hn hleast hbound
  rw [hmake.level] at hleast
  rw [hmake.bound] at hbound
  simp only [hmake.spelling, List.append_assoc, List.cons_append] at hs
  simp only [hmake.spelling, List.length_append, List.length_cons] at hn
  have hnext := hmake.rank_next
  have hlt := hmake.lt_unary
  have hgt := hmake.assignment_lt
  have hfollows : leading (.reserved c.token :: (right.spelling ++ ks)) ≤ left.bound := by
    rw [leading_cons, c.strength_token]
    exact le_bound_of_le_level hl (by omega) (by omega)
  obtain ⟨left', s₁, m, heq, hm, hs₁, hbare⟩ :=
    hleft n least hs (by simp only [List.length_append, List.length_cons]; omega) (Nat.le_trans hleast hl) hfollows
  simp only [List.length_append, List.length_cons] at hm
  obtain ⟨m, rfl⟩ : ∃ k, m = k + 2 := ⟨m - 2, by omega⟩
  obtain ⟨right', s₂, hexpr, hs₂, hbare'⟩ := hright.reads m _ hs₁.tail (by omega) hr (by omega)
  have hread := hmake.read m left' s₁
  rw [apply_bind_of_ok hexpr] at hread
  rw [Parser.continuations_step hs₁ hleast hread] at heq
  refine ⟨_, s₂, m + 1, heq, by omega, hs₂, ?_⟩
  rw [hmake.bare, hmake.bare, hbare, hbare']

theorem spellingAll_cons (e : Expr) (rest : List Expr) : ∃ ks, spellingAll (e :: rest) = e.spelling ++ ks := by
  cases rest with
  | nil => exact ⟨[], by rw [spellingAll, List.append_nil]⟩
  | cons e' rest => exact ⟨_, by rw [spellingAll]⟩

/-- Arguments are read up to the closing parenthesis. -/
theorem arguments_read {es : List Expr} (hes : ∀ e ∈ es, e.Reached) (hne : es ≠ []) (n : Nat)
    (given : Array Expr) {s : TokenStream} {ks : List TokenKind} (hlen : given.size + es.length ≤ Parser.maxArguments)
    (hs : s.Spells (spellingAll es ++ .reserved .rightParen :: ks))
    (hn : 4 * ((spellingAll es).length + ks.length) + 7 ≤ n) :
    ∃ es' s', Parser.arguments n given s = .ok (given.toList ++ es') s' ∧ s'.Spells (.reserved .rightParen :: ks) ∧
      bareAll es' = bareAll es := by
  induction es generalizing n given s with
  | nil => exact absurd rfl hne
  | cons e rest ih =>
      have he := hes e (List.mem_cons_self ..)
      rw [List.length_cons] at hlen
      obtain ⟨n, rfl⟩ : ∃ k, n = k + 1 := ⟨n - 1, by omega⟩
      rw [Parser.arguments, if_neg (by omega)]
      cases rest with
      | nil =>
          rw [spellingAll] at hs hn
          obtain ⟨e', s₁, hexpr, hs₁, hbare⟩ := he.reads_whole n hs (by omega) rfl
          rw [apply_bind_of_ok hexpr, apply_bind_of_ok (Parser.accept_of_ne hs₁ (by simp))]
          exact ⟨[e'], s₁, by simp, hs₁, by simp only [bareAll, hbare]⟩
      | cons e₂ rest =>
          rw [spellingAll, List.append_assoc, List.cons_append] at hs
          simp only [spellingAll, List.length_append, List.length_cons] at hn
          obtain ⟨e', s₁, hexpr, hs₁, hbare⟩ :=
            he.reads_whole n hs (by simp only [List.length_append, List.length_cons]; omega) rfl
          obtain ⟨es', s₂, hargs, hs₂, hbare'⟩ := ih (fun e hmem => hes e (List.mem_cons_of_mem _ hmem))
            (List.cons_ne_nil _ _) n (given.push e') (by rw [Array.size_push]; omega) hs₁.tail (by omega)
          rw [apply_bind_of_ok hexpr, apply_bind_of_ok (Parser.accept_of_head hs₁), if_pos rfl, hargs]
          exact ⟨e' :: es', s₂, by simp, hs₂, by simp only [bareAll, hbare, hbare']⟩

/-- A call is read from the opening parenthesis to the closing one. -/
theorem call_read {arguments : List Expr} (harguments : ∀ e ∈ arguments, e.Reached)
    (hlen : arguments.length ≤ Parser.maxArguments) (callee : Expr) (n : Nat) {s : TokenStream} {ks : List TokenKind}
    (hs : s.Spells (.reserved .leftParen :: (spellingAll arguments ++ .reserved .rightParen :: ks)))
    (hn : 4 * ((spellingAll arguments).length + ks.length) + 7 ≤ n) :
    ∃ es' span s', Parser.continuation (n + 1) .call callee s = .ok (.call callee es' span) s' ∧ s'.Spells ks ∧
      bareAll es' = bareAll arguments := by
  have hs₁ := hs.tail
  rw [Parser.continuation, apply_bind_of_ok (Parser.take_apply _)]
  cases arguments with
  | nil =>
      rw [spellingAll, List.nil_append] at hs₁
      simp only [apply_bind_of_ok (Parser.isNext_of_head hs₁ rfl), if_true]
      rw [apply_bind_of_ok (apply_pure _ _), apply_bind_of_ok (Parser.expect_apply hs₁)]
      exact ⟨[], _, s.tail.tail, rfl, hs₁.tail, rfl⟩
  | cons e rest =>
      obtain ⟨ks', hks'⟩ := spellingAll_cons e rest
      have hhead : (spellingAll (e :: rest) ++ .reserved .rightParen :: ks).head? ≠ some (.reserved .rightParen) := by
        rw [hks', List.append_assoc]
        exact e.head?_spelling_ne _ rfl
      obtain ⟨es', s₂, hargs, hs₂, hbare⟩ := arguments_read harguments (List.cons_ne_nil _ _) n #[]
        (by simpa using hlen) hs₁ hn
      simp only [apply_bind_of_ok (Parser.isNext_of_ne hs₁ hhead), Bool.false_eq_true, if_false]
      rw [apply_bind_of_ok hargs, apply_bind_of_ok (Parser.expect_apply hs₂)]
      exact ⟨es', callee.span.merge s₂.next.span, s₂.tail, by simp, hs₂.tail, hbare⟩

theorem reached_call {callee : Expr} {arguments : List Expr} (span : Span) (hcallee : callee.Reached)
    (harguments : ∀ e ∈ arguments, e.Reached) (hl : Precedence.call.rank ≤ callee.level.rank)
    (hlen : arguments.length ≤ Parser.maxArguments) : (call callee arguments span).Reached := by
  intro n least s ks hs hn hleast hbound
  simp only [spelling, List.append_assoc, List.cons_append, List.nil_append] at hs
  simp only [spelling, List.length_append, List.length_cons, List.length_nil] at hn
  have hfollows : Precedence.call.rank ≤ callee.bound := le_bound_of_le_level hl (by decide) (by decide)
  obtain ⟨callee', s₁, m, heq, hm, hs₁, hbare⟩ :=
    hcallee n least hs (by simp only [List.length_append, List.length_cons]; omega) (Nat.le_trans hleast hl) hfollows
  simp only [List.length_append, List.length_cons] at hm
  obtain ⟨m, rfl⟩ : ∃ k, m = k + 2 := ⟨m - 2, by omega⟩
  obtain ⟨es', span', s₂, hread, hs₂, hbare'⟩ := call_read harguments hlen callee' m hs₁ (by omega)
  rw [Parser.continuations_step (c := .call) hs₁ hleast hread] at heq
  refine ⟨_, s₂, m + 1, heq, by omega, hs₂, ?_⟩
  rw [bare, bare, hbare, hbare']

theorem mem_canonicalAll {es : List Expr} (h : canonicalAll es = true) {e : Expr} (he : e ∈ es) :
    e.canonical = true := by
  induction es with
  | nil => cases he
  | cons e' rest ih =>
      rw [canonicalAll, Bool.and_eq_true] at h
      rcases List.mem_cons.mp he with rfl | he
      · exact h.1
      · exact ih h.2 he

/-- **Every canonical expression is reached.** -/
theorem reached (e : Expr) (he : e.canonical = true) : e.Reached := by
  induction e with
  | literal v s => exact reached_literal v s
  | var name s => exact reached_var name s
  | assign name value s ih =>
      rw [canonical] at he
      exact reached_assign s (ih he)
  | unary op operand s ih =>
      rw [canonical, Bool.and_eq_true, bindsLike, decide_eq_true_iff] at he
      exact reached_unary s (ih he.2) he.1
  | binary op left right s ihl ihr =>
      simp only [canonical, Bool.and_eq_true, bindsLike, decide_eq_true_iff] at he
      obtain ⟨⟨⟨hl, hr⟩, hleft⟩, hright⟩ := he
      exact reached_connected op.connects s (ihl hleft) (ihr hright) hl hr
  | logical op left right s ihl ihr =>
      simp only [canonical, Bool.and_eq_true, bindsLike, decide_eq_true_iff] at he
      obtain ⟨⟨⟨hl, hr⟩, hleft⟩, hright⟩ := he
      exact reached_connected op.connects s (ihl hleft) (ihr hright) hl hr
  | grouping inner s ih =>
      rw [canonical] at he
      exact reached_grouping s (ih he)
  | call callee arguments s ihc iha =>
      simp only [canonical, Bool.and_eq_true, bindsLike, decide_eq_true_iff] at he
      obtain ⟨⟨⟨hl, hlen⟩, hcallee⟩, hall⟩ := he
      exact reached_call s (ihc hcallee) (fun e hmem => iha e hmem (mem_canonicalAll hall hmem)) hl hlen

end Expr

end Lox
