import Lox.Proofs.Grammar

/-!
# Streams that spell

What the parser does depends on the kinds of the tokens that are left, and not on where they stand.

* `TokenStream.Spells s ks` : the tokens left in the stream are of the kinds `ks`, and behind them is the end;
* `Parser.expect_apply`, `Parser.accept_of_head`, ... : what the primitive parsers do with such a stream;
* `leading ks` : how tightly the first token binds what stands before it;
* `Expr.spelling_eq_cons` : which tokens an expression can begin with.
-/

namespace Lox

/-! ## The tokens that are left -/

/-- The stream has tokens of these kinds left, and then the end. -/
structure TokenStream.Spells (s : TokenStream) (ks : List TokenKind) : Prop where
  kinds : s.rest.map (·.kind) = ks
  stop : s.stop.kind = .eof

namespace TokenStream.Spells

variable {s : TokenStream} {ks : List TokenKind} {k : TokenKind}

theorem next_kind (h : s.Spells ks) : s.next.kind = ks.headD .eof := by
  rw [← h.kinds, TokenStream.next]
  cases s.rest with
  | nil => exact h.stop
  | cons t rest => rfl

theorem tail (h : s.Spells (k :: ks)) : s.tail.Spells ks := by
  obtain ⟨t, rest, hrest, -, hks⟩ := List.map_eq_cons_iff.mp h.kinds
  unfold TokenStream.tail
  rw [hrest]
  exact ⟨hks, h.stop⟩

/-- A next token that is not the end is the first that the stream spells. -/
theorem of_next (h : s.Spells ks) (hk : s.next.kind = k) (hne : k ≠ .eof) :
    ∃ ks', ks = k :: ks' ∧ s.tail.Spells ks' := by
  rw [h.next_kind] at hk
  cases ks with
  | nil => exact absurd hk.symm hne
  | cons k' ks' =>
      obtain rfl : k' = k := hk
      exact ⟨ks', rfl, h.tail⟩

theorem starts_eq (h : s.Spells ks) (r : Reserved) : s.starts r = decide (ks.head? = some (.reserved r)) := by
  unfold TokenStream.starts
  rw [h.next_kind]
  cases ks with
  | nil => rfl
  | cons k ks =>
      cases k with
      | reserved r' =>
          by_cases heq : r = r'
          · simp [TokenKind.is, heq]
          · simp [TokenKind.is, heq, Ne.symm heq]
      | _ => simp [TokenKind.is]

theorem atEnd_eq (h : s.Spells ks) : s.atEnd = ks.isEmpty := by
  rw [← h.kinds, List.isEmpty_map]
  rfl

theorem length_rest (h : s.Spells ks) : s.rest.length = ks.length := by
  rw [← h.kinds, List.length_map]

end TokenStream.Spells

/-! ## Primitive parsers -/

namespace Parser

variable {s s' : TokenStream} {ks : List TokenKind} {r : Reserved} {name : String} {t : Token}

theorem isNext_of_head (h : s.Spells ks) (hhead : ks.head? = some (.reserved r)) : isNext r s = .ok true s := by
  rw [← decide_eq_true hhead, ← h.starts_eq r]
  rfl

theorem isNext_of_ne (h : s.Spells ks) (hne : ks.head? ≠ some (.reserved r)) : isNext r s = .ok false s := by
  rw [← decide_eq_false hne, ← h.starts_eq r]
  rfl

theorem accept_of_head (h : s.Spells (.reserved r :: ks)) : accept r s = .ok true s.tail := by
  unfold accept
  rw [apply_bind_of_ok (isNext_of_head h rfl), if_pos rfl]
  rfl

theorem accept_of_ne (h : s.Spells ks) (hne : ks.head? ≠ some (.reserved r)) : accept r s = .ok false s := by
  unfold accept
  rw [apply_bind_of_ok (isNext_of_ne h hne)]
  rfl

theorem expect_apply (h : s.Spells (.reserved r :: ks)) : expect r s = .ok s.next s.tail := by
  unfold expect
  rw [apply_bind_of_ok (isNext_of_head h rfl), if_pos rfl]
  rfl

theorem expect_eq_ok (h : s.Spells ks) (he : expect r s = .ok t s') :
    ∃ ks', ks = .reserved r :: ks' ∧ s'.Spells ks' := by
  by_cases hhead : ks.head? = some (.reserved r)
  · obtain ⟨ks', rfl⟩ := List.head?_eq_some_iff.mp hhead
    obtain ⟨-, rfl⟩ := EStateM.Result.ok.inj ((expect_apply h).symm.trans he)
    exact ⟨ks', rfl, h.tail⟩
  · unfold expect at he
    rw [apply_bind_of_ok (isNext_of_ne h hhead)] at he
    cases he

theorem identifier_apply (h : s.Spells (.identifier name :: ks)) : identifier s = .ok name s.tail := by
  unfold identifier
  rw [apply_bind_of_ok (peek_apply s), h.next_kind]
  rfl

theorem identifier_eq_ok (h : s.Spells ks) (he : identifier s = .ok name s') :
    ∃ ks', ks = .identifier name :: ks' ∧ s'.Spells ks' := by
  unfold identifier at he
  rw [apply_bind_of_ok (peek_apply s)] at he
  cases hkind : s.next.kind with
  | identifier name' =>
      obtain ⟨ks', rfl, htail⟩ := h.of_next hkind (TokenKind.identifier_ne_eof _)
      simp only [hkind] at he
      rw [apply_bind_of_ok (take_apply s), apply_pure, EStateM.Result.ok.injEq] at he
      obtain ⟨rfl, rfl⟩ := he
      exact ⟨ks', rfl, htail⟩
  | _ =>
      simp only [hkind] at he
      cases he

end Parser

/-! ## Binding strength -/

def Continuation.token : Continuation → Reserved
  | .assign => .equal
  | .logical op => op.token
  | .binary op => op.token
  | .call => .leftParen
  | .member => .dot

theorem TokenKind.continuation?_eq_some {k : TokenKind} {c : Continuation} :
    k.continuation? = some c ↔ k = .reserved c.token := by
  constructor
  · intro h
    cases k with
    | reserved r => cases r <;> first | cases h; rfl | cases h
    | _ => cases h
  · rintro rfl
    rcases c with _ | op | op | _ | _
    · rfl
    · cases op <;> rfl
    · cases op <;> rfl
    · rfl
    · rfl

/-- How tightly a token binds what stands before it; zero if it does not. -/
def TokenKind.strength (k : TokenKind) : Nat :=
  match k.continuation? with
  | some c => c.precedence.rank
  | none => 0

theorem Continuation.strength_token (c : Continuation) :
    (TokenKind.reserved c.token).strength = c.precedence.rank := by
  unfold TokenKind.strength
  rw [TokenKind.continuation?_eq_some.mpr rfl]

def leading (ks : List TokenKind) : Nat :=
  (ks.headD .eof).strength

@[simp] theorem leading_cons (k : TokenKind) (ks : List TokenKind) : leading (k :: ks) = k.strength := rfl

theorem Precedence.rank_pos (p : Precedence) : 0 < p.rank := by
  cases p <;> decide

/-! ## The beginnings of phrases -/

def TokenKind.beginsExpression : TokenKind → Bool
  | .number _ | .string _ | .identifier _ => true
  | .reserved r => r = .leftParen || r.constant?.isSome || r.unaryOp?.isSome
  | .eof => false

theorem Expr.spelling_eq_cons (e : Expr) : ∃ k ks, e.spelling = k :: ks ∧ k.beginsExpression = true := by
  induction e with
  | literal v s =>
      refine ⟨_, _, by rw [spelling], ?_⟩
      rcases v with _ | (_ | _) | _ | _ <;> rfl
  | var name s => exact ⟨_, _, by rw [spelling], rfl⟩
  | assign name value s ih => exact ⟨_, _, by rw [spelling], rfl⟩
  | unary op operand s ih =>
      refine ⟨_, _, by rw [spelling], ?_⟩
      cases op <;> rfl
  | binary op left right s ihl ihr =>
      obtain ⟨k, ks, heq, hk⟩ := ihl
      exact ⟨k, _, by rw [spelling, heq, List.cons_append], hk⟩
  | logical op left right s ihl ihr =>
      obtain ⟨k, ks, heq, hk⟩ := ihl
      exact ⟨k, _, by rw [spelling, heq, List.cons_append], hk⟩
  | grouping inner s ih => exact ⟨_, _, by rw [spelling, List.cons_append], rfl⟩
  | call callee arguments s ihc iha =>
      obtain ⟨k, ks, heq, hk⟩ := ihc
      exact ⟨k, _, by rw [spelling, heq, List.append_assoc, List.cons_append], hk⟩

/-- An expression does not begin with a token that no expression begins with. -/
theorem Expr.head?_spelling_ne (e : Expr) (ks : List TokenKind) {k : TokenKind} (hk : k.beginsExpression = false) :
    (e.spelling ++ ks).head? ≠ some k := by
  obtain ⟨k', ks', heq, hbegins⟩ := e.spelling_eq_cons
  rw [heq, List.cons_append, List.head?_cons]
  rintro ⟨⟩
  rw [hk] at hbegins
  cases hbegins

theorem Expr.spelling_length_pos (e : Expr) : 0 < e.spelling.length := by
  obtain ⟨k, ks, heq, -⟩ := e.spelling_eq_cons
  rw [heq]
  exact Nat.succ_pos _

end Lox
