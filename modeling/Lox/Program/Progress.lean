import Lox.Computation
import Lox.Program.Parse

/-!
# Parsers move forward

Whatever a parser does with a stream, it leaves a later part of it, and an error points at one of the tokens that it
has come to. A count that is high enough for the tokens left does not run out.

* `TokenStream.Moved k s s'` : at least `k` tokens have been taken from `s`, and `s'` is what is left;
* `TokenStream.Reports s e s'` : the error `e` has the span of a token between the first of `s` and the first of `s'`;
* `Proceeds k s r` : the parser that ended with `r` has taken `k` tokens of `s` or reported an error so;
* `Parser.Advances l k x` : it does so on every stream of at most `l` tokens; `Parser.Advances.bind` carries this
  through a sequence;
* `Parser.declaration_advances` : a declaration takes at least one token.
-/

namespace Lox

/-! ## Streams -/

theorem TokenKind.reserved_ne_eof (r : Reserved) : TokenKind.reserved r ≠ .eof := by
  intro h
  cases h

theorem TokenKind.identifier_ne_eof (name : String) : TokenKind.identifier name ≠ .eof := by
  intro h
  cases h

namespace TokenStream

/-- All that is left of a stream. -/
def tokens (s : TokenStream) : List Token :=
  s.rest ++ [s.stop]

/-- At least `k` tokens have been taken from the first stream, and the second is what is left of it. -/
structure Moved (k : Nat) (s s' : TokenStream) : Prop where
  rest : s'.rest <:+ s.rest
  length : s'.rest.length + k ≤ s.rest.length
  stop : s'.stop = s.stop

variable {j k : Nat} {s s₁ s' : TokenStream} {e : SyntaxError}

theorem Moved.refl (s : TokenStream) : Moved 0 s s :=
  ⟨List.suffix_refl _, Nat.le_refl _, rfl⟩

theorem Moved.trans (h : Moved j s s₁) (h' : Moved k s₁ s') : Moved (j + k) s s' := by
  have hlength := h.length
  have hlength' := h'.length
  exact ⟨h'.rest.trans h.rest, by omega, h'.stop.trans h.stop⟩

theorem Moved.mono (h : Moved k s s') (hjk : j ≤ k) : Moved j s s' := by
  have hlength := h.length
  exact ⟨h.rest, by omega, h.stop⟩

theorem moved_of_cons {t : Token} {ts : List Token} (h : s.rest = t :: ts) : Moved 1 s s.tail := by
  unfold tail
  rw [h]
  exact ⟨by rw [h]; exact List.suffix_cons t ts, Nat.le_of_eq (by rw [h, List.length_cons]), rfl⟩

theorem moved_tail (s : TokenStream) : Moved 0 s s.tail := by
  cases h : s.rest with
  | nil =>
      have htail : s.tail = s := by unfold tail; rw [h]
      rw [htail]
      exact .refl s
  | cons t ts => exact (moved_of_cons h).mono (Nat.zero_le 1)

/-- Taking any token but the end moves forward. -/
theorem moved_tail_of_ne (hs : s.stop.kind = .eof) (h : s.next.kind ≠ .eof) : Moved 1 s s.tail := by
  cases hrest : s.rest with
  | nil =>
      refine absurd ?_ h
      unfold next
      rw [hrest]
      exact hs
  | cons t ts => exact moved_of_cons hrest

theorem Moved.tokens (h : Moved k s s') :
    ∃ us, s.tokens = us ++ s'.tokens ∧ s.rest.length = us.length + s'.rest.length := by
  obtain ⟨us, hus⟩ := h.rest
  refine ⟨us, ?_, by rw [← hus, List.length_append]⟩
  unfold TokenStream.tokens
  rw [← hus, h.stop, List.append_assoc]

/-- The error has the span of a token of the first stream that is not behind the next token of the second. -/
def Reports (s : TokenStream) (e : SyntaxError) (s' : TokenStream) : Prop :=
  ∃ k t, s.tokens[k]? = some t ∧ e.span = t.span ∧ k + s'.rest.length ≤ s.rest.length

/-- An error at the first token, found now or later. -/
theorem reports_next (h : Moved k s s') (he : e.span = s.next.span) : s.Reports e s' := by
  have hlength := h.length
  refine ⟨0, s.next, ?_, he, by omega⟩
  unfold tokens next
  cases s.rest <;> rfl

theorem Moved.reports (h : Moved k s s₁) (he : s₁.Reports e s') : s.Reports e s' := by
  obtain ⟨us, htokens, hlength⟩ := h.tokens
  obtain ⟨i, t, ht, hspan, hi⟩ := he
  refine ⟨us.length + i, t, ?_, hspan, by omega⟩
  rw [htokens, List.getElem?_append_right (Nat.le_add_right _ _), Nat.add_sub_cancel_left, ht]

theorem kind_of_starts {r : Reserved} (h : s.starts r = true) : s.next.kind = .reserved r := by
  unfold starts TokenKind.is at h
  split at h
  · rename_i r' hkind
    rw [hkind, of_decide_eq_true h]
  · cases h

/-! ## Behind an error -/

theorem skipToStatement_suffix (last : Token) (ts : List Token) : (skipToStatement last ts).2 <:+ ts := by
  induction ts generalizing last with
  | nil => exact List.suffix_refl _
  | cons t ts ih =>
      rw [skipToStatement]
      split
      · exact List.suffix_refl _
      · exact (ih t).trans (List.suffix_cons t ts)

theorem resume_of_nil (h : s.rest = []) : s.resume = s := by
  cases s
  obtain rfl := h
  rfl

theorem resume_of_cons {t : Token} {ts : List Token} (h : s.rest = t :: ts) :
    s.resume = { s with last := (skipToStatement t ts).1, rest := (skipToStatement t ts).2 } := by
  cases s
  obtain rfl := h
  rfl

theorem resume_rest_suffix (s : TokenStream) : s.resume.rest <:+ s.rest := by
  cases hs : s.rest with
  | nil => simp only [resume_of_nil hs, hs, List.suffix_refl]
  | cons t ts =>
      rw [resume_of_cons hs]
      exact (skipToStatement_suffix t ts).trans (List.suffix_cons t ts)

theorem resume_stop (s : TokenStream) : s.resume.stop = s.stop := by
  cases hs : s.rest with
  | nil => rw [resume_of_nil hs]
  | cons t ts => rw [resume_of_cons hs]

/-- Reading goes on one token behind an error, if there is one. -/
theorem resume_length_lt {t : Token} {ts : List Token} (h : s.rest = t :: ts) : s.resume.rest.length < s.rest.length := by
  rw [resume_of_cons h, h, List.length_cons]
  exact Nat.lt_succ_of_le (skipToStatement_suffix t ts).length_le

/-- An error lets reading go on behind where it has begun. -/
theorem Moved.resume (h : Moved 0 s s') (hne : s.rest ≠ []) : Moved 1 s s'.resume := by
  have hlength := h.length
  have hpos := List.length_pos_iff.mpr hne
  refine ⟨(resume_rest_suffix s').trans h.rest, ?_, (resume_stop s').trans h.stop⟩
  cases hs' : s'.rest with
  | nil =>
      rw [resume_of_nil hs', hs', List.length_nil]
      omega
  | cons t ts =>
      have hlt := resume_length_lt hs'
      omega

end TokenStream

/-! ## Results -/

/-- What becomes of a stream: something has been read and at least `k` tokens have been taken, or an error is reported
at one of the tokens that have been come to. -/
inductive Proceeds (k : Nat) (s : TokenStream) {α : Type} : EStateM.Result Parser.Stop TokenStream α → Prop where
  | ok (a : α) {s' : TokenStream} (h : s.Moved k s') : Proceeds k s (.ok a s')
  | error {e : SyntaxError} {s' : TokenStream} (h : s.Moved 0 s') (he : s.Reports e s') :
      Proceeds k s (.error (.error e) s')

namespace Proceeds

variable {α β : Type} {j k : Nat} {s s₁ : TokenStream} {x : EStateM.Result Parser.Stop TokenStream α}

theorem mono (h : Proceeds k s x) (hjk : j ≤ k) : Proceeds j s x := by
  cases h with
  | ok a h => exact .ok a (h.mono hjk)
  | error h he => exact .error h he

/-- What becomes of the rest of a stream, seen from its beginning. -/
theorem from_moved (h : Proceeds k s₁ x) (hs : s.Moved j s₁) : Proceeds (j + k) s x := by
  cases h with
  | ok a h => exact .ok a (hs.trans h)
  | error h he => exact .error ((hs.trans h).mono (Nat.zero_le _)) (hs.reports he)

/-- An error at the next token. -/
theorem of_next {e : SyntaxError} {s' : TokenStream} (h : s.Moved 0 s') (he : e.span = s.next.span) :
    Proceeds k s (.error (.error e) s' : EStateM.Result Parser.Stop TokenStream α) :=
  .error h (TokenStream.reports_next h he)

end Proceeds

namespace Parser

/-- What the parser makes of any stream of at most `l` tokens. -/
def Advances {α : Type} (l k : Nat) (x : Parser α) : Prop :=
  ∀ s : TokenStream, s.stop.kind = .eof → s.rest.length ≤ l → Proceeds k s (x s)

variable {α β : Type} {j k l n : Nat} {x : Parser α}

theorem peek_apply (s : TokenStream) : peek s = .ok s.next s := rfl

theorem take_apply (s : TokenStream) : take s = .ok s.next s.tail := rfl

theorem Advances.mono (h : Advances l k x) (hjk : j ≤ k) : Advances l j x :=
  fun s hs hl => (h s hs hl).mono hjk

/-- A parser that goes on where `j` tokens have been taken. -/
theorem Advances.from_moved {s s₁ : TokenStream} (hx : Advances (l - j) k x) (hs : s.stop.kind = .eof)
    (hl : s.rest.length ≤ l) (h : s.Moved j s₁) : Proceeds (j + k) s (x s₁) := by
  have hlength := h.length
  exact (hx s₁ (by rw [h.stop, hs]) (by omega)).from_moved h

theorem Advances.bind {f : α → Parser β} (hx : Advances l j x) (hf : ∀ a, j ≤ l → Advances (l - j) k (f a)) :
    Advances l (j + k) (x >>= f) := by
  intro s hs hl
  have hproceeds := hx s hs hl
  generalize hr : x s = r at hproceeds
  cases hproceeds with
  | ok a h =>
      have hlength := h.length
      rw [apply_bind_of_ok hr]
      exact (hf a (by omega)).from_moved hs hl h
  | error h he =>
      rw [apply_bind_of_error hr]
      exact .error h he

/-- A sequence takes the tokens that its first part takes. -/
theorem Advances.first {f : α → Parser β} (hx : Advances l k x) (hf : ∀ a, k ≤ l → Advances (l - k) 0 (f a)) :
    Advances l k (x >>= f) :=
  hx.bind hf

/-- A sequence takes the tokens that its other parts take. -/
theorem Advances.next {f : α → Parser β} (hx : Advances l j x) (hf : ∀ a, j ≤ l → Advances (l - j) k (f a)) :
    Advances l k (x >>= f) :=
  (hx.bind hf).mono (Nat.le_add_left k j)

theorem Advances.map {f : α → β} (hx : Advances l k x) : Advances l k (f <$> x) := by
  intro s hs hl
  have hproceeds := hx s hs hl
  show Proceeds k s (EStateM.map f x s)
  unfold EStateM.map
  generalize x s = r at hproceeds
  cases hproceeds with
  | ok a h => exact .ok _ h
  | error h he => exact .error h he

theorem pure_advances (a : α) : Advances l 0 (pure a : Parser α) :=
  fun s _ _ => .ok a (.refl s)

theorem Advances.ite {c : Prop} [Decidable c] {y : Parser α} (hx : Advances l k x) (hy : Advances l k y) :
    Advances l k (if c then x else y) := by
  split
  · exact hx
  · exact hy

/-! ## Primitive parsers -/

theorem peek_advances : Advances l 0 peek :=
  fun s _ _ => .ok _ (.refl s)

theorem take_advances : Advances l 0 take :=
  fun s _ _ => .ok _ s.moved_tail

theorem isNext_advances (r : Reserved) : Advances l 0 (isNext r) :=
  fun s _ _ => .ok _ (.refl s)

theorem spanSince_advances (span : Span) : Advances l 0 (spanSince span) :=
  fun s _ _ => .ok _ (.refl s)

theorem accept_advances (r : Reserved) : Advances l 0 (accept r) :=
  (isNext_advances r).next fun _ _ => .ite (take_advances.next fun _ _ => pure_advances true) (pure_advances false)

/-- A parser that refuses the next token counts as taking any number of them: it never succeeds. -/
theorem refuse_advances (expected : String) : Advances l k (refuse expected : Parser α) :=
  fun s _ _ => .of_next (.refl s) rfl

theorem refuseMore_advances (what : String) : Advances l k (refuseMore what : Parser α) :=
  fun s _ _ => .of_next (.refl s) rfl

theorem expect_advances (r : Reserved) : Advances l 1 (expect r) := by
  intro s hs hl
  unfold expect
  rw [apply_bind_of_ok (show isNext r s = .ok (s.starts r) s from rfl)]
  cases hstarts : s.starts r with
  | true =>
      refine .ok _ (s.moved_tail_of_ne hs ?_)
      rw [s.kind_of_starts hstarts]
      exact TokenKind.reserved_ne_eof r
  | false => exact refuse_advances _ s hs hl

theorem identifier_advances : Advances l 1 identifier := by
  intro s hs hl
  unfold identifier
  rw [apply_bind_of_ok (peek_apply s)]
  cases hkind : s.next.kind with
  | identifier name => exact .ok _ (s.moved_tail_of_ne hs (by rw [hkind]; exact TokenKind.identifier_ne_eof name))
  | _ => exact refuse_advances _ s hs hl

/-! ## Expressions

How high the counts have to be for the `l` tokens left. -/

def ExpressionAdvances (n : Nat) : Prop :=
  ∀ ⦃l : Nat⦄ (least : Precedence), 4 * l + 2 ≤ n → Advances l 1 (expression n least)

def OperandAdvances (n : Nat) : Prop :=
  ∀ ⦃l : Nat⦄, 4 * l + 1 ≤ n → Advances l 1 (operand n)

def ContinuationsAdvance (n : Nat) : Prop :=
  ∀ ⦃l : Nat⦄ (least : Precedence) (left : Expr), 4 * l + 1 ≤ n → Advances l 0 (continuations n least left)

/-- There is a token to continue with. -/
def ContinuationAdvances (n : Nat) : Prop :=
  ∀ ⦃s : TokenStream⦄ (c : Continuation) (left : Expr), s.stop.kind = .eof → s.next.kind ≠ .eof →
    4 * s.rest.length ≤ n → Proceeds 1 s (continuation n c left s)

def ArgumentsAdvance (n : Nat) : Prop :=
  ∀ ⦃l : Nat⦄ (given : Array Expr), 4 * l + 3 ≤ n → Advances l 0 (arguments n given)

theorem operandAdvances_succ (hexpr : ExpressionAdvances n) : OperandAdvances (n + 1) := by
  intro l hn s hs hl
  rw [operand, apply_bind_of_ok (take_apply s)]
  cases hkind : s.next.kind with
  | number x => exact .ok _ (s.moved_tail_of_ne hs (by simp [hkind]))
  | string x => exact .ok _ (s.moved_tail_of_ne hs (by simp [hkind]))
  | identifier name => exact .ok _ (s.moved_tail_of_ne hs (by simp [hkind]))
  | eof => exact .of_next s.moved_tail rfl
  | reserved r =>
      have hmoved := s.moved_tail_of_ne hs (by rw [hkind]; exact TokenKind.reserved_ne_eof r)
      have hlength := hmoved.length
      have hunary : ∀ op : UnaryOp, Proceeds 1 s ((do
          let operand ← expression n .unary
          return .unary op operand (s.next.span.merge operand.span) : Parser Expr) s.tail) :=
        fun op => (Advances.next (hexpr .unary (by omega)) fun operand _ => pure_advances _).from_moved hs hl hmoved
      cases r with
      | leftParen =>
          have hgrouping : Advances (l - 1) 0 (do
              let inner ← expression n .assignment
              let close ← expect .rightParen
              return .grouping inner (s.next.span.merge close.span) : Parser Expr) :=
            (hexpr .assignment (by omega)).next fun inner _ => (expect_advances _).next fun close _ => pure_advances _
          exact hgrouping.from_moved hs hl hmoved
      | nil | true | false => exact .ok _ hmoved
      | minus => exact hunary .negate
      | bang => exact hunary .not
      | _ => exact .of_next s.moved_tail rfl

theorem continuationAdvances_succ (hexpr : ExpressionAdvances n) (hargs : ArgumentsAdvance n) :
    ContinuationAdvances (n + 1) := by
  intro s c left hs hne hn
  have hmoved := s.moved_tail_of_ne hs hne
  have hlength := hmoved.length
  have htail : s.tail.stop.kind = .eof := by rw [hmoved.stop, hs]
  have hexpr' : ∀ least, Advances (s.rest.length - 1) 1 (expression n least) := fun least => hexpr least (by omega)
  rw [continuation, apply_bind_of_ok (take_apply s)]
  cases c with
  | assign =>
      -- the error about the target comes late: behind the value, it points back at the operator
      have hvalue := hexpr' .assignment s.tail htail (by omega)
      dsimp only
      generalize hr : expression n .assignment s.tail = r at hvalue
      cases hvalue with
      | ok value h =>
          rw [apply_bind_of_ok hr]
          cases left with
          | var name span => exact .ok _ ((hmoved.trans h).mono (by omega))
          | _ => exact .of_next ((hmoved.trans h).mono (by omega)) rfl
      | error h he =>
          rw [apply_bind_of_error hr]
          exact .error ((hmoved.trans h).mono (by omega)) (hmoved.reports he)
  | logical op =>
      have hright := (hexpr' op.precedence.next).next fun right _ =>
        pure_advances (Expr.logical op left right (left.span.merge right.span))
      exact hright.from_moved hs (Nat.le_refl _) hmoved
  | binary op =>
      have hright := (hexpr' op.precedence.next).next fun right _ =>
        pure_advances (Expr.binary op left right (left.span.merge right.span))
      exact hright.from_moved hs (Nat.le_refl _) hmoved
  | call =>
      have hclose : ∀ given {l}, Advances l 0 (do
          let close ← expect .rightParen
          return .call left given (left.span.merge close.span) : Parser Expr) :=
        fun given _ => (expect_advances _).next fun close _ => pure_advances _
      have hcall : Advances (s.rest.length - 1) 0 (do
          let given ← if ← isNext .rightParen then pure [] else arguments n #[]
          let close ← expect .rightParen
          return .call left given (left.span.merge close.span) : Parser Expr) :=
        (isNext_advances .rightParen).next fun b _ => Advances.ite (c := b = true)
          ((pure_advances []).next fun given _ => hclose given)
          ((hargs #[] (by omega)).next fun given _ => hclose given)
      exact hcall.from_moved hs (Nat.le_refl _) hmoved
  | member => exact .of_next s.moved_tail rfl

theorem next_ne_eof {t : Token} {c : Continuation} (h : t.kind.continuation? = some c) : t.kind ≠ .eof := by
  intro heof
  rw [heof] at h
  cases h

theorem continuationsAdvance_succ (hc : ContinuationAdvances n) (hcs : ContinuationsAdvance n) :
    ContinuationsAdvance (n + 1) := by
  intro l least left hn s hs hl
  rw [continuations, apply_bind_of_ok (peek_apply s)]
  cases hk : s.next.kind.continuation? with
  | none => exact .ok left (.refl s)
  | some c =>
      dsimp only
      split
      · exact .ok left (.refl s)
      · -- the continuation takes a token, so that the count is high enough for what is left
        have hproceeds := hc c left hs (next_ne_eof hk) (by omega)
        generalize hr : continuation n c left s = r at hproceeds
        cases hproceeds with
        | ok e h =>
            have hlength := h.length
            rw [apply_bind_of_ok hr]
            exact (Advances.from_moved (hcs least e (by omega)) hs hl h).mono (Nat.zero_le _)
        | error h he =>
            rw [apply_bind_of_error hr]
            exact .error h he

theorem argumentsAdvance_succ (hexpr : ExpressionAdvances n) (hargs : ArgumentsAdvance n) :
    ArgumentsAdvance (n + 1) := by
  intro l given hn
  rw [arguments]
  refine .ite (refuseMore_advances _) ?_
  refine (hexpr .assignment (by omega)).next fun e _ => (accept_advances .comma).next fun b _ => ?_
  exact Advances.ite (c := b = true) (hargs (given.push e) (by omega)) (pure_advances (given.push e).toList)

/-- By induction on the count. No count is too low for the tokens left and zero. -/
theorem expressions_advance (n : Nat) :
    ExpressionAdvances n ∧ OperandAdvances n ∧ ContinuationsAdvance n ∧ ContinuationAdvances n ∧ ArgumentsAdvance n := by
  induction n with
  | zero =>
      refine ⟨fun l least hn => by omega, fun l hn => by omega, fun l least left hn => by omega,
        fun s c left hs hne hn => ?_, fun l given hn => by omega⟩
      have := (s.moved_tail_of_ne hs hne).length
      omega
  | succ n ih =>
      obtain ⟨hexpr, ho, hcs, hc, hargs⟩ := ih
      refine ⟨fun l least hn => ?_, operandAdvances_succ hexpr, continuationsAdvance_succ hc hcs,
        continuationAdvances_succ hexpr hargs, argumentsAdvance_succ hexpr hargs⟩
      rw [expression]
      exact (ho (by omega)).first fun left _ => hcs least left (by omega)

theorem expression_advances (least : Precedence) (h : 4 * l + 2 ≤ n) : Advances l 1 (expression n least) :=
  (expressions_advance n).1 least h

/-! ## Statements -/

theorem optional_advances (r : Reserved) (h : 4 * l + 2 ≤ n) : Advances l 0 (optional n r) :=
  (isNext_advances r).next fun _ _ =>
    .ite (pure_advances none) ((expression_advances .assignment h).map.mono (Nat.zero_le _))

theorem expressionStatement_advances (h : 4 * l + 2 ≤ n) : Advances l 1 (expressionStatement n) :=
  (expression_advances .assignment h).first fun _ _ => (expect_advances .semicolon).next fun _ _ => pure_advances _

theorem varDeclaration_advances (h : 4 * l + 2 ≤ n) : Advances l 1 (varDeclaration n) := by
  unfold varDeclaration
  refine take_advances.next fun start _ => identifier_advances.first fun name _ =>
    (accept_advances .equal).next fun b _ => ?_
  have hclose : ∀ value {l}, Advances l 0 (do
      let close ← expect .semicolon
      return .var name value (start.span.merge close.span) : Parser Stmt) :=
    fun value _ => (expect_advances _).next fun close _ => pure_advances _
  exact .ite ((expression_advances .assignment (by omega)).map.next fun value _ => hclose value)
    ((pure_advances none).next fun value _ => hclose value)

theorem parameters_advances (names : Array String) (h : l + 1 ≤ n) : Advances l 0 (parameters n names) := by
  induction n generalizing l names with
  | zero => omega
  | succ n ih =>
      rw [parameters]
      refine .ite (refuseMore_advances _) ?_
      refine identifier_advances.next fun name _ => (accept_advances .comma).next fun b _ => ?_
      exact Advances.ite (c := b = true) (ih (names.push name) (by omega)) (pure_advances (names.push name).toList)

theorem condition_advances (h : 4 * l + 2 ≤ n) : Advances l 1 (condition n) :=
  (expect_advances .leftParen).first fun _ _ => (expression_advances .assignment (by omega)).next fun _ _ =>
    (expect_advances .rightParen).next fun _ _ => pure_advances _

theorem forInitializer_advances (h : 4 * l + 2 ≤ n) : Advances l 0 (forInitializer n) :=
  (accept_advances .semicolon).next fun _ _ => .ite (pure_advances none) <|
    (isNext_advances .var).next fun _ _ => .ite ((varDeclaration_advances h).map.mono (Nat.zero_le _))
      ((expressionStatement_advances h).map.mono (Nat.zero_le _))

theorem skipToBrace_suffix (last : Token) (ts : List Token) : (skipToBrace last ts).2 <:+ ts := by
  induction ts generalizing last with
  | nil => exact List.suffix_refl _
  | cons t ts ih =>
      rw [skipToBrace]
      split
      · exact List.suffix_refl _
      · exact (ih t).trans (List.suffix_cons t ts)

theorem skipClassBody_suffix (last : Token) (depth : Nat) (ts : List Token) :
    (skipClassBody last depth ts).2 <:+ ts := by
  induction ts generalizing last depth with
  | nil => exact List.suffix_refl _
  | cons t ts ih =>
      have hstep := fun depth => (ih t depth).trans (List.suffix_cons t ts)
      rw [skipClassBody]
      split
      · exact hstep _
      · split
        · split
          · exact List.suffix_refl _
          · exact hstep _
        · exact hstep _

/-- A class is refused at its first token, wherever the search for its end stops. -/
theorem classDeclaration_advances : Advances l k classDeclaration := by
  intro s hs hl
  have hbrace := skipToBrace_suffix s.tail.last s.tail.rest
  have hbody := (skipClassBody_suffix (skipToBrace s.tail.last s.tail.rest).1 0
    (skipToBrace s.tail.last s.tail.rest).2).trans hbrace
  have hmoved : s.tail.Moved 0 { s.tail with
      last := (skipClassBody (skipToBrace s.tail.last s.tail.rest).1 0 (skipToBrace s.tail.last s.tail.rest).2).1
      rest := (skipClassBody (skipToBrace s.tail.last s.tail.rest).1 0 (skipToBrace s.tail.last s.tail.rest).2).2 } :=
    ⟨hbody, hbody.length_le, rfl⟩
  exact .of_next (s.moved_tail.trans hmoved) rfl

def DeclarationAdvances (n : Nat) : Prop :=
  ∀ ⦃l : Nat⦄, 4 * l + 4 ≤ n → Advances l 1 (declaration n)

def StatementAdvances (n : Nat) : Prop :=
  ∀ ⦃l : Nat⦄, 4 * l + 3 ≤ n → Advances l 1 (statement n)

def BlockAdvances (n : Nat) : Prop :=
  ∀ ⦃l : Nat⦄, 4 * l + 2 ≤ n → Advances l 1 (block n)

def DeclarationsAdvance (n : Nat) : Prop :=
  ∀ ⦃l : Nat⦄ (body : Array Stmt), 4 * l + 5 ≤ n → Advances l 0 (declarations n body)

theorem function_advances (hblock : BlockAdvances n) (h : 4 * l + 2 ≤ n) : Advances l 1 (do
    let start ← take
    let name ← identifier
    let _ ← expect .leftParen
    let names ← if ← isNext .rightParen then pure [] else parameters n #[]
    let _ ← expect .rightParen
    let body ← block n
    return .function name names body (← spanSince start.span) : Parser Stmt) := by
  refine take_advances.next fun start _ => identifier_advances.first fun name _ => (expect_advances _).next fun _ _ =>
    (isNext_advances _).next fun b _ => ?_
  have hbody : ∀ names {l}, 4 * l + 2 ≤ n → Advances l 0 (do
      let _ ← expect .rightParen
      let body ← block n
      return .function name names body (← spanSince start.span) : Parser Stmt) :=
    fun names _ hl => (expect_advances _).next fun _ _ => (hblock (by omega)).next fun body _ =>
      (spanSince_advances _).next fun span _ => pure_advances _
  exact .ite ((pure_advances []).next fun names _ => hbody names (by omega))
    ((parameters_advances #[] (by omega)).next fun names _ => hbody names (by omega))

theorem ifElse_advances (hstmt : StatementAdvances n) (h : 4 * l + 2 ≤ n) : Advances l 1 (do
    let start ← take
    let test ← condition n
    let thenBranch ← statement n
    let elseBranch ← if ← accept .else then some <$> statement n else pure none
    return .ifElse test thenBranch elseBranch (← spanSince start.span) : Parser Stmt) := by
  refine take_advances.next fun start _ => (condition_advances (by omega)).first fun test _ =>
    (hstmt (by omega)).next fun thenBranch _ => (accept_advances _).next fun b _ => ?_
  have hspan : ∀ elseBranch {l}, Advances l 0 (do
      return .ifElse test thenBranch elseBranch (← spanSince start.span) : Parser Stmt) :=
    fun elseBranch _ => (spanSince_advances _).next fun span _ => pure_advances _
  exact .ite ((hstmt (by omega)).map.next fun elseBranch _ => hspan elseBranch)
    ((pure_advances none).next fun elseBranch _ => hspan elseBranch)

theorem statementAdvances_succ (hstmt : StatementAdvances n) (hblock : BlockAdvances n) : StatementAdvances (n + 1) := by
  intro l hn
  rw [statement]
  refine peek_advances.next fun t _ => ?_
  split
  · exact take_advances.next fun start _ => (expression_advances .assignment (by omega)).first fun e _ =>
      (expect_advances _).next fun close _ => pure_advances _
  · exact ifElse_advances hstmt (by omega)
  · exact take_advances.next fun start _ => (condition_advances (by omega)).first fun test _ =>
      (hstmt (by omega)).next fun body _ => (spanSince_advances _).next fun span _ => pure_advances _
  · exact take_advances.next fun start _ => (expect_advances _).first fun _ _ =>
      (forInitializer_advances (by omega)).next fun initializer _ => (optional_advances _ (by omega)).next fun test _ =>
        (expect_advances _).next fun _ _ => (optional_advances _ (by omega)).next fun step _ =>
          (expect_advances _).next fun _ _ => (hstmt (by omega)).next fun body _ =>
            (spanSince_advances _).next fun span _ => pure_advances _
  · exact take_advances.next fun start _ => (optional_advances _ (by omega)).next fun value _ =>
      (expect_advances _).first fun close _ => pure_advances _
  · exact peek_advances.next fun start _ => (hblock (by omega)).first fun body _ =>
      (spanSince_advances _).next fun span _ => pure_advances _
  · exact expressionStatement_advances (by omega)

theorem declarationAdvances_succ (hstmt : StatementAdvances n) (hblock : BlockAdvances n) :
    DeclarationAdvances (n + 1) := by
  intro l hn
  rw [declaration]
  refine peek_advances.next fun t _ => ?_
  split
  · exact function_advances hblock (by omega)
  · exact varDeclaration_advances (by omega)
  · exact classDeclaration_advances
  · exact hstmt (by omega)

theorem statements_advance (n : Nat) :
    DeclarationAdvances n ∧ StatementAdvances n ∧ BlockAdvances n ∧ DeclarationsAdvance n := by
  induction n with
  | zero =>
      exact ⟨fun l hn => by omega, fun l hn => by omega, fun l hn => by omega, fun l body hn => by omega⟩
  | succ n ih =>
      obtain ⟨hdecl, hstmt, hblock, hdecls⟩ := ih
      refine ⟨declarationAdvances_succ hstmt hblock, statementAdvances_succ hstmt hblock, fun l hn => ?_,
        fun l body hn s hs hl => ?_⟩
      · rw [block]
        exact (expect_advances _).first fun _ _ => (hdecls #[] (by omega)).next fun body _ =>
          (expect_advances _).next fun _ _ => pure_advances body
      · rw [declarations, apply_bind_of_ok (apply_get s)]
        have hmore := (hdecl (l := l) (by omega)).next fun d _ => hdecls (body.push d) (by omega)
        exact Advances.ite (pure_advances body.toList) hmore s hs hl

/-- **A declaration takes at least one token, or its error points at one that it has come to.** -/
theorem declaration_advances (h : 4 * l + 4 ≤ n) : Advances l 1 (declaration n) :=
  (statements_advance n).1 h

end Parser

end Lox
