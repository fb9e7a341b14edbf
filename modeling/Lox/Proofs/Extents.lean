import Lox.Proofs.ExpressionSoundness

/-!
# Extents of expressions

The tokens of a program are numbered, and what is read from some of them in a row extends from the first to the last.

* `Token.Ordered ts` : each token ends before the next begins;
* `Token.run ts i j` : the span from the beginning of token `i` to the end of the one before token `j`;
* `TokenStream.At s ts i` : of the tokens `ts`, the stream has come to token `i`;
* `Expr.spanned run i e` : the expression with the spans that it has if it begins at token `i`;
* `Parser.expressions_extend` : these are the spans of expressions that are read from tokens in order.
-/

namespace Lox

/-! ## Runs of tokens -/

namespace Token

/-- The tokens stand one behind the other. Each that has another behind it takes up some of the text. -/
structure Ordered (ts : List Token) : Prop where
  start_le_stop : ∀ t ∈ ts, t.span.start ≤ t.span.stop
  between : ts.Pairwise fun t u => t.span.start < t.span.stop ∧ t.span.stop ≤ u.span.start

def spanAt (ts : List Token) (i : Nat) : Span :=
  (ts[i]?.map (·.span)).getD {}

/-- The span of the tokens from number `i` up to, but not including, number `j`. It begins where the first of them does
and ends where the last one does. -/
def run (ts : List Token) (i j : Nat) : Span :=
  { spanAt ts i with stop := (spanAt ts (j - 1)).stop }

theorem spanAt_of_getElem? {ts : List Token} {i : Nat} {t : Token} (h : ts[i]? = some t) : spanAt ts i = t.span := by
  unfold spanAt
  rw [h]
  rfl

/-- One token is a run. -/
theorem run_of_getElem? {ts : List Token} {i : Nat} {t : Token} (h : ts[i]? = some t) : run ts i (i + 1) = t.span := by
  unfold run
  rw [Nat.add_sub_cancel, spanAt_of_getElem? h]

namespace Ordered

variable {ts us : List Token} {t u : Token} {i j i' j' : Nat}

theorem sublist (h : Ordered ts) (hus : us.Sublist ts) : Ordered us :=
  ⟨fun t ht => h.start_le_stop t (hus.mem ht), h.between.sublist hus⟩

theorem cons (h : Ordered ts) (ht : t.span.start < t.span.stop) (hbefore : ∀ u ∈ ts, t.span.stop ≤ u.span.start) :
    Ordered (t :: ts) := by
  refine ⟨fun u hu => ?_, List.pairwise_cons.mpr ⟨fun u hu => ⟨ht, hbefore u hu⟩, h.between⟩⟩
  rcases List.mem_cons.mp hu with rfl | hu
  · exact Nat.le_of_lt ht
  · exact h.start_le_stop u hu

/-- A token that stands further back begins where the first has ended or behind that. -/
theorem stop_le_start (h : Ordered ts) (hij : i < j) (hj : j < ts.length) :
    (spanAt ts i).start < (spanAt ts i).stop ∧ (spanAt ts i).stop ≤ (spanAt ts j).start := by
  have hi : i < ts.length := Nat.lt_trans hij hj
  rw [spanAt_of_getElem? (List.getElem?_eq_getElem hi), spanAt_of_getElem? (List.getElem?_eq_getElem hj)]
  exact List.pairwise_iff_getElem.mp h.between i j hi hj hij

theorem spanAt_le (h : Ordered ts) (hi : i < ts.length) : (spanAt ts i).start ≤ (spanAt ts i).stop := by
  rw [spanAt_of_getElem? (List.getElem?_eq_getElem hi)]
  exact h.start_le_stop _ (List.getElem_mem hi)

theorem start_mono (h : Ordered ts) (hij : i ≤ j) (hj : j < ts.length) :
    (spanAt ts i).start ≤ (spanAt ts j).start := by
  rcases Nat.eq_or_lt_of_le hij with rfl | hij
  · exact Nat.le_refl _
  · have hbetween := h.stop_le_start hij hj
    omega

theorem stop_mono (h : Ordered ts) (hij : i ≤ j) (hj : j < ts.length) : (spanAt ts i).stop ≤ (spanAt ts j).stop := by
  rcases Nat.eq_or_lt_of_le hij with rfl | hij
  · exact Nat.le_refl _
  · have hbetween := h.stop_le_start hij hj
    have hwithin := h.spanAt_le hj
    omega

/-- **The first and the last part of a run cover all of it.** -/
theorem merge_run (h : Ordered ts) (hi : i ≤ i') (hj : j ≤ j') (hij : i' < j') (hlen : j' ≤ ts.length) :
    (run ts i j).merge (run ts i' j') = run ts i j' := by
  have hstart := h.start_mono hi (by omega)
  have hstop := h.stop_mono (i := j - 1) (j := j' - 1) (by omega) (by omega)
  unfold Span.merge run
  simp only [hstart, if_true, Nat.min_eq_left, Nat.max_eq_right hstop]

end Ordered

end Token

/-! ## The place of a stream -/

theorem TokenStream.Spells.next_ne_eof {s : TokenStream} {r : Reserved} {ks : List TokenKind}
    (h : s.Spells (.reserved r :: ks)) : s.next.kind ≠ .eof := by
  rw [h.next_kind]
  exact TokenKind.reserved_ne_eof r

/-- The tokens left in the stream are those from number `i` on, and the one before them has been taken last. -/
structure TokenStream.At (s : TokenStream) (ts : List Token) (i : Nat) : Prop where
  rest : s.rest = ts.drop i
  last : 0 < i → ts[i - 1]? = some s.last
  le : i ≤ ts.length
  stop : s.stop.kind = .eof

namespace TokenStream.At

variable {s : TokenStream} {ts : List Token} {i : Nat}

theorem congr {j : Nat} (h : s.At ts i) (hij : i = j) : s.At ts j :=
  hij ▸ h

theorem spells (h : s.At ts i) : s.Spells ((ts.drop i).map (·.kind)) :=
  ⟨by rw [h.rest], h.stop⟩

/-- A next token that is not the end is one of the tokens. -/
theorem getElem? (h : s.At ts i) (hnext : s.next.kind ≠ .eof) : ts[i]? = some s.next := by
  have hrest := h.rest
  unfold TokenStream.next at hnext ⊢
  rw [hrest] at hnext ⊢
  cases hdrop : ts.drop i with
  | nil =>
      rw [hdrop] at hnext
      exact absurd h.stop hnext
  | cons t rest =>
      rw [← List.head?_drop, hdrop]
      rfl

theorem lt (h : s.At ts i) (hnext : s.next.kind ≠ .eof) : i < ts.length :=
  (List.getElem?_eq_some_iff.mp (h.getElem? hnext)).1

theorem next_span (h : s.At ts i) (hnext : s.next.kind ≠ .eof) : s.next.span = Token.run ts i (i + 1) :=
  (Token.run_of_getElem? (h.getElem? hnext)).symm

theorem tail (h : s.At ts i) (hnext : s.next.kind ≠ .eof) : s.tail.At ts (i + 1) := by
  have hget := h.getElem? hnext
  have hlt := h.lt hnext
  have hrest : s.rest = s.next :: ts.drop (i + 1) := by
    rw [h.rest, List.drop_eq_getElem_cons hlt, (List.getElem?_eq_some_iff.mp hget).2]
  unfold TokenStream.tail
  rw [hrest]
  exact ⟨rfl, fun _ => hget, hlt, h.stop⟩

/-- What the token taken last covers together with a run that ends with it. -/
theorem merge_last (h : s.At ts i) (hts : Token.Ordered ts) {j : Nat} (hj : j < i) :
    (Token.run ts j (j + 1)).merge s.last.span = Token.run ts j i := by
  obtain ⟨i, rfl⟩ : ∃ k, i = k + 1 := ⟨i - 1, by omega⟩
  have hle := h.le
  rw [← Token.run_of_getElem? (h.last (Nat.succ_pos i)), Nat.add_sub_cancel]
  exact hts.merge_run (by omega) (by omega) (by omega) hle

end TokenStream.At

namespace Parser

variable {s s' : TokenStream} {ts : List Token} {i : Nat} {r : Reserved} {t : Token}

theorem expect_at (hs : s.At ts i) (he : expect r s = .ok t s') :
    s'.At ts (i + 1) ∧ t.span = Token.run ts i (i + 1) := by
  have hspells := hs.spells
  obtain ⟨ks, hks, -⟩ := expect_eq_ok hspells he
  rw [hks] at hspells
  obtain ⟨rfl, rfl⟩ := EStateM.Result.ok.inj ((expect_apply hspells).symm.trans he)
  exact ⟨hs.tail hspells.next_ne_eof, hs.next_span hspells.next_ne_eof⟩

theorem identifier_at {name : String} (hs : s.At ts i) (he : identifier s = .ok name s') :
    s'.At ts (i + 1) := by
  have hspells := hs.spells
  obtain ⟨ks, hks, -⟩ := identifier_eq_ok hspells he
  rw [hks] at hspells
  obtain ⟨-, rfl⟩ := EStateM.Result.ok.inj ((identifier_apply hspells).symm.trans he)
  refine hs.tail ?_
  rw [hspells.next_kind]
  exact TokenKind.identifier_ne_eof name

end Parser

/-! ## Expressions -/

def Expr.width (e : Expr) : Nat :=
  e.spelling.length

namespace Expr

theorem width_pos (e : Expr) : 0 < e.width :=
  e.spelling_length_pos

variable {name : String} {e left right : Expr} {span : Span}

theorem width_assign : (Expr.assign name e span).width = 2 + e.width := by
  simp only [width, spelling, List.length_cons]
  omega

theorem width_unary {op : UnaryOp} : (Expr.unary op e span).width = 1 + e.width := by
  simp only [width, spelling, List.length_cons]
  omega

theorem width_grouping : (Expr.grouping e span).width = 1 + e.width + 1 := by
  simp only [width, spelling, List.length_append, List.length_cons, List.length_nil]
  omega

theorem width_call {arguments : List Expr} :
    (left.call arguments span).width = left.width + 1 + (spellingAll arguments).length + 1 := by
  simp only [width, spelling, List.length_append, List.length_cons, List.length_nil]
  omega

end Expr

theorem Continuation.Connects.width {c : Continuation} {make : Expr → Expr → Span → Expr} (h : c.Connects make)
    (left right : Expr) (span : Span) : (make left right span).width = left.width + 1 + right.width := by
  simp only [Expr.width, h.spelling, List.length_append, List.length_cons]
  omega

mutual

/-- The expression with the span `run i j` at every node, where token `i` is the first of the node and token `j` stands
behind the last one. -/
def Expr.spanned (run : Nat → Nat → Span) : Nat → Expr → Expr
  | i, e@(.literal v _) => .literal v (run i (i + e.width))
  | i, e@(.var name _) => .var name (run i (i + e.width))
  | i, e@(.assign name value _) => .assign name (value.spanned run (i + 2)) (run i (i + e.width))
  | i, e@(.unary op operand _) => .unary op (operand.spanned run (i + 1)) (run i (i + e.width))
  | i, e@(.binary op left right _) =>
    .binary op (left.spanned run i) (right.spanned run (i + left.width + 1)) (run i (i + e.width))
  | i, e@(.logical op left right _) =>
    .logical op (left.spanned run i) (right.spanned run (i + left.width + 1)) (run i (i + e.width))
  | i, e@(.grouping inner _) => .grouping (inner.spanned run (i + 1)) (run i (i + e.width))
  | i, e@(.call callee arguments _) =>
    .call (callee.spanned run i) (Expr.spannedAll run (i + callee.width + 1) arguments) (run i (i + e.width))

/-- The same for expressions with commas between them. -/
def Expr.spannedAll (run : Nat → Nat → Span) : Nat → List Expr → List Expr
  | _, [] => []
  | i, e :: rest => e.spanned run i :: Expr.spannedAll run (i + e.width + 1) rest

end

namespace Expr

variable (run : Nat → Nat → Span) (i : Nat)

theorem span_spanned (e : Expr) : (e.spanned run i).span = run i (i + e.width) := by
  cases e <;> rw [spanned] <;> rfl

variable {run i}

theorem span_of_spanned {e : Expr} (h : e.spanned run i = e) : e.span = run i (i + e.width) := by
  rw [← span_spanned run i e, h]

end Expr

/-! ## Reading expressions -/

namespace Parser

section Extents

variable {ts : List Token}

/-- An expression that is read extends from the token where it begins. -/
def ExpressionExtends (ts : List Token) (n : Nat) : Prop :=
  ∀ ⦃s s' : TokenStream⦄ ⦃e : Expr⦄ ⦃least : Precedence⦄ ⦃i : Nat⦄, s.At ts i → 4 * (ts.length - i) + 2 ≤ n →
    expression n least s = .ok e s' → s'.At ts (i + e.width) ∧ e.spanned (Token.run ts) i = e

def OperandExtends (ts : List Token) (n : Nat) : Prop :=
  ∀ ⦃s s' : TokenStream⦄ ⦃e : Expr⦄ ⦃i : Nat⦄, s.At ts i → 4 * (ts.length - i) + 1 ≤ n →
    operand n s = .ok e s' → s'.At ts (i + e.width) ∧ e.spanned (Token.run ts) i = e

def ContinuationsExtend (ts : List Token) (n : Nat) : Prop :=
  ∀ ⦃s s' : TokenStream⦄ ⦃e left : Expr⦄ ⦃least : Precedence⦄ ⦃i : Nat⦄, s.At ts (i + left.width) →
    left.spanned (Token.run ts) i = left → 4 * (ts.length - (i + left.width)) + 1 ≤ n →
    continuations n least left s = .ok e s' → s'.At ts (i + e.width) ∧ e.spanned (Token.run ts) i = e

def ContinuationExtends (ts : List Token) (n : Nat) : Prop :=
  ∀ ⦃s s' : TokenStream⦄ ⦃e left : Expr⦄ ⦃c : Continuation⦄ ⦃i : Nat⦄, s.At ts (i + left.width) →
    s.next.kind = .reserved c.token → left.spanned (Token.run ts) i = left →
    4 * (ts.length - (i + left.width)) ≤ n → continuation n c left s = .ok e s' →
    s'.At ts (i + e.width) ∧ e.spanned (Token.run ts) i = e ∧ left.width < e.width

def ArgumentsExtend (ts : List Token) (n : Nat) : Prop :=
  ∀ ⦃s s' : TokenStream⦄ ⦃given : Array Expr⦄ ⦃es : List Expr⦄ ⦃i : Nat⦄, s.At ts i → 4 * (ts.length - i) + 3 ≤ n →
    arguments n given s = .ok es s' → ∃ more, es = given.toList ++ more ∧ more ≠ [] ∧
      s'.At ts (i + (Expr.spellingAll more).length) ∧ Expr.spannedAll (Token.run ts) i more = more

variable {n : Nat}

theorem expressionExtends_succ (ho : OperandExtends ts n) (hc : ContinuationsExtend ts n) :
    ExpressionExtends ts (n + 1) := by
  intro s s' e least i hs hn he
  rw [expression] at he
  obtain ⟨left, s₁, hleft, he⟩ := apply_bind_eq_ok.mp he
  obtain ⟨hs₁, hspanned⟩ := ho hs (by omega) hleft
  exact hc hs₁ hspanned (by omega) he

theorem operandExtends_succ (hts : Token.Ordered ts) (hexpr : ExpressionExtends ts n) : OperandExtends ts (n + 1) := by
  intro s s' e i hs hn he
  have hne : s.next.kind ≠ .eof := by
    intro heof
    rw [operand, apply_bind_of_ok (take_apply s), heof] at he
    cases he
  have hlt := hs.lt hne
  have hspan := hs.next_span hne
  have hs₁ := hs.tail hne
  rcases operand_cases hs.spells he with ⟨v, ks', -, rfl, rfl⟩ | ⟨name, ks', -, rfl, rfl⟩ |
    ⟨inner, close, s₁, ks₁, -, hinner, hclose, rfl⟩ | ⟨op, operand, ks₁, -, hoperand, rfl⟩
  · exact ⟨hs₁, by rw [Expr.spanned, hspan]; rfl⟩
  · exact ⟨hs₁, by rw [Expr.spanned, hspan]; rfl⟩
  · obtain ⟨hs₂, hspanned⟩ := hexpr hs₁ (by omega) hinner
    obtain ⟨hs₃, hclose⟩ := expect_at hs₂ hclose
    rw [Expr.spanned, Expr.width_grouping, ← Nat.add_assoc, ← Nat.add_assoc]
    refine ⟨hs₃, ?_⟩
    rw [hspanned, hspan, hclose, hts.merge_run (by omega) (by omega) (by omega) hs₃.le]
  · obtain ⟨hs', hspanned⟩ := hexpr hs₁ (by omega) hoperand
    have hpos := operand.width_pos
    rw [Expr.spanned, Expr.width_unary, ← Nat.add_assoc]
    refine ⟨hs', ?_⟩
    rw [hspanned, hspan, Expr.span_of_spanned hspanned, hts.merge_run (by omega) (by omega) (by omega) hs'.le]

theorem continuationsExtend_succ (hc : ContinuationExtends ts n) (hcs : ContinuationsExtend ts n) :
    ContinuationsExtend ts (n + 1) := by
  intro s s' e left least i hs hleft hn he
  rw [continuations, apply_bind_of_ok (peek_apply s)] at he
  cases hk : s.next.kind.continuation? with
  | none =>
      simp only [hk] at he
      obtain ⟨rfl, rfl⟩ := EStateM.Result.ok.inj he
      exact ⟨hs, hleft⟩
  | some c =>
      simp only [hk] at he
      split at he
      · obtain ⟨rfl, rfl⟩ := EStateM.Result.ok.inj he
        exact ⟨hs, hleft⟩
      · obtain ⟨e₁, s₁, he₁, he⟩ := apply_bind_eq_ok.mp he
        have hkind := TokenKind.continuation?_eq_some.mp hk
        have hlt := hs.lt (by rw [hkind]; exact TokenKind.reserved_ne_eof _)
        obtain ⟨hs₁, hspanned, hwidth⟩ := hc hs hkind hleft (by omega) he₁
        exact hcs hs₁ hspanned (by omega) he

/-- A call is read behind its opening parenthesis. -/
theorem call_extends (hts : Token.Ordered ts) (hargs : ArgumentsExtend ts n) {s s' : TokenStream} {e left : Expr}
    {i : Nat} (hs : s.At ts (i + left.width + 1)) (hleft : left.spanned (Token.run ts) i = left)
    (hn : 4 * (ts.length - (i + left.width + 1)) + 3 ≤ n)
    (he : (do
      let given ← if ← isNext .rightParen then pure [] else arguments n #[]
      let close ← expect .rightParen
      return left.call given (left.span.merge close.span) : Parser Expr) s = .ok e s') :
    s'.At ts (i + e.width) ∧ e.spanned (Token.run ts) i = e ∧ left.width < e.width := by
  obtain ⟨given, s₁, hs₁, hspanned, he⟩ : ∃ given s₁,
      s₁.At ts (i + left.width + 1 + (Expr.spellingAll given).length) ∧
      Expr.spannedAll (Token.run ts) (i + left.width + 1) given = given ∧
      (do
        let close ← expect .rightParen
        return left.call given (left.span.merge close.span) : Parser Expr) s₁ = .ok e s' := by
    by_cases hclose : ((ts.drop (i + left.width + 1)).map (·.kind)).head? = some (.reserved .rightParen)
    · simp only [apply_bind_of_ok (isNext_of_head hs.spells hclose), if_true] at he
      exact ⟨[], s, hs, rfl, he⟩
    · simp only [apply_bind_of_ok (isNext_of_ne hs.spells hclose), Bool.false_eq_true, if_false] at he
      obtain ⟨given, s₁, hgiven, he⟩ := apply_bind_eq_ok.mp he
      obtain ⟨more, rfl, -, hs₁, hspanned⟩ := hargs hs hn hgiven
      exact ⟨_, s₁, hs₁, hspanned, he⟩
  obtain ⟨close, s₂, hclose, he⟩ := apply_bind_eq_ok.mp he
  obtain ⟨rfl, rfl⟩ := EStateM.Result.ok.inj he
  obtain ⟨hs', hclose⟩ := expect_at hs₁ hclose
  have hpos := left.width_pos
  rw [Expr.spanned, Expr.width_call, ← Nat.add_assoc, ← Nat.add_assoc, ← Nat.add_assoc]
  refine ⟨hs', ?_, by omega⟩
  rw [hleft, hspanned, Expr.span_of_spanned hleft, hclose, hts.merge_run (by omega) (by omega) (by omega) hs'.le]

theorem continuationExtends_succ (hts : Token.Ordered ts) (hexpr : ExpressionExtends ts n)
    (hargs : ArgumentsExtend ts n) : ContinuationExtends ts (n + 1) := by
  intro s s' e left c i hs hkind hleft hn he
  have hne : s.next.kind ≠ .eof := by rw [hkind]; exact TokenKind.reserved_ne_eof _
  have hlt := hs.lt hne
  have hs₁ := hs.tail hne
  have hspan := Expr.span_of_spanned hleft
  have hconnects : ∀ make, c.Connects make → (∀ l r span, (make l r span).spanned (Token.run ts) i =
      make (l.spanned (Token.run ts) i) (r.spanned (Token.run ts) (i + l.width + 1))
        (Token.run ts i (i + (make l r span).width))) →
      s'.At ts (i + e.width) ∧ e.spanned (Token.run ts) i = e ∧ left.width < e.width := by
    intro make hmake hmakes
    rw [hmake.read] at he
    obtain ⟨right, s₂, hright, he⟩ := apply_bind_eq_ok.mp he
    obtain ⟨rfl, rfl⟩ := EStateM.Result.ok.inj he
    obtain ⟨hs', hspanned⟩ := hexpr hs₁ (by omega) hright
    have hpos := right.width_pos
    rw [hmakes, hmake.width, ← Nat.add_assoc, ← Nat.add_assoc]
    refine ⟨hs', ?_, by omega⟩
    rw [hleft, hspanned, hspan, Expr.span_of_spanned hspanned,
      hts.merge_run (by omega) (by omega) (by omega) hs'.le]
  cases c with
  | logical op => exact hconnects _ op.connects fun l r span => by rw [Expr.spanned]
  | binary op => exact hconnects _ op.connects fun l r span => by rw [Expr.spanned]
  | assign =>
      rw [continuation, apply_bind_of_ok (take_apply s)] at he
      obtain ⟨value, s₂, hvalue, he⟩ := apply_bind_eq_ok.mp he
      obtain ⟨hs', hspanned⟩ := hexpr hs₁ (by omega) hvalue
      cases left with
      | var name span =>
          obtain ⟨rfl, rfl⟩ := EStateM.Result.ok.inj he
          have hone : (Expr.var name span).width = 1 := rfl
          have hname : span = Token.run ts i (i + 1) := hspan
          have hpos := value.width_pos
          rw [hone] at hs' hspanned ⊢
          rw [Expr.spanned, Expr.width_assign, ← Nat.add_assoc]
          refine ⟨hs', ?_, by omega⟩
          rw [hspanned, hname, Expr.span_of_spanned hspanned,
            hts.merge_run (by omega) (by omega) (by omega) hs'.le]
      | _ => cases he
  | call =>
      rw [continuation, apply_bind_of_ok (take_apply s)] at he
      exact call_extends hts hargs hs₁ hleft (by omega) he
  | member =>
      rw [continuation, apply_bind_of_ok (take_apply s)] at he
      cases he

theorem argumentsExtend_succ (hexpr : ExpressionExtends ts n) (hargs : ArgumentsExtend ts n) :
    ArgumentsExtend ts (n + 1) := by
  intro s s' given es i hs hn he
  rw [arguments] at he
  split at he
  · cases he
  · obtain ⟨e, s₁, hread, he⟩ := apply_bind_eq_ok.mp he
    obtain ⟨hs₁, hspanned⟩ := hexpr hs (by omega) hread
    have hspells := hs₁.spells
    by_cases hcomma : ((ts.drop (i + e.width)).map (·.kind)).head? = some (.reserved .comma)
    · obtain ⟨ks, hks⟩ := List.head?_eq_some_iff.mp hcomma
      rw [hks] at hspells
      rw [apply_bind_of_ok (accept_of_head hspells), if_pos rfl] at he
      have hlt := hs₁.lt hspells.next_ne_eof
      obtain ⟨more, rfl, hne, hs', hspanned'⟩ := hargs (hs₁.tail hspells.next_ne_eof) (by omega) he
      refine ⟨e :: more, by simp, List.cons_ne_nil _ _, ?_, by rw [Expr.spannedAll, hspanned, hspanned']⟩
      obtain ⟨e', rest, rfl⟩ := List.exists_cons_of_ne_nil hne
      rw [Expr.spellingAll, List.length_append, List.length_cons, Nat.add_comm _ 1, ← Nat.add_assoc, ← Nat.add_assoc]
      exact hs'
    · rw [apply_bind_of_ok (accept_of_ne hspells hcomma)] at he
      obtain ⟨rfl, rfl⟩ := EStateM.Result.ok.inj he
      exact ⟨[e], by simp, List.cons_ne_nil _ _, hs₁, by rw [Expr.spannedAll, hspanned, Expr.spannedAll]⟩

/-- All of them do so, whatever `n` is. -/
theorem expressions_extend (hts : Token.Ordered ts) (n : Nat) :
    ExpressionExtends ts n ∧ OperandExtends ts n ∧ ContinuationsExtend ts n ∧ ContinuationExtends ts n ∧
      ArgumentsExtend ts n := by
  induction n with
  | zero =>
      refine ⟨?_, ?_, ?_, ?_, ?_⟩
      · intro s s' e least i hs hn
        omega
      · intro s s' e i hs hn
        omega
      · intro s s' e left least i hs hleft hn
        omega
      · intro s s' e left c i hs hkind hleft hn
        have hlt := hs.lt (by rw [hkind]; exact TokenKind.reserved_ne_eof _)
        omega
      · intro s s' given es i hs hn
        omega
  | succ n ih =>
      obtain ⟨hexpr, ho, hcs, hc, hargs⟩ := ih
      exact ⟨expressionExtends_succ ho hcs, operandExtends_succ hts hexpr, continuationsExtend_succ hc hcs,
        continuationExtends_succ hts hexpr hargs, argumentsExtend_succ hexpr hargs⟩

/-- **An expression that is read from tokens in order has at every node the span of its tokens.** -/
theorem expression_extends (hts : Token.Ordered ts) {s s' : TokenStream} {e : Expr} {i : Nat} (hs : s.At ts i)
    (hn : 4 * (ts.length - i) + 2 ≤ n) (he : expression n .assignment s = .ok e s') :
    s'.At ts (i + e.width) ∧ e.spanned (Token.run ts) i = e :=
  (expressions_extend hts n).1 hs hn he

end Extents

end Parser

end Lox
