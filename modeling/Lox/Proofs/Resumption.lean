import Lox.Proofs.Likeness
import Lox.Proofs.Soundness

/-!
# Reading from the middle of a program

What is read from some point on depends on the tokens that are left and on nothing else: not on the token taken last
and not on how far the counts go that the parsers run down.

* `TokenStream.Same` : the same tokens are left in two streams;
* `Parser.declarations_alike` : declarations are read alike from them, up to and including errors;
* `Reading.Adds fuel rounds s es` : reading on adds the errors `es`; by `Reading.adds_same` they depend on the tokens
  alone;
* `Program.errors tokens` : the errors of a list of tokens, and `Reading.adds_errors`, which finds them at the end of
  a reading that reaches these tokens.
-/

namespace Lox

/-! ## The same tokens -/

/-- The same `l` tokens are left in both streams. Once fewer than `l₀` are left, the token taken last is the same. -/
structure TokenStream.Same (l₀ l : Nat) (s t : TokenStream) : Prop where
  rest : s.rest = t.rest
  stop : s.stop = t.stop
  stop_kind : s.stop.kind = .eof
  length : s.rest.length = l
  le : l ≤ l₀
  last : l < l₀ → s.last = t.last

namespace TokenStream.Same

variable {l₀ l : Nat} {s t : TokenStream}

theorem next_eq (h : Same l₀ l s t) : s.next = t.next := by
  unfold TokenStream.next
  rw [h.rest, h.stop]

theorem pos (h : Same l₀ l s t) (hne : s.next.kind ≠ .eof) : 0 < l := by
  rw [← h.length, List.length_pos_iff]
  intro hnil
  apply hne
  unfold TokenStream.next
  rw [hnil]
  exact h.stop_kind

theorem tail (h : Same l₀ l s t) : Same l₀ (l - 1) s.tail t.tail := by
  have hrest := h.rest
  have hlength := h.length
  have hle := h.le
  unfold TokenStream.tail
  cases hs : s.rest with
  | nil =>
      rw [hs] at hrest hlength
      rw [← hrest]
      obtain rfl : 0 = l := hlength
      exact h
  | cons t₀ rest =>
      rw [hs] at hrest hlength
      rw [← hrest]
      rw [List.length_cons] at hlength
      exact ⟨rfl, h.stop, h.stop_kind, by dsimp only; omega, by omega, fun _ => rfl⟩

/-- Streams from which something has been taken are the same altogether. -/
theorem eq (h : Same l₀ l s t) (hlt : l < l₀) : s = t := by
  cases s
  cases t
  obtain rfl := h.rest
  obtain rfl := h.stop
  obtain rfl := h.last hlt
  rfl

end TokenStream.Same

def Likeness.same (l₀ : Nat) : Likeness where
  alike := TokenStream.Same l₀
  behind := TokenStream.Same l₀
  next_eq h := h.next_eq
  pos h := h.pos
  tail h _ := h.tail
  tail_semicolon h _ := h.tail

namespace Parser

variable {l₀ l b n m : Nat} {s t : TokenStream} {r : Reserved} {α β : Type}

abbrev Alike (l₀ b : Nat) (x y : EStateM.Result Parser.Stop TokenStream α) : Prop :=
  (Likeness.same l₀).Results (TokenStream.Same l₀) b x y

/-! ## Parts of statements -/

/-- A sequence that begins with what the last token and an earlier one cover. -/
theorem spanSince_alike {f g : Span → Parser β} {span : Span} (h : TokenStream.Same l₀ l s t) (hlt : l < l₀)
    (hf : Alike l₀ b (f (span.merge s.last.span) s) (g (span.merge s.last.span) t)) :
    Alike l₀ b ((spanSince span >>= f) s) ((spanSince span >>= g) t) := by
  have hs : spanSince span s = .ok (span.merge s.last.span) s := rfl
  have ht : spanSince span t = .ok (span.merge s.last.span) t := by
    rw [h.last hlt]
    rfl
  rw [apply_bind_of_ok hs, apply_bind_of_ok ht]
  exact hf

theorem expect_alike (h : TokenStream.Same l₀ l s t) : Alike l₀ l (expect r s) (expect r t) :=
  Likeness.expect_of_tail h fun _ => h.tail

theorem condition_alike (h : TokenStream.Same l₀ l s t) (hn : 4 * l + 2 ≤ n) (hm : 4 * l + 2 ≤ m) :
    Alike l₀ l (condition n s) (condition m t) := by
  unfold condition
  refine (expect_alike h).bind fun _ l₁ s₁ t₁ hl₁ h₁ => ?_
  refine (Likeness.expression h₁ .assignment (by omega) (by omega)).bind fun e l₂ s₂ t₂ hl₂ h₂ => ?_
  refine (expect_alike h₂).bind fun _ l₃ s₃ t₃ hl₃ h₃ => ?_
  exact .ok e (by omega) h₃

theorem forInitializer_alike (h : TokenStream.Same l₀ l s t) (hn : 4 * l + 2 ≤ n) (hm : 4 * l + 2 ≤ m) :
    Alike l₀ l (forInitializer n s) (forInitializer m t) := by
  unfold forInitializer
  refine Likeness.accept h (fun _ hlt => .ok none hlt h.tail) ?_
  refine Likeness.isNext h ?_
  cases hstarts : s.starts .var with
  | true => exact (Likeness.varDeclaration h (TokenStream.kind_of_starts hstarts) hn hm).map some
  | false => exact (Likeness.expressionStatement h hn hm).map some

theorem parameters_alike (n : Nat) {m l : Nat} {s t : TokenStream} (names : Array String)
    (h : TokenStream.Same l₀ l s t) (hn : l < n) (hm : l < m) :
    Alike l₀ l (parameters n names s) (parameters m names t) := by
  induction n generalizing m l s t names with
  | zero => omega
  | succ n ih =>
      obtain ⟨m, rfl⟩ : ∃ m', m = m' + 1 := ⟨m - 1, by omega⟩
      rw [parameters, parameters]
      split
      · exact Likeness.refuseMore h _
      · refine (Likeness.identifier h).bind fun name l₁ s₁ t₁ hl₁ h₁ => ?_
        refine Likeness.accept h₁ (fun _ hlt => ?_) ?_
        · exact (ih _ (TokenStream.Same.tail h₁) (by omega) (by omega)).mono (by omega)
        · exact .ok _ hl₁ h₁

theorem classDeclaration_alike (h : TokenStream.Same l₀ l s t) (hpos : 0 < l) :
    Alike l₀ l (classDeclaration s) (classDeclaration t) := by
  have htail := h.tail
  have hle := h.le
  have heq : s.tail = t.tail := htail.eq (by omega)
  unfold classDeclaration
  refine Likeness.take h ?_
  rw [← heq]
  refine .error rfl (l := (skipClassBody (skipToBrace s.tail.last s.tail.rest).1 0
    (skipToBrace s.tail.last s.tail.rest).2).2.length) ⟨rfl, rfl, htail.stop_kind, rfl, ?_, fun _ => rfl⟩
  have hbrace := (skipToBrace_suffix s.tail.last s.tail.rest).length_le
  have hbody := (skipClassBody_suffix (skipToBrace s.tail.last s.tail.rest).1 0
    (skipToBrace s.tail.last s.tail.rest).2).length_le
  rw [htail.length] at hbrace
  omega

/-! ## Statements

What each of the functions that read statements does with streams that have the same tokens left, if both counts are
large enough for them. -/

/-- A declaration takes at least one token. -/
def DeclarationAlike (l₀ n : Nat) : Prop :=
  ∀ ⦃m l : Nat⦄ ⦃s t : TokenStream⦄, TokenStream.Same l₀ l s t → 4 * l + 4 ≤ n → 4 * l + 4 ≤ m →
    Alike l₀ l (declaration n s) (declaration m t)

def StatementAlike (l₀ n : Nat) : Prop :=
  ∀ ⦃m l : Nat⦄ ⦃s t : TokenStream⦄, TokenStream.Same l₀ l s t → 4 * l + 3 ≤ n → 4 * l + 3 ≤ m →
    Alike l₀ l (statement n s) (statement m t)

def BlockAlike (l₀ n : Nat) : Prop :=
  ∀ ⦃m l : Nat⦄ ⦃s t : TokenStream⦄, TokenStream.Same l₀ l s t → 4 * l + 2 ≤ n → 4 * l + 2 ≤ m →
    Alike l₀ l (block n s) (block m t)

def DeclarationsAlike (l₀ n : Nat) : Prop :=
  ∀ ⦃m l : Nat⦄ ⦃s t : TokenStream⦄ (body : Array Stmt), TokenStream.Same l₀ l s t → 4 * l + 5 ≤ n →
    4 * l + 5 ≤ m → Alike l₀ (l + 1) (declarations n body s) (declarations m body t)

theorem declarationsAlike_succ (hdecl : DeclarationAlike l₀ n) (hdecls : DeclarationsAlike l₀ n) :
    DeclarationsAlike l₀ (n + 1) := by
  intro m l s t body h hn hm
  obtain ⟨m, rfl⟩ : ∃ m', m = m' + 1 := ⟨m - 1, by omega⟩
  have hatEnd : t.atEnd = s.atEnd := by
    unfold TokenStream.atEnd
    rw [h.rest]
  rw [declarations, declarations, apply_bind_of_ok (apply_get s), apply_bind_of_ok (apply_get t),
    ← Likeness.starts_eq (L := .same l₀) h, hatEnd]
  cases s.starts .rightBrace || s.atEnd with
  | true => exact .ok _ (Nat.lt_succ_self l) h
  | false =>
      refine (hdecl h (by omega) (by omega)).bind fun d l₁ s₁ t₁ hl₁ h₁ => ?_
      exact (hdecls _ h₁ (by omega) (by omega)).mono (by omega)

theorem blockAlike_succ (hdecls : DeclarationsAlike l₀ n) : BlockAlike l₀ (n + 1) := by
  intro m l s t h hn hm
  obtain ⟨m, rfl⟩ : ∃ m', m = m' + 1 := ⟨m - 1, by omega⟩
  rw [block, block]
  refine (expect_alike h).bind fun _ l₁ s₁ t₁ hl₁ h₁ => ?_
  refine (hdecls #[] h₁ (by omega) (by omega)).bind fun body l₂ s₂ t₂ hl₂ h₂ => ?_
  refine (expect_alike h₂).bind fun _ l₃ s₃ t₃ hl₃ h₃ => ?_
  exact .ok body (by omega) h₃

theorem ifElse_alike (hstmt : StatementAlike l₀ n) (h : TokenStream.Same l₀ l s t) (hkind : s.next.kind = .reserved .if)
    (hn : 4 * l + 2 ≤ n) (hm : 4 * l + 2 ≤ m) :
    Alike l₀ l (statement (n + 1) s) (statement (m + 1) t) := by
  have hpos := h.pos (by simp [hkind])
  have hle := h.le
  rw [statement, statement]
  refine Likeness.peek h ?_
  rw [hkind]
  refine Likeness.take h ?_
  refine (condition_alike h.tail (by omega) (by omega)).bind fun test l₁ s₁ t₁ hl₁ h₁ => ?_
  refine (hstmt h₁ (by omega) (by omega)).bind fun thenBranch l₂ s₂ t₂ hl₂ h₂ => ?_
  have hspan : ∀ elseBranch l₃ s₃ t₃, l₃ < l → TokenStream.Same l₀ l₃ s₃ t₃ → Alike l₀ l
      ((do return Stmt.ifElse test thenBranch elseBranch (← spanSince s.next.span) : Parser Stmt) s₃)
      ((do return Stmt.ifElse test thenBranch elseBranch (← spanSince s.next.span) : Parser Stmt) t₃) := by
    intro elseBranch l₃ s₃ t₃ hl₃ h₃
    exact spanSince_alike h₃ (by omega) (.ok _ hl₃ h₃)
  refine Likeness.accept h₂ (fun _ hlt => ?_) ?_
  · refine ((hstmt (TokenStream.Same.tail h₂) (by omega) (by omega)).map some).bind
      fun elseBranch l₃ s₃ t₃ hl₃ h₃ => ?_
    exact hspan elseBranch l₃ s₃ t₃ (by omega) h₃
  · exact hspan none l₂ s₂ t₂ (by omega) h₂

theorem whileLoop_alike (hstmt : StatementAlike l₀ n) (h : TokenStream.Same l₀ l s t)
    (hkind : s.next.kind = .reserved .while) (hn : 4 * l + 2 ≤ n) (hm : 4 * l + 2 ≤ m) :
    Alike l₀ l (statement (n + 1) s) (statement (m + 1) t) := by
  have hpos := h.pos (by simp [hkind])
  have hle := h.le
  rw [statement, statement]
  refine Likeness.peek h ?_
  rw [hkind]
  refine Likeness.take h ?_
  refine (condition_alike h.tail (by omega) (by omega)).bind fun test l₁ s₁ t₁ hl₁ h₁ => ?_
  refine (hstmt h₁ (by omega) (by omega)).bind fun body l₂ s₂ t₂ hl₂ h₂ => ?_
  exact spanSince_alike h₂ (by omega) (.ok _ (by omega) h₂)

theorem forLoop_alike (hstmt : StatementAlike l₀ n) (h : TokenStream.Same l₀ l s t)
    (hkind : s.next.kind = .reserved .for) (hn : 4 * l + 2 ≤ n) (hm : 4 * l + 2 ≤ m) :
    Alike l₀ l (statement (n + 1) s) (statement (m + 1) t) := by
  have hpos := h.pos (by simp [hkind])
  have hle := h.le
  rw [statement, statement]
  refine Likeness.peek h ?_
  rw [hkind]
  refine Likeness.take h ?_
  refine (expect_alike h.tail).bind fun _ l₁ s₁ t₁ hl₁ h₁ => ?_
  refine (forInitializer_alike h₁ (by omega) (by omega)).bind fun initializer l₂ s₂ t₂ hl₂ h₂ => ?_
  refine (Likeness.optional h₂ .semicolon (by omega) (by omega)).bind fun test l₃ s₃ t₃ hl₃ h₃ => ?_
  refine (expect_alike h₃).bind fun _ l₄ s₄ t₄ hl₄ h₄ => ?_
  refine (Likeness.optional h₄ .rightParen (by omega) (by omega)).bind fun step l₅ s₅ t₅ hl₅ h₅ => ?_
  refine (expect_alike h₅).bind fun _ l₆ s₆ t₆ hl₆ h₆ => ?_
  refine (hstmt h₆ (by omega) (by omega)).bind fun body l₇ s₇ t₇ hl₇ h₇ => ?_
  exact spanSince_alike h₇ (by omega) (.ok _ (by omega) h₇)

theorem blockStatement_alike (hblock : BlockAlike l₀ n) (h : TokenStream.Same l₀ l s t)
    (hkind : s.next.kind = .reserved .leftBrace) (hn : 4 * l + 2 ≤ n) (hm : 4 * l + 2 ≤ m) :
    Alike l₀ l (statement (n + 1) s) (statement (m + 1) t) := by
  have hle := h.le
  rw [statement, statement]
  refine Likeness.peek h ?_
  rw [hkind]
  refine Likeness.peek h ?_
  refine (hblock h hn hm).bind fun body l₁ s₁ t₁ hl₁ h₁ => ?_
  exact spanSince_alike h₁ (by omega) (.ok _ hl₁ h₁)

theorem statementAlike_succ (hstmt : StatementAlike l₀ n) (hblock : BlockAlike l₀ n) : StatementAlike l₀ (n + 1) := by
  intro m l s t h hn hm
  obtain ⟨m, rfl⟩ : ∃ m', m = m' + 1 := ⟨m - 1, by omega⟩
  by_cases hif : s.next.kind = .reserved .if
  · exact ifElse_alike hstmt h hif (by omega) (by omega)
  by_cases hwhile : s.next.kind = .reserved .while
  · exact whileLoop_alike hstmt h hwhile (by omega) (by omega)
  by_cases hfor : s.next.kind = .reserved .for
  · exact forLoop_alike hstmt h hfor (by omega) (by omega)
  by_cases hbrace : s.next.kind = .reserved .leftBrace
  · exact blockStatement_alike hblock h hbrace (by omega) (by omega)
  · exact Likeness.simpleStatement h (by simp [hif, hwhile, hfor, hbrace]) hn hm

theorem function_alike (hblock : BlockAlike l₀ n) (h : TokenStream.Same l₀ l s t)
    (hkind : s.next.kind = .reserved .fun) (hn : 4 * l + 2 ≤ n) (hm : 4 * l + 2 ≤ m) :
    Alike l₀ l (declaration (n + 1) s) (declaration (m + 1) t) := by
  have hpos := h.pos (by simp [hkind])
  have hle := h.le
  rw [declaration, declaration]
  refine Likeness.peek h ?_
  rw [hkind]
  refine Likeness.take h ?_
  refine (Likeness.identifier h.tail).bind fun name l₁ s₁ t₁ hl₁ h₁ => ?_
  refine (expect_alike h₁).bind fun _ l₂ s₂ t₂ hl₂ h₂ => ?_
  have hbody : ∀ names l₃ s₃ t₃, l₃ < l → TokenStream.Same l₀ l₃ s₃ t₃ → Alike l₀ l
      ((do
        let _ ← expect .rightParen
        let body ← block n
        return Stmt.function name names body (← spanSince s.next.span) : Parser Stmt) s₃)
      ((do
        let _ ← expect .rightParen
        let body ← block m
        return Stmt.function name names body (← spanSince s.next.span) : Parser Stmt) t₃) := by
    intro names l₃ s₃ t₃ hl₃ h₃
    refine (expect_alike h₃).bind fun _ l₄ s₄ t₄ hl₄ h₄ => ?_
    refine (hblock h₄ (by omega) (by omega)).bind fun body l₅ s₅ t₅ hl₅ h₅ => ?_
    exact spanSince_alike h₅ (by omega) (.ok _ (by omega) h₅)
  refine Likeness.isNext h₂ ?_
  cases s₂.starts .rightParen with
  | true => exact hbody [] l₂ s₂ t₂ (by omega) h₂
  | false =>
      refine (parameters_alike n #[] h₂ (by omega) (by omega)).bind fun names l₃ s₃ t₃ hl₃ h₃ => ?_
      exact hbody names l₃ s₃ t₃ (by omega) h₃

theorem declarationAlike_succ (hstmt : StatementAlike l₀ n) (hblock : BlockAlike l₀ n) :
    DeclarationAlike l₀ (n + 1) := by
  intro m l s t h hn hm
  obtain ⟨m, rfl⟩ : ∃ m', m = m' + 1 := ⟨m - 1, by omega⟩
  by_cases hfun : s.next.kind = .reserved .fun
  · exact function_alike hblock h hfun (by omega) (by omega)
  rw [declaration, declaration]
  refine Likeness.peek h ?_
  generalize hk : s.next.kind = k at hfun ⊢
  split
  · exact absurd rfl hfun
  · exact Likeness.varDeclaration h hk (by omega) (by omega)
  · exact classDeclaration_alike h (h.pos (by simp [hk]))
  · exact hstmt h (by omega) (by omega)

/-- All of them do so, whatever `n` is. -/
theorem declarations_alike (l₀ n : Nat) :
    DeclarationAlike l₀ n ∧ StatementAlike l₀ n ∧ BlockAlike l₀ n ∧ DeclarationsAlike l₀ n := by
  induction n with
  | zero =>
      refine ⟨?_, ?_, ?_, ?_⟩
      · intro m l s t h hn
        omega
      · intro m l s t h hn
        omega
      · intro m l s t h hn
        omega
      · intro m l s t body h hn
        omega
  | succ n ih =>
      obtain ⟨hdecl, hstmt, hblock, hdecls⟩ := ih
      exact ⟨declarationAlike_succ hstmt hblock, statementAlike_succ hstmt hblock, blockAlike_succ hdecls,
        declarationsAlike_succ hdecl hdecls⟩

end Parser

/-! ## The rest of a program -/

namespace TokenStream

/-- From an error too, reading goes on with the same tokens, and there are fewer of them. -/
theorem Same.resume {l₀ l : Nat} {s t : TokenStream} (h : Same l₀ l s t) :
    ∃ l' ≤ l - 1, Same l' l' s.resume t.resume := by
  have hstop := h.stop_kind
  cases hs : s.rest with
  | nil =>
      have ht : t.rest = [] := h.rest ▸ hs
      rw [resume_of_nil hs, resume_of_nil ht]
      exact ⟨0, Nat.zero_le _, h.rest, h.stop, hstop, by rw [hs]; rfl, Nat.le_refl 0,
        fun hlt => absurd hlt (Nat.lt_irrefl 0)⟩
  | cons t₀ rest =>
      have ht : t.rest = t₀ :: rest := h.rest ▸ hs
      have hlength := h.length
      rw [hs, List.length_cons] at hlength
      have hle := (skipToStatement_suffix t₀ rest).length_le
      rw [resume_of_cons hs, resume_of_cons ht]
      exact ⟨(skipToStatement t₀ rest).2.length, by omega, rfl, h.stop, hstop, rfl, Nat.le_refl _,
        fun hlt => absurd hlt (Nat.lt_irrefl _)⟩

end TokenStream

/-- Reading the stream to its end adds these errors to those that have been noted. -/
def Reading.Adds (fuel rounds : Nat) (s : TokenStream) (es : List SyntaxError) : Prop :=
  ∀ r, ∃ r', Reading.from fuel rounds r s = some r' ∧ r'.errors.toList = r.errors.toList ++ es

namespace Reading

variable {fuel rounds : Nat} {s s' : TokenStream} {es : List SyntaxError}

theorem adds_of_nil (h : s.rest = []) : Adds fuel rounds s [] :=
  fun r => ⟨r, from_of_nil h, (List.append_nil _).symm⟩

theorem adds_of_ok {d : Stmt} (hne : s.rest ≠ []) (hd : Parser.declaration fuel s = .ok d s')
    (h : Adds fuel rounds s' es) : Adds fuel (rounds + 1) s es := by
  intro r
  obtain ⟨r', hr', herrors⟩ := h { r with statements := r.statements.push d }
  exact ⟨r', (from_of_ok hne hd).trans hr', herrors⟩

theorem adds_of_error {e : SyntaxError} (hne : s.rest ≠ []) (hd : Parser.declaration fuel s = .error (.error e) s')
    (h : Adds fuel rounds s'.resume es) : Adds fuel (rounds + 1) s (e :: es) := by
  intro r
  obtain ⟨r', hr', herrors⟩ := h { r with errors := r.errors.push e }
  refine ⟨r', (from_of_error hne hd).trans hr', ?_⟩
  rw [herrors, Array.toList_push, List.append_assoc, List.singleton_append]

/-- Reading adds the same errors when the same tokens are left, whatever has been read before. -/
theorem adds_same {l n m i j : Nat} {s t : TokenStream} (h : TokenStream.Same l l s t) (hn : 4 * l + 4 ≤ n)
    (hm : 4 * l + 4 ≤ m) (hi : l ≤ i) (hj : l ≤ j) : ∃ es, Adds n i s es ∧ Adds m j t es := by
  induction l using Nat.strongRecOn generalizing s t i j with
  | ind l ih =>
      by_cases hnil : s.rest = []
      · exact ⟨[], adds_of_nil hnil, adds_of_nil (h.rest ▸ hnil)⟩
      have hnil' : t.rest ≠ [] := h.rest ▸ hnil
      have hpos : 0 < l := h.length ▸ List.length_pos_iff.mpr hnil
      obtain ⟨i, rfl⟩ : ∃ i', i = i' + 1 := ⟨i - 1, by omega⟩
      obtain ⟨j, rfl⟩ : ∃ j', j = j' + 1 := ⟨j - 1, by omega⟩
      have hresume : ∀ e l₁ s₁ t₁, TokenStream.Same l l₁ s₁ t₁ → Parser.declaration n s = .error (.error e) s₁ →
          Parser.declaration m t = .error (.error e) t₁ → ∃ es, Adds n (i + 1) s es ∧ Adds m (j + 1) t es := by
        intro e l₁ s₁ t₁ h₁ hs ht
        have hle := h₁.le
        obtain ⟨l₂, hl₂, h₂⟩ := h₁.resume
        obtain ⟨es, hes, het⟩ := ih l₂ (by omega) h₂ (i := i) (j := j) (by omega) (by omega) (by omega) (by omega)
        exact ⟨e :: es, adds_of_error hnil hs hes, adds_of_error hnil' ht het⟩
      have hdecl := (Parser.declarations_alike l n).1 h hn hm
      generalize hs : Parser.declaration n s = x at hdecl hresume
      generalize ht : Parser.declaration m t = y at hdecl hresume
      cases hdecl with
      | ok d hl h₁ =>
          rename_i l₁ s₁ t₁
          obtain rfl := h₁.eq hl
          have hself : TokenStream.Same l₁ l₁ s₁ s₁ :=
            ⟨rfl, rfl, h₁.stop_kind, h₁.length, Nat.le_refl _, fun _ => rfl⟩
          obtain ⟨es, hes, het⟩ := ih l₁ hl hself (i := i) (j := j) (by omega) (by omega) (by omega) (by omega)
          exact ⟨es, adds_of_ok hnil hs hes, adds_of_ok hnil' ht het⟩
      | error he h₁ => exact hresume _ _ _ _ h₁ rfl rfl
      | missing he h₁ => exact hresume _ _ _ _ h₁ rfl rfl

end Reading

/-- The errors of a list of tokens, in order. -/
def Program.errors (tokens : List Token) : List SyntaxError :=
  match Program.ofTokens tokens with
  | .ok _ => []
  | .error es => es

theorem Program.errors_of_read {tokens : List Token} {r : Reading} (h : (TokenStream.ofTokens tokens).read? = some r) :
    Program.errors tokens = r.errors.toList := by
  unfold Program.errors
  rw [Program.ofTokens_of_read h]
  by_cases hempty : r.errors.isEmpty = true
  · rw [if_pos hempty, Array.isEmpty_iff.mp hempty]
  · rw [if_neg hempty]

theorem Program.errors_of_adds {tokens : List Token} {es : List SyntaxError} {rounds : Nat}
    (hrounds : (TokenStream.ofTokens tokens).rest.length = rounds)
    (h : Reading.Adds (4 * (rounds + 1)) rounds (TokenStream.ofTokens tokens) es) : Program.errors tokens = es := by
  subst hrounds
  obtain ⟨r, hr, herrors⟩ := h {}
  rw [Program.errors_of_read hr, herrors]
  rfl

/-- **A reading that has come to these tokens adds their errors.** -/
theorem Reading.adds_errors {n i : Nat} {s : TokenStream} (tokens : List Token)
    (hrest : s.rest = (TokenStream.ofTokens tokens).rest)
    (hstop : s.rest ≠ [] → s.stop = (TokenStream.ofTokens tokens).stop)
    (hn : 4 * s.rest.length + 4 ≤ n) (hi : s.rest.length ≤ i) : Adds n i s (Program.errors tokens) := by
  by_cases hnil : s.rest = []
  · rw [Program.errors_of_adds rfl (adds_of_nil (hrest ▸ hnil))]
    exact adds_of_nil hnil
  have hkind := TokenStream.stop_kind_ofTokens tokens
  have hsame : TokenStream.Same s.rest.length s.rest.length s (TokenStream.ofTokens tokens) :=
    ⟨hrest, hstop hnil, (hstop hnil) ▸ hkind, rfl, Nat.le_refl _, fun hlt => absurd hlt (Nat.lt_irrefl _)⟩
  obtain ⟨es, hes, het⟩ := adds_same (j := (TokenStream.ofTokens tokens).rest.length)
    (m := 4 * ((TokenStream.ofTokens tokens).rest.length + 1)) hsame hn (by rw [← hrest]; omega) hi
    (Nat.le_of_eq (congrArg List.length hrest))
  rw [Program.errors_of_adds rfl het]
  exact hes

end Lox
