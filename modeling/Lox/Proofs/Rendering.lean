import Lox.Proofs.LongestMatch
import Lox.Proofs.ShortestDigits

/-!
# Tokens written and scanned again

Tokens can be written as messages show them, with white space and comments between them; scanning then gives them back.

* `TokenKind.Writable` : the tokens of which this is true;
* `Spacing` : what may stand between two tokens;
* `Lexeme.longest_of_separated` : in front of a separator every lexeme is the longest;
* `scan_render` : what is written is scanned as the same tokens.
-/

namespace Lox

open Cursor (startsWord continuesWord isSeparator symbol?)

/-! ## Writing tokens -/

structure IsIdentifier (name : String) : Prop where
  starts : ∃ c ∈ name.toList.head?, startsWord c = true
  continues : ∀ c ∈ name.toList.tail, continuesWord c = true
  unreserved : ∀ r ∈ Reserved.keywords, r.text ≠ name

/-- Programs spell the token as messages show it. -/
def TokenKind.Writable : TokenKind → Prop
  | number x => Number.Plain x
  | string s => '"' ∉ s.toList
  | identifier name => IsIdentifier name
  | reserved _ => True
  | eof => False

inductive Filler : List Char → Prop where
  | nil : Filler []
  | separator {c : Char} {cs : List Char} (hc : isSeparator c = true) (h : Filler cs) : Filler (c :: cs)
  | comment {text cs : List Char} (htext : '\n' ∉ text) (h : Filler cs) : Filler ('/' :: '/' :: (text ++ '\n' :: cs))

/-- What may stand between two tokens: a separator comes first, so that the tokens do not run together. -/
structure Spacing where
  first : Char
  more : List Char
  separator : isSeparator first = true
  filler : Filler more

def Spacing.text (s : Spacing) : String :=
  String.ofList (s.first :: s.more)

/-- The tokens one after the other, with the given spacings between them. -/
def render (spacing : Nat → Spacing) : List TokenKind → String
  | [] => ""
  | [kind] => kind.text
  | kind :: next :: kinds => kind.text ++ (spacing 0).text ++ render (fun n => spacing (n + 1)) (next :: kinds)

/-- The text of a token is a lexeme of the token. -/
theorem TokenKind.Writable.isLexeme {kind : TokenKind} (h : kind.Writable) : Lexeme kind kind.text.toList := by
  cases kind with
  | number x =>
      obtain ⟨whole, fraction, htext, hsome, hwhole, hfraction, hread⟩ := Number.Plain.text_spelled h
      have hlexeme := Lexeme.number whole fraction hsome hwhole hfraction
      rwa [hread, ← htext] at hlexeme
  | string s =>
      have hlexeme := Lexeme.string s.toList h
      have htext : (TokenKind.string s).text.toList = '"' :: (s.toList ++ ['"']) := by
        simp [TokenKind.text, toString]
      rwa [String.ofList_toList, ← htext] at hlexeme
  | identifier name =>
      obtain ⟨⟨c, hc, hstarts⟩, hcontinues, hreserved⟩ := h
      obtain ⟨cs, hname⟩ := List.head?_eq_some_iff.mp hc
      rw [hname] at hcontinues
      have hlexeme := Lexeme.identifier c cs hstarts hcontinues fun r hr htext =>
        hreserved r hr (String.toList_inj.mp (htext.trans hname.symm))
      rwa [← hname, String.ofList_toList] at hlexeme
  | reserved r => exact .reserved r
  | eof => exact h.elim

/-! ## Lexemes and separators -/

/-- A class of characters that none of the separators is in. -/
theorem isSeparator_of_test {test : Char → Bool} {c : Char} (h : test c = true)
    (htest : [' ', '\t', '\r', '\n'].any test = false) : isSeparator c = false := by
  by_contra hsep
  simp only [isSeparator, Bool.not_eq_false, Bool.or_eq_true, decide_eq_true_eq] at hsep
  rw [List.any_eq_false] at htest
  exact htest c (by grind) h

theorem isSeparator_of_mem_text {r : Reserved} {c : Char} (h : c ∈ r.text.toList) : isSeparator c = false := by
  have hall : r.text.toList.all (! isSeparator ·) = true := by cases r <;> decide
  simpa using List.all_eq_true.mp hall c h

namespace Lexeme

variable {kind : TokenKind} {lexeme behind : List Char}

/-- Separators stand in strings only. -/
theorem quoted_of_separator {c : Char} (h : Lexeme kind lexeme) (hc : c ∈ lexeme) (hsep : isSeparator c = true) :
    ∃ content, '"' ∉ content ∧ lexeme = '"' :: (content ++ ['"']) := by
  have hnone : isSeparator c = false → False := fun hno => by
    rw [hno] at hsep
    cases hsep
  cases h with
  | reserved r => exact (hnone (isSeparator_of_mem_text hc)).elim
  | string content hcontent => exact ⟨content, hcontent, rfl⟩
  | number whole fraction hsome hwhole hfraction =>
      refine (hnone ?_).elim
      unfold Number.spelling at hc
      obtain hc | hc := List.mem_append.mp hc
      · exact isSeparator_of_test (hwhole c hc) rfl
      · split at hc
        · cases hc
        · obtain rfl | hc := List.mem_cons.mp hc
          · rfl
          · exact isSeparator_of_test (hfraction c hc) rfl
  | identifier d ds hd hds hword =>
      refine (hnone (@isSeparator_of_test continuesWord c ?_ rfl)).elim
      obtain rfl | hc := List.mem_cons.mp hc
      · exact Cursor.continuesWord_of_startsWord hd
      · exact hds c hc

/-- What begins neither a number nor a word is a symbol or a string. -/
theorem symbol_or_quoted {c : Char} {cs : List Char} (h : Lexeme kind (c :: cs)) (hdigit : c.isDigit = false)
    (hword : startsWord c = false) :
    (∃ r : Reserved, r.text.toList = c :: cs) ∨ c = '"' ∧ ∃ content, cs = content ++ ['"'] := by
  generalize hlexeme : c :: cs = lexeme at h
  cases h with
  | reserved r => exact .inl ⟨r, rfl⟩
  | string content hcontent =>
      cases hlexeme
      exact .inr ⟨rfl, content, rfl⟩
  | number whole fraction hsome hwhole hfraction =>
      obtain ⟨d, ds, rfl⟩ := List.exists_cons_of_ne_nil hsome
      cases hlexeme
      rw [hwhole c (by simp)] at hdigit
      cases hdigit
  | identifier d ds hd hds _ =>
      cases hlexeme
      rw [hd] at hword
      cases hword

theorem quoted_of_head {cs : List Char} (h : Lexeme kind ('"' :: cs)) : ∃ content, cs = content ++ ['"'] := by
  rcases h.symbol_or_quoted (by decide) (by decide) with ⟨r, hr⟩ | ⟨-, hquoted⟩
  · have hhead : r.text.toList.head? ≠ some '"' := by cases r <;> decide
    rw [hr] at hhead
    exact absurd rfl hhead
  · exact hquoted

theorem eq_nil_of_slash {cs : List Char} (h : Lexeme kind ('/' :: cs)) : cs = [] := by
  rcases h.symbol_or_quoted (by decide) (by decide) with ⟨r, hr⟩ | ⟨hquote, -⟩
  · have hslash : r.text.toList.head? = some '/' → r.text.toList.tail = [] := by cases r <;> decide
    rw [hr] at hslash
    exact hslash rfl
  · cases hquote

/-- In front of a separator, or of the end, every lexeme is the longest. -/
theorem longest_of_separated (h : Lexeme kind lexeme) (hbehind : ∀ c ∈ behind.head?, isSeparator c = true) :
    Longest kind lexeme behind := by
  refine ⟨h, fun kind' longer hlonger hprefix => ?_⟩
  by_contra hlength
  obtain ⟨more, rfl⟩ : lexeme <+: longer :=
    List.prefix_of_prefix_length_le (List.prefix_append _ _) hprefix (Nat.le_of_not_le hlength)
  obtain ⟨rest, rfl⟩ := (List.prefix_append_right_inj lexeme).mp hprefix
  cases more with
  | nil => simp at hlength
  | cons c more =>
      -- the longer lexeme has a separator in it, so it is a string, and the shorter one is a string too
      obtain ⟨content, hcontent, heq⟩ := hlonger.quoted_of_separator (by simp) (hbehind c rfl)
      obtain ⟨d, cs, rfl⟩ := List.exists_cons_of_ne_nil h.ne_nil
      obtain ⟨rfl, htail⟩ := List.cons.inj heq
      obtain ⟨inner, rfl⟩ := h.quoted_of_head
      refine hcontent ?_
      have hinit : (inner ++ ['"'] ++ c :: more).dropLast = (content ++ ['"']).dropLast := congrArg List.dropLast htail
      rw [List.dropLast_concat, List.dropLast_append_of_ne_nil (List.cons_ne_nil _ _)] at hinit
      rw [← hinit]
      simp

/-- A lexeme in front of a separator, or of the end, is neither skipped nor the beginning of a comment. -/
theorem ended_of_separated (h : Lexeme kind lexeme) (hbehind : ∀ c ∈ behind.head?, isSeparator c = true) :
    Gap.Ended (lexeme ++ behind) := by
  obtain ⟨c, cs, rfl⟩ := List.exists_cons_of_ne_nil h.ne_nil
  refine ⟨fun d hd => ?_, fun hcomment => ?_⟩
  · obtain rfl : c = d := Option.some.inj hd
    by_contra hsep
    obtain ⟨content, -, heq⟩ := h.quoted_of_separator List.mem_cons_self (Bool.eq_true_of_not_eq_false hsep)
    cases heq
    exact hsep rfl
  · obtain ⟨rest, hrest⟩ := hcomment
    obtain ⟨rfl, htail⟩ := List.cons.inj hrest
    obtain rfl := h.eq_nil_of_slash
    have hslash : behind = '/' :: rest := htail.symm
    rw [hslash] at hbehind
    cases hbehind '/' rfl

end Lexeme

/-! ## Scanning what is written -/

theorem Filler.gap {cs : List Char} (h : Filler cs) (behind : List Char) : Gap behind cs := by
  induction h with
  | nil => exact .nil
  | separator hc h ih => exact .separator hc ih
  | comment htext h ih => exact .comment htext (by simp) (.separator rfl ih)

theorem Spacing.gap (s : Spacing) (behind : List Char) : Gap behind s.text.toList := by
  rw [Spacing.text, String.toList_ofList]
  exact .separator s.separator (s.filler.gap behind)

theorem Spacing.head (s : Spacing) (behind : List Char) :
    ∀ c ∈ (s.text.toList ++ behind).head?, isSeparator c = true := by
  intro c hc
  rw [Spacing.text, String.toList_ofList] at hc
  obtain rfl : s.first = c := Option.some.inj hc
  exact s.separator

/-- Where a token is written, it is taken. -/
theorem TokenKind.Writable.consumes {kind : TokenKind} (h : kind.Writable) {gap behind rest : List Char}
    {ts : List Token} {p p' : Place} (hgap : ∀ behind, Gap behind gap)
    (hbehind : ∀ c ∈ behind.head?, isSeparator c = true)
    (hrest : Consumes (p.after (gap ++ kind.text.toList)) behind ts p' rest) :
    ∃ t : Token, t.kind = kind ∧ Consumes p (gap ++ (kind.text.toList ++ behind)) (t :: ts) p' rest := by
  rw [← List.append_assoc]
  exact ⟨_, rfl, .cons (hgap _) (h.isLexeme.ended_of_separated hbehind) (h.isLexeme.longest_of_separated hbehind) hrest⟩

/-- What is written is taken to its end. -/
theorem consumes_render {kinds : List TokenKind} (h : ∀ kind ∈ kinds, kind.Writable) (hsome : kinds ≠ [])
    (spacing : Nat → Spacing) {gap : List Char} (hgap : ∀ behind, Gap behind gap) (p : Place) :
    ∃ ts p', Consumes p (gap ++ (render spacing kinds).toList) ts p' [] ∧ ts.map Token.kind = kinds := by
  induction kinds generalizing spacing gap p with
  | nil => exact absurd rfl hsome
  | cons kind kinds ih =>
      have hkind := h kind List.mem_cons_self
      cases kinds with
      | nil =>
          obtain ⟨t, rfl, hconsumes⟩ := hkind.consumes hgap (by simp) (.nil (p.after (gap ++ kind.text.toList)) [])
          rw [List.append_nil] at hconsumes
          exact ⟨[t], _, hconsumes, rfl⟩
      | cons next kinds =>
          obtain ⟨ts, p', hconsumes, hkinds⟩ := ih (fun k hk => h k (List.mem_cons_of_mem _ hk)) (List.cons_ne_nil _ _)
            (fun n => spacing (n + 1)) (spacing 0).gap (p.after (gap ++ kind.text.toList))
          obtain ⟨t, rfl, hconsumes⟩ := hkind.consumes hgap ((spacing 0).head _) hconsumes
          refine ⟨t :: ts, p', ?_, by rw [List.map_cons, hkinds]⟩
          rw [render, String.toList_append, String.toList_append, List.append_assoc]
          exact hconsumes

/-- **What is written is scanned as the same tokens**, whatever white space and comments stand between them. -/
theorem scan_render (spacing : Nat → Spacing) (kinds : List TokenKind) (h : ∀ kind ∈ kinds, kind.Writable) :
    (scan (render spacing kinds)).map (List.map Token.kind) = .ok (kinds ++ [.eof]) := by
  obtain ⟨ts, p, hconsumes, rfl⟩ :
      ∃ ts p, Consumes {} (render spacing kinds).toList ts p [] ∧ ts.map Token.kind = kinds := by
    by_cases hsome : kinds = []
    · subst hsome
      exact ⟨[], {}, .nil _ _, rfl⟩
    · exact consumes_render h hsome spacing (fun _ => .nil) {}
  rw [hconsumes.scan_eq (.eof .nil)]
  simp [Except.map]

def Spacing.remark : Spacing where
  first := '\n'
  more := "// \"\n\t".toList
  separator := rfl
  filler := @Filler.comment " \"".toList ['\t'] (by decide) (.separator rfl .nil)

/-- Tokens that would be read as others without a spacing, and the least positive number. -/
def adjoining : List TokenKind :=
  [.number ⟨1⟩, .number ⟨0x3FB999999999999A⟩, .reserved .dot, .number ⟨0⟩, .identifier "été",
    .reserved .class, .identifier "s", .reserved .slash, .reserved .slash, .string "// été", .reserved .bang,
    .reserved .equal, .reserved .equalEqual]

theorem writable_of_mem_adjoining : ∀ kind ∈ adjoining, kind.Writable := by
  have hplain : Number.Plain ⟨1⟩ ∧ Number.Plain ⟨0x3FB999999999999A⟩ ∧ Number.Plain ⟨0⟩ := by
    decide +kernel
  have hword : ∀ c ∈ ['t', 'é'], continuesWord c = true :=
    List.forall_mem_cons.mpr ⟨rfl, List.forall_mem_singleton.mpr rfl⟩
  have hother : IsIdentifier "été" := ⟨⟨'é', rfl, by decide⟩, hword, by decide⟩
  have hletter : IsIdentifier "s" := ⟨⟨'s', rfl, by decide⟩, nofun, by decide⟩
  have hstring : '"' ∉ "// été".toList := by decide
  simp only [adjoining, List.forall_mem_cons, TokenKind.Writable, hplain, hother, hletter, hstring, not_false_eq_true,
    and_self, List.not_mem_nil, false_implies, implies_true]

theorem scan_render_adjoining :
    (∀ kind ∈ adjoining, kind.Writable) ∧
      (scan (render (fun _ => .remark) adjoining)).map (List.map Token.kind) = .ok (adjoining ++ [.eof]) :=
  ⟨writable_of_mem_adjoining, scan_render _ adjoining writable_of_mem_adjoining⟩

end Lox
