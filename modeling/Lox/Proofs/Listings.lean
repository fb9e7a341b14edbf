import Lox.Code.Listing
import Lox.Proofs.ControlFlow
import Lox.Proofs.Truncation

/-!
# What is listed

A listing is one line for each constant that stands at the beginning of the code and one for each instruction behind
them.

* `ConstantEntry.readAll` : the constants; `Execution.readAll_of_loadConstants` says that the machine loads the same;
* `Decoded.line` : the line of an instruction;
* `Listing.Lists d line x` : `x` lists what `d` reads; `Listing.ofCode_eq_ok` says this of whole listings;
* `Compiled.Carries.listed` : compiled programs have a listing.
-/

namespace Lox

open ConstantEntry (SpellAll Numbered)

/-! ## What is read -/

theorem Reader.skip_skip (r : Reader) (n k : Nat) : (r.skip n).skip k = r.skip (n + k) := by
  rw [skip, skip, skip, Nat.add_assoc]

namespace ConstantEntry

/-- Reads constants as long as there are any, at most `n`. -/
def readAll : Nat → Decoder (List ConstantEntry)
  | 0 => return []
  | n + 1 => do
    if (← get).peek? == some Constant.marker then
      let e ← read
      return e :: (← readAll n)
    else
      return []

variable {n : Nat} {r r' : Reader} {es : List ConstantEntry}

theorem readAll_of_no_marker (h : ¬(r.peek? == some Constant.marker) = true) : readAll (n + 1) r = .ok [] r := by
  rw [readAll, apply_bind_of_ok (apply_get r), if_neg h]
  rfl

theorem readAll_of_marker (h : (r.peek? == some Constant.marker) = true) :
    readAll (n + 1) r = .ok es r' ↔
      ∃ e rest r₁, read r = .ok e r₁ ∧ readAll n r₁ = .ok rest r' ∧ es = e :: rest := by
  rw [readAll, apply_bind_of_ok (apply_get r), if_pos h]
  constructor
  · intro hread
    obtain ⟨e, r₁, he, hread⟩ := apply_bind_eq_ok.mp hread
    obtain ⟨rest, r₂, hrest, hread⟩ := apply_bind_eq_ok.mp hread
    cases hread
    exact ⟨e, rest, r₁, he, hrest, rfl⟩
  · rintro ⟨e, rest, r₁, he, hrest, rfl⟩
    rw [apply_bind_of_ok he, apply_bind_of_ok hrest]
    rfl

/-- What is read are the entries that stand before the reader. -/
theorem readAll_spelt (h : readAll n r = .ok es r') :
    ∃ bytes behind, r.rest = bytes ++ behind ∧ SpellAll es bytes ∧ r' = r.skip bytes.length := by
  induction n generalizing r es with
  | zero =>
      cases h
      exact ⟨[], _, rfl, .nil, rfl⟩
  | succ n ih =>
      by_cases hmarker : (r.peek? == some Constant.marker) = true
      · obtain ⟨e, rest, r₁, he, hrest, rfl⟩ := (readAll_of_marker hmarker).mp h
        obtain ⟨bytes, behind, hbytes, hspells, rfl⟩ := read_eq_ok he (by simpa using hmarker)
        obtain ⟨more, behind', hmore, hall, rfl⟩ := ih hrest
        rw [Reader.rest_skip bytes hbytes] at hmore
        refine ⟨bytes ++ more, behind', by rw [hbytes, hmore, List.append_assoc], .cons hspells hall, ?_⟩
        rw [List.length_append, Reader.skip_skip]
      · rw [readAll_of_no_marker hmarker] at h
        cases h
        exact ⟨[], _, rfl, .nil, rfl⟩

end ConstantEntry

namespace Execution

/-- The machine loads the constants that are read, and they are numbered as they stand. -/
theorem readAll_of_loadConstants {n : Nat} {m m' : Machine} (h : loadConstants n m = .ok () m') :
    ∃ es r, ConstantEntry.readAll n m.reader = .ok es r ∧ Numbered m.constants.size es ∧
      m' = { m with reader := r, constants := m.constants ++ (es.map (·.constant.value)).toArray } := by
  induction n generalizing m with
  | zero =>
      cases h
      exact ⟨[], _, rfl, rfl, by simp⟩
  | succ n ih =>
      rw [loadConstants, apply_bind_of_ok (apply_get m)] at h
      by_cases hmarker : (m.reader.peek? == some Constant.marker) = true
      · rw [if_pos hmarker] at h
        obtain ⟨e, m₁, he, h⟩ := apply_bind_eq_ok.mp h
        obtain ⟨r, hread, rfl⟩ := decode_eq_ok he
        rw [apply_bind_of_ok (apply_get _)] at h
        split_ifs at h with hindex
        · rw [apply_bind_of_ok (apply_modify _ _)] at h
          obtain ⟨es, r', hes, hnumbered, rfl⟩ := ih h
          rw [Array.size_push] at hnumbered
          refine ⟨e :: es, r', (ConstantEntry.readAll_of_marker hmarker).mpr ⟨e, es, r, hread, hes, rfl⟩,
            ConstantEntry.numbered_cons.mpr ⟨hindex, hnumbered⟩, by simp⟩
        · cases h
      · rw [if_neg hmarker] at h
        cases h
        exact ⟨[], _, ConstantEntry.readAll_of_no_marker hmarker, rfl, by simp⟩

end Execution

def Decoded.bytes (i : Decoded) : List UInt8 :=
  i.opcode.toByte :: i.operand

namespace Reader

variable {r r' : Reader} {b : UInt8} {bs : List UInt8} {n : Nat}

theorem rest_eq_cons (h : r.code[r.offset]? = some b) : r.rest = b :: (r.skip 1).rest := by
  rw [← Array.getElem?_toList] at h
  rw [rest, List.drop_eq_getElem?_toList_append, h]
  rfl

theorem rest_eq_nil (h : r.atEnd = true) : r.rest = [] := by
  rw [rest, List.drop_eq_nil_iff, Array.length_toList]
  exact of_decide_eq_true h

theorem bytes_eq_ok (h : bytes n r = .ok bs r') :
    bs.length = n ∧ r.rest = bs ++ r'.rest ∧ r' = r.skip n := by
  induction n generalizing r bs with
  | zero =>
      cases h
      exact ⟨rfl, rfl, rfl⟩
  | succ n ih =>
      obtain ⟨b, r₁, hb, h⟩ := apply_bind_eq_ok.mp h
      obtain ⟨cs, r₂, hcs, h⟩ := apply_bind_eq_ok.mp h
      cases h
      obtain ⟨behind, hrest, rfl⟩ := byte_eq_ok hb
      obtain ⟨rfl, hrest', rfl⟩ := ih hcs
      have hbehind : (r.skip 1).rest = behind := rest_skip [b] hrest
      refine ⟨rfl, by rw [hrest, ← hbehind, hrest', List.cons_append], ?_⟩
      rw [skip_skip, Nat.add_comm]

/-- An instruction is read where its bytes stand. -/
theorem decoded_eq_ok {i : Decoded} (h : decoded r = .ok i r') :
    i.operand.length = i.opcode.operandSize ∧ r.rest = i.bytes ++ r'.rest ∧ r' = r.skip i.bytes.length := by
  unfold decoded at h
  rw [apply_bind_of_ok (apply_get r)] at h
  obtain ⟨op, r₁, hop, h⟩ := apply_bind_eq_ok.mp h
  obtain ⟨bs, r₂, hbs, h⟩ := apply_bind_eq_ok.mp h
  cases h
  obtain ⟨hcode, rfl⟩ := opcode_eq_ok hop
  obtain ⟨hlength, hrest, rfl⟩ := bytes_eq_ok hbs
  refine ⟨hlength, by rw [rest_eq_cons hcode, hrest, Decoded.bytes, List.cons_append], ?_⟩
  rw [skip_skip, Decoded.bytes, List.length_cons, hlength, Nat.add_comm]

/-- A sweep that is long enough reads everything before the reader, instruction after instruction. -/
theorem sweep_eq_ok {is : List Decoded} (h : sweep n r = .ok is r') (hn : r.rest.length ≤ n) :
    (∀ i ∈ is, i.operand.length = i.opcode.operandSize) ∧ r.rest = is.flatMap Decoded.bytes := by
  induction n generalizing r is with
  | zero =>
      cases h
      exact ⟨List.forall_mem_nil _, List.length_eq_zero_iff.mp (Nat.le_zero.mp hn)⟩
  | succ n ih =>
      rw [sweep, apply_bind_of_ok (apply_get r)] at h
      split_ifs at h with hend
      · cases h
        exact ⟨List.forall_mem_nil _, rest_eq_nil hend⟩
      · obtain ⟨i, r₁, hi, h⟩ := apply_bind_eq_ok.mp h
        obtain ⟨is, r₂, his, h⟩ := apply_bind_eq_ok.mp h
        cases h
        obtain ⟨hlength, hrest, -⟩ := decoded_eq_ok hi
        have hle : r₁.rest.length ≤ n := by
          rw [hrest, List.length_append, Decoded.bytes, List.length_cons] at hn
          omega
        obtain ⟨hlengths, hrest₁⟩ := ih his hle
        exact ⟨List.forall_mem_cons.mpr ⟨hlength, hlengths⟩, by rw [hrest, hrest₁, List.flatMap_cons]⟩

theorem word_eq_ok {w : Nat} : word r = .ok w r' ↔ ∃ bs, bytes 2 r = .ok bs r' ∧ littleEndian bs = w := by
  constructor
  · intro h
    unfold word at h
    split at h
    · rename_i low high hlow hhigh
      cases h
      exact ⟨[low, high], bytes_apply [low, high] (by grind), rfl⟩
    · cases h
  · rintro ⟨bs, hbs, rfl⟩
    obtain ⟨hlength, hrest, rfl⟩ := bytes_eq_ok hbs
    obtain ⟨low, high, rfl⟩ := List.length_eq_two.mp hlength
    have hhigh : (r.skip 1).code[(r.skip 1).offset]? = some high := getElem?_code (rest_skip [low] hrest)
    change r.code[r.offset + 1]? = some high at hhigh
    rw [word, getElem?_code hrest, hhigh]
    rfl

end Reader

/-! ## What is listed of it -/

/-- An operand of the given form as listings show it. -/
def OperandForm.text : OperandForm → List UInt8 → String
  | .none, _ => ""
  | .byte, bytes => s!" {littleEndian bytes}"
  | .word, bytes => s!" {littleEndian bytes}"
  | .signedWord, bytes => s!" {Reader.signed (littleEndian bytes)}"

def Decoded.line (i : Decoded) : String :=
  i.opcode.mnemonic ++ i.opcode.form.text i.operand ++ "\n"

namespace Listing

variable {α : Type} {l l' : Listing} {n : Nat}

theorem decode_eq_ok {d : Decoder α} {a : α} :
    decode d l = .ok a l' ↔ d l.reader = .ok a l'.reader ∧ l'.text = l.text := by
  unfold decode
  obtain ⟨r', text'⟩ := l'
  cases d l.reader with
  | ok b r =>
      simp only [EStateM.Result.ok.injEq, Listing.mk.injEq]
      tauto
  | error f r => simp

/-- `x` succeeds as `d` does, and its text is the line of what `d` reads. -/
def Lists (d : Decoder α) (line : α → String) (x : Writer Unit) : Prop :=
  ∀ l l', x l = .ok () l' ↔ ∃ a, d l.reader = .ok a l'.reader ∧ l'.text = l.text ++ line a

section Loops

variable {d : Decoder α} {line : α → String} {x : Writer Unit} {ds ds' : Decoder (List α)} {xs xs' : Writer Unit}

def lines (line : α → String) (as : List α) : String :=
  String.join (as.map line)

theorem lines_cons (line : α → String) (a : α) (as : List α) : lines line (a :: as) = line a ++ lines line as := by
  rw [lines, List.map_cons, String.join_cons, lines]

theorem Lists.nil (line : α → String) : Lists (pure []) (lines line) (pure ()) := by
  intro l l'
  constructor
  · rintro ⟨⟩
    exact ⟨[], rfl, String.append_empty.symm⟩
  · rintro ⟨as, has, htext⟩
    obtain ⟨rfl, hreader⟩ := EStateM.Result.ok.inj has
    obtain ⟨r, text⟩ := l
    obtain ⟨r', text'⟩ := l'
    cases hreader
    cases htext.trans String.append_empty
    rfl

theorem Lists.cons (hx : Lists d line x) (hxs : Lists ds (lines line) xs) :
    Lists (do let a ← d; let as ← ds; return a :: as) (lines line) (do x; xs) := by
  intro l l'
  constructor
  · intro h
    obtain ⟨_, l₁, h₁, h⟩ := apply_bind_eq_ok.mp h
    obtain ⟨a, ha, htext₁⟩ := (hx l l₁).mp h₁
    obtain ⟨as, has, htext⟩ := (hxs l₁ l').mp h
    refine ⟨a :: as, ?_, by rw [htext, htext₁, lines_cons, String.append_assoc]⟩
    rw [apply_bind_of_ok ha, apply_bind_of_ok has]
    rfl
  · rintro ⟨_, h, htext⟩
    obtain ⟨a, r₁, ha, h⟩ := apply_bind_eq_ok.mp h
    obtain ⟨as, r₂, has, h⟩ := apply_bind_eq_ok.mp h
    obtain ⟨rfl, rfl⟩ := EStateM.Result.ok.inj h
    rw [lines_cons, ← String.append_assoc] at htext
    have h₁ : x l = .ok () ⟨r₁, l.text ++ line a⟩ := (hx _ _).mpr ⟨a, ha, rfl⟩
    rw [apply_bind_of_ok h₁]
    exact (hxs _ _).mpr ⟨as, has, htext⟩

theorem Lists.ite (go : Reader → Bool) (h : Lists ds (lines line) xs) (h' : Lists ds' (lines line) xs') :
    Lists (do if go (← get) then ds else ds') (lines line) (do if go (← get).reader then xs else xs') := by
  intro l l'
  rw [apply_bind_of_ok (apply_get l), apply_bind_of_ok (apply_get l.reader)]
  split_ifs
  · exact h l l'
  · exact h' l l'

end Loops

theorem constant_lists : Lists ConstantEntry.read constantLine constant := by
  intro l l'
  constructor
  · intro h
    obtain ⟨e, l₁, he, h⟩ := apply_bind_eq_ok.mp h
    obtain ⟨hread, htext⟩ := decode_eq_ok.mp he
    cases h
    exact ⟨e, hread, by rw [← htext]⟩
  · rintro ⟨e, hread, htext⟩
    have hdecode : decode ConstantEntry.read l = .ok e ⟨l'.reader, l.text⟩ := decode_eq_ok.mpr ⟨hread, rfl⟩
    unfold constant
    rw [apply_bind_of_ok hdecode]
    exact congrArg (EStateM.Result.ok ()) (congrArg (Listing.mk l'.reader) htext.symm)

theorem constants_lists (n : Nat) : Lists (ConstantEntry.readAll n) (lines constantLine) (constants n) := by
  induction n with
  | zero => exact .nil constantLine
  | succ n ih => exact .ite (fun r => r.peek? == some Constant.marker) (.cons constant_lists ih) (.nil constantLine)

/-- Showing a word is showing what its bytes spell. -/
theorem word_lists {r r' : Reader} {text : String} (f : Nat → String) :
    (do let n ← Reader.word; return f n : Decoder String) r = .ok text r' ↔
      ∃ bs, Reader.bytes 2 r = .ok bs r' ∧ f (littleEndian bs) = text := by
  constructor
  · intro h
    obtain ⟨n, r₁, hn, h⟩ := apply_bind_eq_ok.mp h
    cases h
    obtain ⟨bs, hbs, rfl⟩ := Reader.word_eq_ok.mp hn
    exact ⟨bs, hbs, rfl⟩
  · rintro ⟨bs, hbs, rfl⟩
    exact apply_bind_of_ok (Reader.word_eq_ok.mpr ⟨bs, hbs, rfl⟩)

theorem operand_eq_ok {form : OperandForm} {r r' : Reader} {text : String} :
    operand form r = .ok text r' ↔ ∃ bs, Reader.bytes form.size r = .ok bs r' ∧ form.text bs = text := by
  cases form with
  | none =>
      constructor
      · intro h
        cases h
        exact ⟨[], rfl, rfl⟩
      · rintro ⟨bs, hbs, rfl⟩
        cases hbs
        rfl
  | byte =>
      constructor
      · intro h
        obtain ⟨b, r₁, hb, h⟩ := apply_bind_eq_ok.mp h
        cases h
        exact ⟨[b], apply_bind_of_ok hb, rfl⟩
      · rintro ⟨bs, hbs, rfl⟩
        obtain ⟨b, r₁, hb, hbs⟩ := apply_bind_eq_ok.mp hbs
        cases hbs
        exact apply_bind_of_ok hb
  | word => exact word_lists fun n => s!" {n}"
  | signedWord =>
      have hshow : operand .signedWord = (do let n ← Reader.word; return s!" {Reader.signed n}") := bind_assoc ..
      rw [hshow]
      exact word_lists fun n => s!" {Reader.signed n}"

/-- An instruction is listed as its mnemonic and its operand. -/
theorem instruction_eq_ok : instruction l = .ok () l' ↔
    ∃ op r text, Reader.opcode l.reader = .ok op r ∧ operand op.form r = .ok text l'.reader ∧
      l'.text = l.text ++ op.mnemonic ++ (text ++ "\n") := by
  constructor
  · intro h
    obtain ⟨op, l₁, hop, h⟩ := apply_bind_eq_ok.mp h
    obtain ⟨hopcode, htext₁⟩ := decode_eq_ok.mp hop
    obtain ⟨_, l₂, hl₂, h⟩ := apply_bind_eq_ok.mp h
    cases hl₂
    obtain ⟨text, l₃, hl₃, h⟩ := apply_bind_eq_ok.mp h
    obtain ⟨hoperand, htext₃⟩ := decode_eq_ok.mp hl₃
    cases h
    exact ⟨op, l₁.reader, text, hopcode, hoperand, by rw [← htext₁]; exact congrArg (· ++ (text ++ "\n")) htext₃⟩
  · rintro ⟨op, r, text, hop, hoperand, htext⟩
    have hopcode : decode Reader.opcode l = .ok op ⟨r, l.text⟩ := decode_eq_ok.mpr ⟨hop, rfl⟩
    have hoperand : decode (operand op.form) ⟨r, l.text ++ op.mnemonic⟩ = .ok text ⟨l'.reader, l.text ++ op.mnemonic⟩ :=
      decode_eq_ok.mpr ⟨hoperand, rfl⟩
    unfold instruction append
    rw [apply_bind_of_ok hopcode, apply_bind_of_ok (apply_modify _ _), apply_bind_of_ok hoperand, apply_modify]
    exact congrArg (EStateM.Result.ok ()) (congrArg (Listing.mk l'.reader) htext.symm)

theorem instruction_lists : Lists Reader.decoded Decoded.line instruction := by
  intro l l'
  rw [instruction_eq_ok]
  constructor
  · rintro ⟨op, r, text, hop, hoperand, htext⟩
    obtain ⟨bs, hbs, rfl⟩ := operand_eq_ok.mp hoperand
    rw [← op.operandSize_eq] at hbs
    refine ⟨⟨l.reader.offset, op, bs⟩, ?_, ?_⟩
    · unfold Reader.decoded
      rw [apply_bind_of_ok (apply_get _), apply_bind_of_ok hop]
      exact apply_bind_of_ok hbs
    · rw [htext, Decoded.line]
      simp only [String.append_assoc]
  · rintro ⟨i, hi, htext⟩
    unfold Reader.decoded at hi
    rw [apply_bind_of_ok (apply_get _)] at hi
    obtain ⟨op, r, hop, hi⟩ := apply_bind_eq_ok.mp hi
    obtain ⟨bs, r', hbs, hi⟩ := apply_bind_eq_ok.mp hi
    cases hi
    rw [op.operandSize_eq] at hbs
    refine ⟨op, r, op.form.text bs, hop, operand_eq_ok.mpr ⟨bs, hbs, rfl⟩, ?_⟩
    rw [htext, Decoded.line]
    simp only [String.append_assoc]

theorem instructions_lists (n : Nat) : Lists (Reader.sweep n) (lines Decoded.line) (instructions n) := by
  induction n with
  | zero => exact .nil Decoded.line
  | succ n ih =>
      -- the two loops ask opposite questions
      have hloop : instructions (n + 1) =
          (do if (← get).reader.atEnd then return else { instruction; instructions n }) := by
        funext l
        rw [instructions, apply_bind_of_ok (apply_get l), apply_bind_of_ok (apply_get l)]
        cases l.reader.atEnd <;> rfl
      rw [hloop]
      exact .ite Reader.atEnd (.nil Decoded.line) (.cons instruction_lists ih)

variable {code : Array UInt8} {text : String} {f : Fault}

def whole (code : Array UInt8) : Writer Unit := do
  constants code.size
  instructions code.size

theorem ofCode_of_ok {l : Listing} (h : whole code ⟨⟨code, 0⟩, ""⟩ = .ok () l) : ofCode code = .ok l.text := by
  unfold whole at h
  unfold ofCode
  dsimp only
  rw [h]

theorem ofCode_of_error {l : Listing} (h : whole code ⟨⟨code, 0⟩, ""⟩ = .error f l) : ofCode code = .error f := by
  unfold whole at h
  unfold ofCode
  dsimp only
  rw [h]

theorem ofCode_eq_ok_iff : ofCode code = .ok text ↔ ∃ l, whole code ⟨⟨code, 0⟩, ""⟩ = .ok () l ∧ l.text = text := by
  cases h : whole code ⟨⟨code, 0⟩, ""⟩ with
  | ok _ l => simp [ofCode_of_ok h]
  | error f l => simp [ofCode_of_error h]

theorem ofCode_eq_error_iff : ofCode code = .error f ↔ ∃ l, whole code ⟨⟨code, 0⟩, ""⟩ = .error f l := by
  cases h : whole code ⟨⟨code, 0⟩, ""⟩ with
  | ok _ l => simp [ofCode_of_ok h]
  | error f' l => simp [ofCode_of_error h]

/-- A listing shows the constants that are read from the beginning of the code and the instructions behind them. -/
theorem ofCode_eq_ok :
    ofCode code = .ok text ↔
      ∃ es r is r', ConstantEntry.readAll code.size ⟨code, 0⟩ = .ok es r ∧ Reader.sweep code.size r = .ok is r' ∧
        text = lines constantLine es ++ lines Decoded.line is := by
  rw [ofCode_eq_ok_iff]
  constructor
  · rintro ⟨l, hl, rfl⟩
    obtain ⟨_, l₁, h₁, hl⟩ := apply_bind_eq_ok.mp hl
    obtain ⟨es, hes, htext₁⟩ := (constants_lists _ _ _).mp h₁
    obtain ⟨is, his, htext⟩ := (instructions_lists _ _ _).mp hl
    exact ⟨es, _, is, _, hes, his, by rw [htext, htext₁, String.empty_append]⟩
  · rintro ⟨es, r, is, r', hes, his, rfl⟩
    have hconstants : constants code.size ⟨⟨code, 0⟩, ""⟩ = .ok () ⟨r, lines constantLine es⟩ :=
      (constants_lists _ _ _).mpr ⟨es, hes, String.empty_append.symm⟩
    have hinstructions : instructions code.size ⟨r, lines constantLine es⟩ =
        .ok () ⟨r', lines constantLine es ++ lines Decoded.line is⟩ :=
      (instructions_lists _ _ _).mpr ⟨is, his, rfl⟩
    exact ⟨_, (apply_bind_of_ok hconstants).trans hinstructions, rfl⟩

end Listing

/-- Compiled programs have a listing. -/
theorem Compiled.Carries.listed {out : Compiled} {a : Assembly} (h : out.Carries a) :
    ∃ text, Listing.ofCode out.code = .ok text := by
  have hload := h.load {}
  unfold Machine.load at hload
  rw [apply_bind_of_ok (apply_modify _ _)] at hload
  obtain ⟨es, r, hes, -, hloaded⟩ := Execution.readAll_of_loadConstants hload
  have hr : r = ⟨out.code, out.start⟩ := (congrArg Machine.reader hloaded).symm
  have hlength : a.length ≤ out.code.size := by
    have := a.length_le_size
    have := h.size_code
    omega
  exact ⟨_, Listing.ofCode_eq_ok.mpr ⟨es, r, _, _, hes, hr ▸ Reader.sweep_apply h.holds h.size_code.symm hlength, rfl⟩⟩

end Lox
