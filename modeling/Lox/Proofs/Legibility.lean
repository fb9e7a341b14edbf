import Std.Data.String.ToInt
import Lox.Proofs.Listings
import Lox.Proofs.NumberText

/-!
# Listings identify code

Code can be told from its listing if each of its constants stands on one line of its own and is a number or a text.

* `IsLine`, `join_inj` : text is split into lines in one way only;
* `Listing.constantLine_inj`, `Decoded.line_inj` : a line says which constant or instruction it shows;
* `ConstantEntry.Spells.eq_bytes` : an entry has only one spelling;
* `Listing.ofCode_inj` : code with the same listing is the same.
-/

namespace Lox

open ConstantEntry (SpellAll)

/-! ## Lines -/

/-- Two rows are cut at the first element that is not in a class. -/
theorem append_cons_inj {α : Type} {p : α → Prop} {as bs cs ds : List α} {x y : α} (has : ∀ a ∈ as, p a)
    (hbs : ∀ b ∈ bs, p b) (hx : ¬p x) (hy : ¬p y) (h : as ++ x :: cs = bs ++ y :: ds) :
    as = bs ∧ x = y ∧ cs = ds := by
  induction as generalizing bs with
  | nil =>
      cases bs with
      | nil => exact ⟨rfl, List.cons.inj h⟩
      | cons b bs =>
          obtain ⟨rfl, -⟩ := List.cons.inj h
          exact absurd (hbs x List.mem_cons_self) hx
  | cons a as ih =>
      cases bs with
      | nil =>
          obtain ⟨rfl, -⟩ := List.cons.inj h
          exact absurd (has a List.mem_cons_self) hy
      | cons b bs =>
          obtain ⟨rfl, htail⟩ := List.cons.inj h
          obtain ⟨rfl, hrest⟩ := ih (fun a ha => has a (.tail _ ha)) (fun b hb => hbs b (.tail _ hb)) htail
          exact ⟨rfl, hrest⟩

/-- A text that ends with its only newline. -/
def IsLine (s : String) : Prop :=
  ∃ cs, s.toList = cs ++ ['\n'] ∧ ∀ c ∈ cs, c ≠ '\n'

/-- Text is split into lines in one way only. -/
theorem join_inj {ss ts : List String} (hss : ∀ s ∈ ss, IsLine s) (hts : ∀ t ∈ ts, IsLine t)
    (h : String.join ss = String.join ts) : ss = ts := by
  replace h := congrArg String.toList h
  rw [String.toList_join, String.toList_join] at h
  induction ss generalizing ts with
  | nil =>
      cases ts with
      | nil => rfl
      | cons t ts =>
          obtain ⟨cs, ht, -⟩ := hts t List.mem_cons_self
          simp [ht] at h
  | cons s ss ih =>
      obtain ⟨cs, hs, hcs⟩ := hss s List.mem_cons_self
      cases ts with
      | nil => simp [hs] at h
      | cons t ts =>
          obtain ⟨ds, ht, hds⟩ := hts t List.mem_cons_self
          rw [List.flatMap_cons, List.flatMap_cons, hs, ht, List.append_assoc, List.append_assoc] at h
          obtain ⟨rfl, -, hrest⟩ := append_cons_inj hcs hds (by simp) (by simp) h
          rw [String.toList_inj.mp (hs.trans ht.symm), ih (fun s hs => hss s (.tail _ hs))
            (fun t ht => hts t (.tail _ ht)) hrest]

/-! ## Words -/

theorem littleEndian_lt (bs : List UInt8) : littleEndian bs < 256 ^ bs.length := by
  induction bs with
  | nil => exact Nat.one_pos
  | cons b bs ih =>
      have hb : b.toNat < 256 := b.toNat_lt
      rw [littleEndian, List.length_cons, pow_succ]
      omega

theorem toLittleEndian_littleEndian (bs : List UInt8) : toLittleEndian bs.length (littleEndian bs) = bs := by
  induction bs with
  | nil => rfl
  | cons b bs ih =>
      have hb : b.toNat < 256 := b.toNat_lt
      have hlow : UInt8.ofNat (b.toNat + 256 * littleEndian bs) = b := by
        rw [← UInt8.toNat_inj, UInt8.toNat_ofNat']
        omega
      have hhigh : (b.toNat + 256 * littleEndian bs) / 256 = littleEndian bs := by omega
      rw [littleEndian, List.length_cons, toLittleEndian, hlow, hhigh, ih]

theorem littleEndian_inj {bs cs : List UInt8} (hlength : bs.length = cs.length)
    (h : littleEndian bs = littleEndian cs) : bs = cs := by
  rw [← toLittleEndian_littleEndian bs, hlength, h, toLittleEndian_littleEndian]

theorem Reader.signed_inj {m n : Nat} (hm : m < 0x10000) (hn : n < 0x10000) (h : signed m = signed n) : m = n := by
  unfold signed at h
  split_ifs at h <;> omega

/-! ## Lines of constants -/

/-- A constant that a listing shows on one line and tells from all others. -/
def Constant.Legible : Constant → Prop
  | .number x => x.isNaN = false
  | .string s => '\n' ∉ s.toList

def Constant.letter : Constant → Char
  | .number _ => 'd'
  | .string _ => 's'

def Constant.shown : Constant → List Char
  | .number x => (Number.text x).toList
  | .string s => '"' :: (s.toList ++ ['"'])

theorem Constant.letter_eq (k : Constant) : k.letter = 'd' ∨ k.letter = 's' := by
  cases k with
  | number x => exact .inl rfl
  | string s => exact .inr rfl

theorem Constant.letter_isDigit (k : Constant) : ¬k.letter.isDigit = true := by
  rcases k.letter_eq with h | h <;> rw [h] <;> decide

theorem Constant.shown_inj {k k' : Constant} (hk : k.Legible) (hk' : k'.Legible) (hletter : k.letter = k'.letter)
    (h : k.shown = k'.shown) : k = k' := by
  cases k with
  | number x =>
      cases k' with
      | number y => exact congrArg number (Number.text_injective hk hk' (String.toList_inj.mp h))
      | string s => exact absurd hletter (by decide : 'd' ≠ 's')
  | string s =>
      cases k' with
      | number y => exact absurd hletter (by decide : 's' ≠ 'd')
      | string t =>
          obtain ⟨-, h⟩ := List.cons.inj h
          exact congrArg string (String.toList_inj.mp (List.append_cancel_right h))

theorem Constant.newline_notMem_shown {k : Constant} (hk : k.Legible) : '\n' ∉ k.shown := by
  cases k with
  | number x => exact Number.newline_notMem_text hk
  | string s =>
      have hs : '\n' ∉ s.toList := hk
      simp [shown, hs]

namespace Listing

theorem toList_constantLine (e : ConstantEntry) :
    (constantLine e).toList = '@' :: (Nat.toDigits 10 e.index.toNat ++ e.constant.letter :: ' ' :: e.constant.shown) ++
      ['\n'] := by
  obtain ⟨index, constant⟩ := e
  cases constant <;> simp [constantLine, Constant.letter, Constant.shown, toString]

/-- A line says which constant it shows. -/
theorem constantLine_inj {e e' : ConstantEntry} (he : e.constant.Legible) (he' : e'.constant.Legible)
    (h : constantLine e = constantLine e') : e = e' := by
  have htext := congrArg String.toList h
  rw [toList_constantLine, toList_constantLine] at htext
  obtain ⟨-, htext⟩ := List.cons.inj (List.append_cancel_right htext)
  obtain ⟨hindex, hletter, htext⟩ := append_cons_inj (p := fun c => c.isDigit = true)
    (fun _ => Decimal.isDigit_of_mem_toDigits) (fun _ => Decimal.isDigit_of_mem_toDigits)
    e.constant.letter_isDigit e'.constant.letter_isDigit htext
  have hvalue := congrArg Number.ofDigits hindex
  rw [Decimal.ofDigits_toDigits, Decimal.ofDigits_toDigits, UInt8.toNat_inj] at hvalue
  have hconstant := Constant.shown_inj he he' hletter (List.cons.inj htext).2
  obtain ⟨index, constant⟩ := e
  obtain ⟨index', constant'⟩ := e'
  cases hvalue
  cases hconstant
  rfl

theorem constantLine_isLine {e : ConstantEntry} (he : e.constant.Legible) : IsLine (constantLine e) := by
  refine ⟨_, toList_constantLine e, ?_⟩
  rintro c hc rfl
  rcases List.mem_cons.mp hc with hc | hc
  · exact absurd hc (by decide)
  rcases List.mem_append.mp hc with hc | hc
  · exact absurd (Decimal.isDigit_of_mem_toDigits hc) (by decide)
  rcases List.mem_cons.mp hc with hc | hc
  · rcases e.constant.letter_eq with h | h <;> rw [h] at hc <;> exact absurd hc (by decide)
  rcases List.mem_cons.mp hc with hc | hc
  · exact absurd hc (by decide)
  · exact Constant.newline_notMem_shown he hc

end Listing

/-! ## Lines of instructions -/

namespace Opcode

def all : List Opcode :=
  [.add, .subtract, .multiply, .divide, .less, .lessEqual, .greater, .greaterEqual, .equal, .notEqual].map binary ++
    [.negate, .not].map unary ++
    [nop, pushConstant, pushNil, pushTrue, pushFalse, pop, print, defineGlobal, setGlobal, getGlobal, setLocal,
      getLocal, jump, jumpIfFalse, jumpIfTrue, jumpSigned, trap]

theorem mem_all (op : Opcode) : op ∈ all := by
  cases op with
  | binary op => cases op <;> decide
  | unary op => cases op <;> decide
  | _ => decide

theorem mnemonic_inj {op op' : Opcode} (h : op.mnemonic = op'.mnemonic) : op = op' := by
  have hnodup : (all.map mnemonic).Nodup := by decide
  exact List.inj_on_of_nodup_map hnodup op.mem_all op'.mem_all h

/-- A mnemonic is a word. -/
theorem of_mem_mnemonic {op : Opcode} {c : Char} (h : c ∈ op.mnemonic.toList) : c ≠ ' ' ∧ c ≠ '\n' ∧ c ≠ '@' := by
  have hall : ∀ op ∈ all, op.mnemonic.toList.all (fun c => c ≠ ' ' ∧ c ≠ '\n' ∧ c ≠ '@') = true := by decide
  exact of_decide_eq_true (List.all_eq_true.mp (hall op op.mem_all) c h)

theorem mnemonic_ne_nil (op : Opcode) : op.mnemonic.toList ≠ [] := by
  have hall : ∀ op ∈ all, op.mnemonic.toList ≠ [] := by decide
  exact hall op op.mem_all

end Opcode

theorem newline_notMem_toString (n : Int) : '\n' ∉ (toString n).toList := by
  have hdigits (m : Nat) : '\n' ∉ m.repr.toList := by
    rw [Nat.toList_repr]
    intro h
    exact absurd (Decimal.isDigit_of_mem_toDigits h) (by decide)
  cases n with
  | ofNat m => exact hdigits m
  | negSucc m =>
      change '\n' ∉ ("-" ++ (m + 1).repr).toList
      rw [String.toList_append, List.mem_append]
      rintro (h | h)
      · exact absurd h (by decide)
      · exact hdigits (m + 1) h

namespace OperandForm

variable {form : OperandForm} {bs cs : List UInt8}

/-- An operand is listed as a number behind a space, if there is one. -/
theorem text_eq (form : OperandForm) (bs : List UInt8) :
    form.text bs = "" ∨ ∃ n : Int, form.text bs = " " ++ toString n := by
  cases form with
  | none => exact .inl rfl
  | byte => exact .inr ⟨littleEndian bs, rfl⟩
  | word => exact .inr ⟨littleEndian bs, rfl⟩
  | signedWord => exact .inr ⟨Reader.signed (littleEndian bs), rfl⟩

theorem newline_notMem_text : '\n' ∉ (form.text bs).toList := by
  rcases form.text_eq bs with h | ⟨n, h⟩
  · rw [h]
    exact List.not_mem_nil
  · rw [h, String.toList_append, List.mem_append]
    rintro (h | h)
    · exact absurd h (by decide)
    · exact newline_notMem_toString n h

theorem text_inj (hbs : bs.length = form.size) (hcs : cs.length = form.size) (h : form.text bs = form.text cs) :
    bs = cs := by
  have hlength : bs.length = cs.length := hbs.trans hcs.symm
  cases form with
  | none => rw [List.length_eq_zero_iff.mp hbs, List.length_eq_zero_iff.mp hcs]
  | byte => exact littleEndian_inj hlength (Nat.repr_injective ((String.append_right_inj " ").mp h))
  | word => exact littleEndian_inj hlength (Nat.repr_injective ((String.append_right_inj " ").mp h))
  | signedWord =>
      have hlt := littleEndian_lt bs
      have hlt' := littleEndian_lt cs
      rw [hbs] at hlt
      rw [hcs] at hlt'
      have hsigned := Int.repr_injective ((String.append_right_inj " ").mp h)
      exact littleEndian_inj hlength (Reader.signed_inj hlt hlt' hsigned)

end OperandForm

namespace Decoded

variable {i i' : Decoded}

theorem toList_line (i : Decoded) :
    i.line.toList = (i.opcode.mnemonic.toList ++ (i.opcode.form.text i.operand).toList) ++ ['\n'] := by
  rw [line, String.toList_append, String.toList_append]
  rfl

theorem line_isLine (i : Decoded) : IsLine i.line := by
  refine ⟨_, i.toList_line, ?_⟩
  rintro c hc rfl
  rcases List.mem_append.mp hc with hc | hc
  · exact (Opcode.of_mem_mnemonic hc).2.1 rfl
  · exact OperandForm.newline_notMem_text hc

/-- The mnemonic ends at a space or with the line. -/
theorem exists_toList_line (i : Decoded) :
    ∃ c cs, (c = ' ' ∨ c = '\n') ∧ (i.opcode.form.text i.operand).toList ++ ['\n'] = c :: cs := by
  rcases i.opcode.form.text_eq i.operand with h | ⟨n, h⟩
  · exact ⟨'\n', [], .inr rfl, by rw [h]; rfl⟩
  · exact ⟨' ', (toString n).toList ++ ['\n'], .inl rfl, by rw [h, String.toList_append]; rfl⟩

/-- A line says which instruction it shows. -/
theorem line_inj (hi : i.operand.length = i.opcode.operandSize) (hi' : i'.operand.length = i'.opcode.operandSize)
    (h : i.line = i'.line) : i.bytes = i'.bytes := by
  obtain ⟨c, cs, hc, htext⟩ := i.exists_toList_line
  obtain ⟨c', cs', hc', htext'⟩ := i'.exists_toList_line
  have hline := congrArg String.toList h
  rw [toList_line, toList_line, List.append_assoc, List.append_assoc, htext, htext'] at hline
  obtain ⟨hmnemonic, rfl, rfl⟩ := append_cons_inj (p := fun c => c ≠ ' ' ∧ c ≠ '\n')
    (fun _ hd => ⟨(Opcode.of_mem_mnemonic hd).1, (Opcode.of_mem_mnemonic hd).2.1⟩)
    (fun _ hd => ⟨(Opcode.of_mem_mnemonic hd).1, (Opcode.of_mem_mnemonic hd).2.1⟩)
    (by tauto) (by tauto) hline
  have hopcode := Opcode.mnemonic_inj (String.toList_inj.mp hmnemonic)
  have hoperand := String.toList_inj.mp (List.append_cancel_right (htext.trans htext'.symm))
  rw [Opcode.operandSize_eq] at hi hi'
  rw [← hopcode] at hi' hoperand
  rw [bytes, bytes, hopcode, OperandForm.text_inj hi hi' hoperand]

end Decoded

/-! ## Code -/

namespace ConstantEntry

variable {e : ConstantEntry} {es : List ConstantEntry} {bs : List UInt8}

def bytes (e : ConstantEntry) : List UInt8 :=
  e.constant.encode e.index.toNat

/-- An entry has only one spelling. -/
theorem Spells.eq_bytes (h : e.Spells bs) : bs = e.bytes := by
  cases h with
  | number index content hcontent =>
      have hlt : littleEndian content < 2 ^ 64 := by
        have := littleEndian_lt content
        rw [hcontent] at this
        exact this
      rw [ConstantEntry.bytes, Constant.encode, Constant.payload, UInt64.toNat_ofNat_of_lt' hlt, ← hcontent,
        toLittleEndian_littleEndian, UInt8.ofNat_toNat]
      rfl
  | string index s hs =>
      rw [ConstantEntry.bytes, Constant.encode, UInt8.ofNat_toNat]
      rfl

theorem SpellAll.eq_flatMap (h : SpellAll es bs) : bs = es.flatMap ConstantEntry.bytes := by
  induction h with
  | nil => rfl
  | cons he _ ih => rw [List.flatMap_cons, ← he.eq_bytes, ← ih]

end ConstantEntry

namespace Listing

variable {code code' : Array UInt8} {text : String}

/-- Every constant of the code is legible. -/
def Legible (code : Array UInt8) : Prop :=
  ∀ es r, ConstantEntry.readAll code.size ⟨code, 0⟩ = .ok es r → ∀ e ∈ es, e.constant.Legible

/-- Legible code that has a listing consists of the constants and instructions that are listed. -/
theorem exists_of_ofCode (hcode : Legible code) (h : ofCode code = .ok text) :
    ∃ (es : List ConstantEntry) (is : List Decoded), (∀ e ∈ es, e.constant.Legible) ∧
      (∀ i ∈ is, i.operand.length = i.opcode.operandSize) ∧
      text = lines constantLine es ++ lines Decoded.line is ∧
      code.toList = es.flatMap ConstantEntry.bytes ++ is.flatMap Decoded.bytes := by
  obtain ⟨es, r, is, r', hes, his, htext⟩ := ofCode_eq_ok.mp h
  have hlegible := hcode es r hes
  obtain ⟨bs, behind, hbs, hspells, rfl⟩ := ConstantEntry.readAll_spelt hes
  have hbehind := Reader.rest_skip bs hbs
  have hrest : code.toList = bs ++ behind := hbs
  have hle : behind.length ≤ code.size := by
    rw [← Array.length_toList, hrest, List.length_append]
    exact Nat.le_add_left _ _
  obtain ⟨hoperands, hsweep⟩ := Reader.sweep_eq_ok his (by rwa [hbehind])
  refine ⟨es, is, hlegible, hoperands, htext, ?_⟩
  rw [hrest, ← hspells.eq_flatMap, ← hsweep, hbehind]

/-- Where lines say what they show, lists with the same lines have the same bytes. -/
theorem flatMap_eq_of_map_eq {α : Type} {line : α → String} {bytes : α → List UInt8} {as bs : List α}
    (hline : ∀ a ∈ as, ∀ b ∈ bs, line a = line b → bytes a = bytes b) (h : as.map line = bs.map line) :
    as.flatMap bytes = bs.flatMap bytes := by
  induction as generalizing bs with
  | nil => rw [List.map_eq_nil_iff.mp h.symm]
  | cons a as ih =>
      cases bs with
      | nil => cases h
      | cons b bs =>
          obtain ⟨hhead, htail⟩ := List.cons.inj h
          rw [List.flatMap_cons, List.flatMap_cons, hline a List.mem_cons_self b List.mem_cons_self hhead,
            ih (fun a ha b hb => hline a (.tail _ ha) b (.tail _ hb)) htail]

/-- The lines of constants are those that begin with `@`. -/
theorem filter_lines (es : List ConstantEntry) (is : List Decoded) :
    (es.map constantLine ++ is.map Decoded.line).filter (·.toList.head? == some '@') = es.map constantLine := by
  have hconstants : ∀ s ∈ es.map constantLine, (s.toList.head? == some '@') = true := by
    intro s hs
    obtain ⟨e, -, rfl⟩ := List.mem_map.mp hs
    rw [toList_constantLine]
    rfl
  have hinstructions : ∀ s ∈ is.map Decoded.line, ¬(s.toList.head? == some '@') = true := by
    intro s hs
    obtain ⟨i, -, rfl⟩ := List.mem_map.mp hs
    obtain ⟨c, cs, hcs⟩ := List.exists_cons_of_ne_nil i.opcode.mnemonic_ne_nil
    have hc : c ≠ '@' := (Opcode.of_mem_mnemonic (hcs ▸ List.mem_cons_self)).2.2
    rw [Decoded.toList_line, hcs]
    simpa using hc
  rw [List.filter_append, List.filter_eq_self.mpr hconstants, List.filter_eq_nil_iff.mpr hinstructions,
    List.append_nil]

/-- **Code with the same listing is the same.** -/
theorem ofCode_inj (hcode : Legible code) (hcode' : Legible code') (h : ofCode code = .ok text)
    (h' : ofCode code' = .ok text) : code = code' := by
  obtain ⟨es, is, hes, his, htext, hbytes⟩ := exists_of_ofCode hcode h
  obtain ⟨es', is', hes', his', htext', hbytes'⟩ := exists_of_ofCode hcode' h'
  have hisLine {es : List ConstantEntry} {is : List Decoded} (hes : ∀ e ∈ es, e.constant.Legible) :
      ∀ s ∈ es.map constantLine ++ is.map Decoded.line, IsLine s := by
    intro s hs
    rcases List.mem_append.mp hs with hs | hs
    · obtain ⟨e, he, rfl⟩ := List.mem_map.mp hs
      exact constantLine_isLine (hes e he)
    · obtain ⟨i, -, rfl⟩ := List.mem_map.mp hs
      exact i.line_isLine
  have hlines : es.map constantLine ++ is.map Decoded.line = es'.map constantLine ++ is'.map Decoded.line := by
    refine join_inj (hisLine hes) (hisLine hes') ?_
    rw [String.join_append, String.join_append]
    exact htext.symm.trans htext'
  have hconstants : es.map constantLine = es'.map constantLine := by
    rw [← filter_lines es is, hlines, filter_lines]
  have hinstructions : is.map Decoded.line = is'.map Decoded.line := by
    rw [hconstants] at hlines
    exact List.append_cancel_left hlines
  have hentries : es.flatMap ConstantEntry.bytes = es'.flatMap ConstantEntry.bytes :=
    flatMap_eq_of_map_eq (fun e he e' he' hline => by rw [constantLine_inj (hes e he) (hes' e' he') hline]) hconstants
  have hdecoded : is.flatMap Decoded.bytes = is'.flatMap Decoded.bytes :=
    flatMap_eq_of_map_eq (fun i hi i' hi' hline => Decoded.line_inj (his i hi) (his' i' hi') hline) hinstructions
  rw [← Array.toList_inj, hbytes, hbytes', hentries, hdecoded]

/-- Negative zero and a quote as constants, and two instructions. -/
def quoted : Array UInt8 :=
  #[0x40, 0, 0x64, 0, 0, 0, 0, 0, 0, 0, 0x80, 0x40, 1, 0x73, 0x22, 0, 13, 0, 27, 0xfd, 0xff]

def assembled : Array UInt8 :=
  ([⟨0, .number ⟨0x8000000000000000⟩⟩, ⟨1, .string "\""⟩].flatMap ConstantEntry.bytes ++
    [⟨16, .pushConstant, [0]⟩, ⟨18, .jumpSigned, [0xfd, 0xff]⟩].flatMap Decoded.bytes).toArray

theorem ofCode_inj_quoted :
    ∃ text, ofCode quoted = .ok text ∧ ofCode assembled = .ok text ∧ Legible quoted ∧ Legible assembled ∧
      quoted = assembled := by
  have hreadAll : ConstantEntry.readAll quoted.size ⟨quoted, 0⟩ =
      .ok [⟨0, .number ⟨0x8000000000000000⟩⟩, ⟨1, .string "\""⟩] ⟨quoted, 16⟩ := rfl
  have hreadAll' : ConstantEntry.readAll assembled.size ⟨assembled, 0⟩ =
      .ok [⟨0, .number ⟨0x8000000000000000⟩⟩, ⟨1, .string "\""⟩] ⟨assembled, 16⟩ := rfl
  have hlegible : ∀ e ∈ [(⟨0, .number ⟨0x8000000000000000⟩⟩ : ConstantEntry), ⟨1, .string "\""⟩], e.constant.Legible := by
    intro e he
    rcases List.mem_pair.mp he with rfl | rfl
    · exact (by decide : Double.isNaN ⟨0x8000000000000000⟩ = false)
    · exact (by decide : '\n' ∉ "\"".toList)
  have hcode : Legible quoted := by
    intro es r h
    cases hreadAll.symm.trans h
    exact hlegible
  have hcode' : Legible assembled := by
    intro es r h
    cases hreadAll'.symm.trans h
    exact hlegible
  have h : ofCode quoted = .ok _ := ofCode_eq_ok.mpr ⟨_, _, _, _, hreadAll, rfl, rfl⟩
  have h' : ofCode assembled = .ok _ := ofCode_eq_ok.mpr ⟨_, _, _, _, hreadAll', rfl, rfl⟩
  exact ⟨_, h, h', hcode, hcode', ofCode_inj hcode hcode' h h'⟩

end Listing

end Lox
