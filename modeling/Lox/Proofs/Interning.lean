import Lox.Proofs.Loading

/-!
# The pool of constants

A pool has every constant that was ever asked for and granted, once and at an index that stays.

* `ConstantPool.askAll` : requests for constants in turn, some of which may fail;
* `ConstantPool.granted log` : the constants that were granted, in the order they were first granted;
* `ConstantPool.Answers p log` : bytes, count and indices of `p` are those of the constants granted in `log`;
* `ConstantPool.Holds.load` : the machine loads the constants of a pool from the bytes they are written to;
* `ConstantPool.askAll_keeps` : all this of every row of requests to a fresh pool.
-/

namespace Lox

theorem Constant.encodable_eq_false {k : Constant} :
    k.encodable = false ↔ ∃ t, k = string t ∧ '\x00' ∈ t.toList := by
  cases k with
  | number x => simp [encodable]
  | string s => simp [encodable]

namespace ConstantPool

/-- A request for a constant, with the index that was given or the reason why there is none. -/
abbrev Answer := Constant × Except CompileError UInt8

/-! ## Requests in turn -/

def ask (k : Constant) (s : Span) (p : ConstantPool) : Except CompileError UInt8 × ConstantPool :=
  match intern k s p with
  | .ok i p => (.ok i, p)
  | .error e p => (.error e, p)

def askAll : List (Constant × Span) → ConstantPool → List Answer × ConstantPool
  | [], p => ([], p)
  | request :: requests, p =>
    let (answer, p) := ask request.1 request.2 p
    let (log, p) := askAll requests p
    ((request.1, answer) :: log, p)

/-- The constants that were granted, each once, in the order they were first granted. -/
def granted (log : List Answer) : List Constant :=
  (log.filterMap fun a => a.2.toOption.map fun _ => a.1).eraseDups

/-- The pool has the constants that were granted and nothing else, each at the index that was given for it. -/
structure Answers (p : ConstantPool) (log : List Answer) : Prop where
  holds : p.Holds (granted log)
  index : ∀ k i, (k, .ok i) ∈ log → (granted log)[i.toNat]? = some k

variable {p p' : ConstantPool} {k : Constant} {ks : List Constant} {s : Span} {log more : List Answer} {i : UInt8}

theorem granted_isPrefix (log more : List Answer) : granted log <+: granted (log ++ more) := by
  unfold granted
  rw [List.filterMap_append, List.eraseDups_append]
  exact List.prefix_append _ _

theorem granted_refusal (log : List Answer) (k : Constant) (e : CompileError) :
    granted (log ++ [(k, .error e)]) = granted log := by
  simp [granted, Except.toOption]

/-- A constant counts where it was granted first. -/
theorem granted_grant (log : List Answer) (k : Constant) (i : UInt8) :
    granted (log ++ [(k, .ok i)]) = if k ∈ granted log then granted log else granted log ++ [k] := by
  have hlast : [(k, Except.ok i)].filterMap (fun a : Answer => a.2.toOption.map fun _ => a.1) = [k] := rfl
  unfold granted
  rw [List.filterMap_append, List.eraseDups_append, hlast]
  split_ifs with h
  · rw [List.mem_eraseDups] at h
    simp [List.removeAll, h]
  · rw [List.mem_eraseDups] at h
    simp [List.removeAll, h, List.eraseDups_cons]

namespace Answers

theorem nil : Answers {} [] :=
  ⟨holds_empty, by simp⟩

theorem refuse (h : p.Answers log) (k : Constant) (e : CompileError) : p.Answers (log ++ [(k, .error e)]) where
  holds := by
    rw [granted_refusal]
    exact h.holds
  index := by
    intro k' i hmem
    rw [granted_refusal]
    rcases List.mem_append.mp hmem with hmem | hmem
    · exact h.index k' i hmem
    · simp at hmem

/-- A constant that is granted is where its index says, and all others stay where they are. -/
theorem grant (h : p.Answers log) (hholds : p'.Holds (granted (log ++ [(k, .ok i)]))) (hi : p'.index? k = some i) :
    p'.Answers (log ++ [(k, .ok i)]) where
  holds := hholds
  index := by
    intro k' j hj
    rcases List.mem_append.mp hj with hj | hj
    · have hbefore := h.index k' j hj
      obtain ⟨behind, hbehind⟩ := granted_isPrefix log [(k, .ok i)]
      rw [← hbehind, List.getElem?_append_left (List.getElem?_eq_some_iff.mp hbefore).1, hbefore]
    · cases List.mem_singleton.mp hj
      exact hholds.getElem?_of_index hi

/-- One request keeps bytes, count and indices in step. -/
theorem ask (h : p.Answers log) (k : Constant) (s : Span) :
    (ask k s p).2.Answers (log ++ [(k, (ask k s p).1)]) := by
  unfold ConstantPool.ask
  rw [h.holds.intern_eq]
  split_ifs with hk hencodable hfull
  · refine h.grant ?_ (h.holds.index_of_mem hk)
    rw [granted_grant, if_pos hk]
    exact h.holds
  · exact h.refuse k _
  · exact h.refuse k _
  · refine h.grant ?_ ?_
    · rw [granted_grant, if_neg hk]
      exact h.holds.add hk (Bool.not_eq_false _ ▸ hencodable) (Nat.lt_of_not_le hfull)
    · rw [index?_added, if_pos rfl, h.holds.count]

theorem askAll (requests : List (Constant × Span)) (h : p.Answers log) :
    (askAll requests p).2.Answers (log ++ (askAll requests p).1) := by
  induction requests generalizing p log with
  | nil =>
      rw [ConstantPool.askAll, List.append_nil]
      exact h
  | cons request requests ih =>
      have hrest := ih (h.ask request.1 request.2)
      rw [List.append_assoc] at hrest
      exact hrest

end Answers

theorem askAll_append (requests more : List (Constant × Span)) (p : ConstantPool) :
    (askAll (requests ++ more) p).1 = (askAll requests p).1 ++ (askAll more (askAll requests p).2).1 := by
  induction requests generalizing p with
  | nil => rfl
  | cons request requests ih => exact congrArg (_ :: ·) (ih _)

theorem map_fst_askAll (requests : List (Constant × Span)) (p : ConstantPool) :
    (askAll requests p).1.map Prod.fst = requests.map Prod.fst := by
  induction requests generalizing p with
  | nil => rfl
  | cons request requests ih => exact congrArg (request.1 :: ·) (ih _)

/-! ## Refusals -/

/-- **When a constant is refused**: it is new, and it is a text with a nul in it or there is no room. Then the pool is
what it was. -/
theorem Holds.intern_eq_error {e : CompileError} (h : p.Holds ks) :
    intern k s p = .error e p' ↔
      p' = p ∧ k ∉ ks ∧
        ((∃ t, k = .string t ∧ '\x00' ∈ t.toList) ∧ e = .nulInString s ∨
          (¬∃ t, k = .string t ∧ '\x00' ∈ t.toList) ∧ p.count = 256 ∧ e = .tooManyConstants s) := by
  rw [← Constant.encodable_eq_false, h.intern_eq, h.count]
  have hlength := h.length_le
  split_ifs with hk hnul hfull
  · simp [hk]
  · simp [hk, hnul, eq_comm, and_comm]
  · have hsize : ks.length = 256 := by omega
    simp [hk, hnul, hsize, eq_comm, and_comm]
  · have hsize : ks.length ≠ 256 := by omega
    simp [hnul, hsize]

/-! ## Loading -/

/-- The machine loads the constants of a pool, in their order, and stops behind them. -/
theorem Holds.load (h : p.Holds ks) {rest : List UInt8} (hrest : rest.head? ≠ some Constant.marker) (spans : SpanTable)
    (m : Machine) :
    ∃ m', Machine.load (p.bytes ++ rest) spans m = .ok () m' ∧
      m'.constants.toList = ks.map Constant.value ∧ m'.reader.offset = p.bytes.size := by
  have hsize : (Constant.encodeAll 0 ks).length = p.bytes.size := by
    rw [← h.bytes, Array.length_toList]
  have hbytes : (m.start (p.bytes ++ rest) spans).reader.rest = Constant.encodeAll 0 ks ++ rest := by
    rw [Reader.rest, Machine.start, List.drop_zero, Array.toList_appendList, h.bytes]
  have hlength : ks.length ≤ (p.bytes ++ rest).size := by
    have := Constant.length_le_encodeAll 0 ks
    have hall : (p.bytes ++ rest).toList.length = (p.bytes.toList ++ rest).length :=
      congrArg List.length (Array.toList_appendList ..)
    rw [Array.length_toList, List.length_append, Array.length_toList] at hall
    omega
  unfold Machine.load
  rw [apply_bind_of_ok (apply_modify _ _), Execution.loadConstants_apply ks hbytes hrest h.encodable
    (by simpa [Machine.start] using h.length_le) hlength]
  refine ⟨_, rfl, ?_, ?_⟩
  · simp [Machine.start]
  · simp only [Machine.start, Reader.skip, Nat.zero_add, List.size_toArray, List.length_nil]
    exact hsize

/-- A pool that has what the answers in `log` say, and whose bytes, in front of any code, are what the machine loads
the constants from. -/
structure Keeps (p : ConstantPool) (log : List Answer) : Prop extends p.Answers log where
  loads : ∀ rest : List UInt8, rest.head? ≠ some Constant.marker → ∀ spans m,
    ∃ m', Machine.load (p.bytes ++ rest) spans m = .ok () m' ∧
      m'.constants.toList = (granted log).map Constant.value ∧ m'.reader.offset = p.bytes.size

/-- **The pool after any row of requests.** It keeps its answers, also when more is asked for; and the next request is
refused just if the constant is new and is a text with a nul in it or, failing that, finds no room, and then bytes,
count and indices are what they were. -/
theorem askAll_keeps (requests : List (Constant × Span)) :
    let (log, p) := askAll requests {}
    log.map Prod.fst = requests.map Prod.fst ∧ p.Keeps log ∧ p.count ≤ 256 ∧
      (∀ more, log <+: (askAll (requests ++ more) {}).1 ∧ granted log <+: granted (askAll (requests ++ more) {}).1) ∧
      ∀ k s e p', intern k s p = .error e p' ↔
        p' = p ∧ k ∉ granted log ∧
          ((∃ t, k = .string t ∧ '\x00' ∈ t.toList) ∧ e = .nulInString s ∨
            (¬∃ t, k = .string t ∧ '\x00' ∈ t.toList) ∧ p.count = 256 ∧ e = .tooManyConstants s) := by
  have h := Answers.nil.askAll requests
  rw [List.nil_append] at h
  refine ⟨map_fst_askAll requests {}, { h with loads := ?_ }, ?_, ?_, ?_⟩
  · intro rest hrest spans m
    exact h.holds.load hrest spans m
  · rw [h.holds.count]
    exact h.holds.length_le
  · intro more
    rw [askAll_append]
    exact ⟨List.prefix_append _ _, granted_isPrefix _ _⟩
  · intro k s e p'
    exact h.holds.intern_eq_error

end ConstantPool

end Lox
