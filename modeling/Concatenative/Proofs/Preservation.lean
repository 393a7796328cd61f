import Mathlib.Data.List.Basic
import Concatenative.Proofs.Invariant
import Concatenative.Proofs.Vocabulary
import Concatenative.Machine.Session

/-!
# Invariants of evaluation

Evaluation is a recursive interpreter. A text is renamed by hygiene and scanned token by token;
symbols are pushed, operators take their operands off the stack and push their results, and
`if`, `eval`, the combinators and defined operators evaluate further texts one level deeper.
`Evaluation.Invariant` lists what a property of machines, tokens, texts and errors must satisfy
at each of these operations: what the stack, the registers and the table may hold, what the
texts scanned from an evaluated text give, and at which tokens errors may be raised.

Every such invariant is kept together with the soundness of the table: a built-in is stored with
the arity its behaviour reads operands by. The fresh table is sound, `define-op` stores defined
code, `alias-op` copies an entry and `del-op` removes one, so invoking an operator collects
exactly the operands its behaviour reads and the fallback that reports a miscount of operands is
never reached. The proof follows the evaluation's own recursion: one lemma per function, each
assuming the lemmas of the functions it calls, and an induction on the depth that is left.

## Main results

* `Evaluation.Invariant.preserves_invoke` — invoking an operator, at any depth, keeps an
  invariant and the table's soundness, and never miscounts operands.
* `Evaluation.Invariant.preserves_evaluate` — so does evaluating a program, which leaves a value
  the invariant allows.
* `Machine.Reachable.holds` — an invariant of the fresh machine holds of every machine a session
  reaches, programs that fail included.
-/

namespace Concatenative

-- ---------------------------------------------------------------------------
-- The faults of scanning
-- ---------------------------------------------------------------------------

namespace ErrorCode

/-- The codes of the errors that scanning raises. -/
def lexical : ErrorCode → Bool
  | unmatchedParentheses | unrecognizedInput => true
  | _ => false

theorem ne_of_lexical {c : ErrorCode} (h : c.lexical = true) : c ≠ .internalError := by
  rintro rfl
  cases h

end ErrorCode

namespace Fault

/-- The fault of an operator handed a number of operands it does not read. -/
def miscounts : Fault → Bool
  | operandCount .. => true
  | _ => false

theorem miscounts_eq_false {f : Fault} (h : f.code ≠ .internalError) : f.miscounts = false := by
  cases f <;> simp_all [code, miscounts]

/-- The internal errors are the unreplaced local and the miscount of operands. -/
theorem internalError_cases {f : Fault} (h : f.code = .internalError) (hm : f.miscounts = false) :
    ∃ name, f = .unreplacedLocal name := by
  cases f <;> simp_all [code, miscounts]

end Fault

namespace Scan

variable {rules : List Rule} {v : Vocabulary} {c : Cursor} {e : Error}

theorem scan_error_lexical (h : scan rules v c = .error e) : e.code.lexical = true := by
  unfold scan at h
  split at h
  · cases h
  · split at h
    · cases h
      rfl
    · cases h
  · split at h
    · cases h
      rfl
    · cases h

theorem next_error_lexical (h : next rules v c = .error e) : e.code.lexical = true := by
  induction c using next.induct rules v with
  | case1 c hne =>
    rw [next, dif_pos hne] at h
    cases h
  | case2 c hne e' hs =>
    rw [next_of_scan_error hne hs] at h
    cases h
    exact scan_error_lexical hs
  | case3 c hne t c₁ hs =>
    rw [next_of_scan_some hne hs] at h
    cases h
  | case4 c hne c₁ hs ih =>
    rw [next_of_scan_none hne hs] at h
    exact ih h

theorem tokens_go_error_lexical (c : Cursor) (h : (tokens.go rules v c).2 = some e) :
    e.code.lexical = true := by
  induction c using tokens.go.induct rules v with
  | case1 c hn => rw [tokens_go_none hn] at h; cases h
  | case2 c e' hn =>
    rw [tokens_go_of_next_error hn] at h
    cases h
    exact next_error_lexical hn
  | case3 c t c₁ hn ih =>
    rw [tokens_go_next hn] at h
    exact ih h

end Scan

namespace Substitution

variable {replace : Token → Option String} {deep : Bool}

/-- A walk fails only where a substitution inside quoted code failed. -/
theorem walk_error_lexical {inner : String → List Token × Except Error (String × Edits)}
    (hinner : ∀ text e, (inner text).2 = .error e → e.code.lexical = true) :
    ∀ (ts : List Token) (p : Progress) (e : Error),
      (walk replace deep inner ts p).2 = .error e → e.code.lexical = true
  | [], p, e, h => by simp [walk] at h
  | t :: ts, p, e, h => by
    rw [walk] at h
    split at h
    · exact walk_error_lexical hinner ts p e h
    · dsimp only at h
      split at h
      · split at h
        · rename_i err herr
          cases h
          exact hinner _ err herr
        · exact walk_error_lexical hinner ts _ e h
      · exact walk_error_lexical hinner ts _ e h

/-- A substitution fails only where scanning failed, at some depth of quoted code. -/
theorem nested_error_lexical (rules : List Rule) (vocab : Vocabulary) :
    ∀ (n : Nat) (text : String) (e : Error),
      (nested rules vocab replace deep n text).2 = .error e → e.code.lexical = true
  | 0, text, e, h => by simp [nested] at h
  | n + 1, text, e, h => by
    rw [nested] at h
    split at h
    rename_i toks stop htoks
    split at h
    rename_i seen result hwalk
    split at h
    · -- the walk failed inside quoted code
      cases h
      exact walk_error_lexical (nested_error_lexical rules vocab n) toks _ e (by rw [hwalk])
    · -- the scan of the text failed
      cases h
      have hstop : (Scan.tokens rules vocab text).2 = some e := by rw [htoks]
      exact Scan.tokens_go_error_lexical _ hstop
    · cases h

end Substitution

/-- Hygiene fails only where scanning failed. -/
theorem hygiene_error_lexical {ops : Table} {text : String} {uid : Nat} {origin : Origin}
    {e : Error} (h : Evaluation.hygiene ops text uid origin = .error e) :
    e.code.lexical = true := by
  rw [Evaluation.hygiene] at h
  split at h
  · rename_i err htoks
    cases h
    have hstop : (Scan.tokens Rule.standard ops.contains text).2 = some err := by rw [htoks]
    have hcode := Scan.tokens_go_error_lexical _ hstop
    exact hcode
  · dsimp only at h
    split_ifs at h
    split at h
    · rename_i err herr
      cases h
      have hcode := Substitution.nested_error_lexical _ _ _ _ err herr
      exact hcode
    · cases h

theorem Except.error_of_bind_pure {ε α β : Type} {x : Except ε α} {f : α → β} {e : ε}
    (h : (x >>= fun a => pure (f a)) = .error e) : x = .error e := by
  cases x with
  | error e' =>
    cases h
    rfl
  | ok a => cases h


-- ---------------------------------------------------------------------------
-- The errors of the operators' checks, and the tokens they are attributed to
-- ---------------------------------------------------------------------------

namespace Binary

variable {a b : Token} {e : Error}

theorem operand_error (h : operand a = .error e) : e.code = .typeMismatch ∧ e.span = a.span := by
  unfold operand at h
  split at h
  · cases h
  · cases h
    exact ⟨rfl, rfl⟩

theorem operands_error (h : operands a b = .error e) :
    e.code = .typeMismatch ∧ (e.span = a.span ∨ e.span = b.span) := by
  unfold operands at h
  cases ha : operand a with
  | error e' =>
    rw [ha] at h
    cases h
    obtain ⟨hcode, hspan⟩ := operand_error ha
    exact ⟨hcode, .inl hspan⟩
  | ok x =>
    cases hb : operand b with
    | error e' =>
      rw [ha, hb] at h
      cases h
      obtain ⟨hcode, hspan⟩ := operand_error hb
      exact ⟨hcode, .inr hspan⟩
    | ok y =>
      rw [ha, hb] at h
      cases h

theorem order_error (h : order a b = .error e) : e.code = .typeMismatch ∧ e.span = b.span := by
  unfold order at h
  split at h
  · cases h
  · cases h
  · cases h
  · cases h
    exact ⟨rfl, rfl⟩

/-- Arithmetic, comparison and logic fail only with a type mismatch at one of their operands. -/
theorem apply_error {op : Binary} (h : op.apply a b = .error e) :
    e.code = .typeMismatch ∧ (e.span = a.span ∨ e.span = b.span) := by
  cases op <;> simp only [apply] at h
  case sum =>
    split at h
    · cases h
    · cases h
    · exact operands_error (Except.error_of_bind_pure h)
  case difference | product | quotient | power | remainder | xor =>
    exact operands_error (Except.error_of_bind_pure h)
  case less | greater | atLeast | atMost =>
    obtain ⟨hcode, hspan⟩ := order_error (Except.error_of_bind_pure h)
    exact ⟨hcode, .inr hspan⟩
  case equal | and | or => cases h

end Binary

namespace Range

theorem operand_error {t : Token} {which : String} {e : Error} (h : operand t which = .error e) :
    e.code = .typeMismatch ∧ e.span = t.span := by
  unfold operand at h
  split at h
  · cases h
  · cases h
    exact ⟨rfl, rfl⟩

/-- `range` fails with a type mismatch at an operand that is no number, or a contract violation
at the operator or the step when it cannot use the bounds or the step. -/
theorem values_error {caller start stop step : Token} {e : Error}
    (h : values caller start stop step = .error e) :
    (e.code = .contractViolation ∨ e.code = .typeMismatch) ∧
      (e.span = caller.span ∨ e.span = start.span ∨ e.span = stop.span ∨
        e.span = step.span) := by
  unfold values at h
  cases h1 : operand start "start" with
  | error e' =>
    rw [h1] at h
    cases h
    obtain ⟨hcode, hspan⟩ := operand_error h1
    exact ⟨.inr hcode, .inr (.inl hspan)⟩
  | ok first =>
    cases h2 : operand stop "end" with
    | error e' =>
      rw [h1, h2] at h
      cases h
      obtain ⟨hcode, hspan⟩ := operand_error h2
      exact ⟨.inr hcode, .inr (.inr (.inl hspan))⟩
    | ok last =>
      cases h3 : operand step "step" with
      | error e' =>
        rw [h1, h2, h3] at h
        cases h
        obtain ⟨hcode, hspan⟩ := operand_error h3
        exact ⟨.inr hcode, .inr (.inr (.inr hspan))⟩
      | ok stride =>
        rw [h1, h2, h3] at h
        simp only [bind, Except.bind, pure, Except.pure] at h
        -- what is left is one of the three checks failing
        split_ifs at h <;> cases h <;> simp [Error.code, Fault.code]

end Range

theorem parseArity_error {t : Token} {e : Error} (h : parseArity t = .error e) :
    e.code = .typeMismatch ∧ e.span = t.span := by
  unfold parseArity at h
  split at h
  · split at h
    · cases h
    · cases h
      exact ⟨rfl, rfl⟩
  · cases h
  · cases h
    exact ⟨rfl, rfl⟩

-- ---------------------------------------------------------------------------
-- Sound operators and tables
-- ---------------------------------------------------------------------------

namespace Operator

/-- A built-in operator is stored with the arity its behaviour reads operands by. -/
def Sound (op : Operator) : Prop :=
  ∀ b, op.behaviour = .native b → op.arity = b.arity

theorem builtin_sound (b : Builtin) : (builtin b).Sound := by
  intro b' h
  cases h
  rfl

theorem defined_sound (a : Arity) (code : Token) : (⟨a, .defined code⟩ : Operator).Sound := by
  intro b h
  cases h

end Operator

namespace Table

/-- Every operator of the table is sound. -/
def Sound (ops : Table) : Prop :=
  ∀ name op, ops.get? name = some op → op.Sound

variable {ops : Table}

theorem Sound.insert (h : ops.Sound) (name : String) {op : Operator} (hop : op.Sound) :
    Table.Sound (ops.insert name op) := by
  intro n o hget
  rw [Directory.get?_insert] at hget
  split at hget
  · cases hget
    exact hop
  · exact h n o hget

theorem Sound.erase (h : ops.Sound) (name : String) : Table.Sound (ops.erase name) := by
  intro n o hget
  rw [Directory.get?_erase] at hget
  split at hget
  · cases hget
  · exact h n o hget

/-- The fresh table holds each built-in with its own arity. -/
theorem standard_sound : standard.Sound := by
  have fold : ∀ (bs : List Builtin) (t : Table), t.Sound →
      (bs.foldl (fun t b => t.insert b.name (Operator.builtin b)) t).Sound := by
    intro bs
    induction bs with
    | nil => exact fun t ht => ht
    | cons b bs ih => exact fun t ht => ih _ (ht.insert b.name (Operator.builtin_sound b))
  exact fold _ {} fun name op h => by simp at h

end Table

namespace Arity

/-- The operands collected for an arity: as many as a fixed arity says, none for a variadic
one. -/
def Collected : Arity → List Token → Prop
  | fixed n, xs => xs.length = n
  | variadic, xs => xs = []

end Arity

theorem Stack.mem_toList_of_peek? {α : Type} {s : Stack α} {a : α} (h : s.peek? = some a) :
    a ∈ s.toList := by
  obtain ⟨top⟩ := s
  cases top with
  | nil => cases h
  | cons b rest =>
    cases h
    simp [Stack.toList]

namespace Evaluation

theorem place_kind (edits : Edits) (origin : Origin) (t : Token) :
    (place edits origin t).kind = t.kind := by
  unfold place
  split <;> rfl

-- ---------------------------------------------------------------------------
-- Invariants
-- ---------------------------------------------------------------------------

/-- A property that evaluation keeps. It says what holds of the machine, of the tokens the
machine holds (on the stack, in the registers, as the code of defined operators, and the
results of operators), of the tokens on whose behalf operators run and errors are raised, of
the texts evaluated with the origins they come from, and of the errors raised; and what each
operation of evaluation must keep. -/
structure Invariant where
  machine : Machine → Prop
  token : Token → Prop
  caller : Token → Prop
  text : String → Origin → Prop
  allowed : Error → Prop
  /-- The stack holds such tokens, and any stack of them may replace it. -/
  stack : ∀ m, machine m → ∀ t ∈ m.stack.toList, token t
  restack : ∀ m (s : Stack Token), machine m → (∀ t ∈ s.toList, token t) →
    machine { m with stack := s }
  /-- So do the registers. -/
  load : ∀ m name t, machine m → m.memory.get? name = some t → token t
  store : ∀ m name t, machine m → token t →
    machine { m with memory := m.memory.insert name t }
  forget : ∀ m name, machine m → machine { m with memory := m.memory.erase name }
  /-- And the code of the operators in the table. -/
  code : ∀ m name op code, machine m → m.ops.get? name = some op →
    op.behaviour = .defined code → token code
  install : ∀ m name (op : Operator), machine m →
    (∀ code, op.behaviour = .defined code → token code) →
    machine { m with ops := m.ops.insert name op }
  remove : ∀ m name, machine m → machine { m with ops := m.ops.erase name }
  /-- Printing and counting evaluations are free. -/
  print : ∀ m line, machine m → machine { m with output := m.output.push line }
  count : ∀ m, machine m → machine { m with uid := m.uid + 1 }
  /-- The values operators make are such tokens. -/
  symbol : ∀ v, token (Token.symbol v)
  /-- Errors may be raised at such a token, and at the operator its text names, where it
  stands; and its text may be evaluated. -/
  caller_of_token : ∀ t, token t → caller t
  named : ∀ t, token t → caller ((Token.operator t.text).placed t.span)
  source : ∀ t, token t → text t.source t.textOrigin
  /-- Any fault may be raised at a caller. -/
  fault : ∀ (f : Fault) t, caller t → allowed ⟨f, t.span⟩
  /-- What hygiene and the scan of the renamed text raise and find, while operators change the
  table between the scan's steps. -/
  hygiene_error : ∀ ops T uid o e, text T o → hygiene ops T uid o = .error e → allowed e
  scan_error : ∀ ops T uid o R E, text T o → hygiene ops T uid o = .ok (R, E) →
    ∀ c, Scan.Reaches R c → ∀ v e, Scan.next Rule.standard v c = .error e →
      allowed (e.relocate (Origin.within 0 E o).locate)
  placed : ∀ ops T uid o R E, text T o → hygiene ops T uid o = .ok (R, E) →
    ∀ c, Scan.Reaches R c → ∀ v t c', Scan.next Rule.standard v c = .ok (some (t, c')) →
      caller (place E o t) ∧ (t.kind = .symbol → token (place E o t))

namespace Invariant

variable {I : Invariant} {α : Type}

/-- The machines evaluation keeps: a sound table, and the invariant. -/
def Holds (I : Invariant) (m : Machine) : Prop :=
  m.ops.Sound ∧ I.machine m

/-- The errors evaluation raises: never a miscount of operands, and allowed. -/
def Allows (I : Invariant) (e : Error) : Prop :=
  e.fault.miscounts = false ∧ I.allowed e

/-- The operators evaluation invokes: sound, with code that is such a token. -/
def Invokable (I : Invariant) (op : Operator) : Prop :=
  op.Sound ∧ ∀ code, op.behaviour = .defined code → I.token code

/-- `x` keeps the invariant, and its result satisfies `post`. -/
abbrev Preserves (I : Invariant) (x : Exec α) (post : α → Prop) : Prop :=
  Exec.Keeps I.Holds I.Allows x post

-- ---------------------------------------------------------------------------
-- One lemma per operation on the machine
-- ---------------------------------------------------------------------------

theorem preserves_pushAll {ts : List Token} (hts : ∀ t ∈ ts, I.token t) :
    I.Preserves (Exec.pushAll ts) fun _ => True := by
  refine Exec.keeps_modify fun m hm => ⟨hm.1, I.restack m _ hm.2 fun t ht => ?_⟩
  rw [Stack.toList_pushAll, List.mem_append] at ht
  rcases ht with ht | ht
  · exact I.stack m hm.2 t ht
  · exact hts t ht

theorem preserves_push {t : Token} (ht : I.token t) : I.Preserves (Exec.push t) fun _ => True := by
  refine Exec.keeps_modify fun m hm => ⟨hm.1, I.restack m _ hm.2 fun x hx => ?_⟩
  rw [Stack.toList_push, List.mem_append, List.mem_singleton] at hx
  rcases hx with hx | rfl
  · exact I.stack m hm.2 x hx
  · exact ht

theorem preserves_pop? : I.Preserves Exec.pop? fun r => ∀ t, r = some t → I.token t := by
  refine Exec.keeps_get.bind fun m hm => ?_
  have htoks := I.stack m hm.2
  split
  · rename_i t rest hpop
    -- the rest of the stack and its top were on the stack
    have hsplit := Stack.pop?_eq_some hpop
    rw [hsplit] at htoks
    refine (Exec.keeps_set ⟨hm.1, I.restack m rest hm.2 fun x hx =>
      htoks x (List.mem_append_left _ hx)⟩).bind fun _ _ => Exec.keeps_pure ?_
    rintro x ⟨⟩
    exact htoks t (List.mem_append_right _ (List.mem_singleton_self t))
  · exact Exec.keeps_pure fun _ h => nomatch h

theorem preserves_drain : I.Preserves Exec.drain fun ts => ∀ t ∈ ts, I.token t := by
  refine Exec.keeps_get.bind fun m hm => ?_
  refine (Exec.keeps_set ⟨hm.1, I.restack m _ hm.2 fun t ht => absurd ht List.not_mem_nil⟩).bind
    fun _ _ => Exec.keeps_pure (I.stack m hm.2)

theorem preserves_print (line : String) : I.Preserves (Exec.print line) fun _ => True :=
  Exec.keeps_modify fun m hm => ⟨hm.1, I.print m line hm.2⟩

theorem preserves_takeUid : I.Preserves Exec.takeUid fun _ => True :=
  Exec.keeps_get.bind fun m hm =>
    (Exec.keeps_set ⟨hm.1, I.count m hm.2⟩).bind fun _ _ => Exec.keeps_pure trivial

/-- An operator found in the table may be invoked. -/
theorem preserves_lookup? (name : String) :
    I.Preserves (Exec.lookup? name) fun r => ∀ op, r = some op → I.Invokable op :=
  Exec.keeps_get.bind fun m hm =>
    Exec.keeps_pure fun op h => ⟨hm.1 name op h, fun code hc => I.code m name op code hm.2 h hc⟩

/-- A fault raised at a caller, when it is no miscount. -/
theorem preserves_fail {f : Fault} {t : Token} {post : α → Prop} (hc : I.caller t)
    (hf : f.miscounts = false) : I.Preserves (Exec.fail f t.span) post :=
  Exec.keeps_fail ⟨hf, I.fault f t hc⟩

/-- An error attributed to a caller, when it is no internal error. -/
theorem preserves_throw {e : Error} {t : Token} {post : α → Prop} (hc : I.caller t)
    (hspan : e.span = t.span) (hcode : e.code ≠ .internalError) :
    I.Preserves (throw e : Exec α) post := by
  have he : e = ⟨e.fault, t.span⟩ := by rw [← hspan]
  rw [he]
  exact Exec.keeps_throw ⟨Fault.miscounts_eq_false hcode, I.fault e.fault t hc⟩

-- ---------------------------------------------------------------------------
-- Operands and built-ins
-- ---------------------------------------------------------------------------

/-- The operands collected for an arity are as many as it says, taken from the stack. -/
theorem preserves_collect (arity : Arity) {caller : Token} (hc : I.caller caller) :
    I.Preserves (collect arity caller) fun xs =>
      arity.Collected xs ∧ ∀ t ∈ xs, I.token t := by
  cases arity with
  | variadic => exact Exec.keeps_pure ⟨rfl, fun _ h => absurd h List.not_mem_nil⟩
  | fixed n =>
    rw [collect]
    split
    · -- an arity beyond the buffer panics before anything is taken
      exact preserves_fail hc rfl
    refine Exec.keeps_get.bind fun m hm => ?_
    have htoks := I.stack m hm.2
    split
    · rename_i operands rest hpop
      obtain ⟨hsplit, hlen⟩ := Stack.popN?_eq_some hpop
      rw [hsplit] at htoks
      exact (Exec.keeps_set ⟨hm.1, I.restack m rest hm.2 fun t ht =>
          htoks t (List.mem_append_left _ ht)⟩).bind
        fun _ _ => Exec.keeps_pure ⟨hlen, fun t ht => htoks t (List.mem_append_right _ ht)⟩
    · -- too few items: the stack is emptied and the caller fails
      exact (Exec.keeps_set ⟨hm.1, I.restack m _ hm.2 fun t ht =>
        absurd ht List.not_mem_nil⟩).bind fun _ _ => preserves_fail hc rfl

/-- A combinator's operator comes from the table, and the token naming it stands where its name
was written. -/
theorem preserves_target {caller : Token} (hc : I.caller caller) (combinator : String)
    (wanted : Nat) :
    I.Preserves (target caller combinator wanted) fun r => I.Invokable r.1 ∧ I.caller r.2 := by
  refine preserves_pop?.bind fun r hr => ?_
  rcases r with _ | name
  · exact Exec.keeps_get.bind fun _ _ => preserves_fail hc rfl
  · have hn := I.named name (hr name rfl)
    refine (preserves_lookup? _).bind fun r hop => ?_
    rcases r with _ | op
    · exact preserves_fail hn rfl
    · dsimp only
      split
      · exact Exec.keeps_pure ⟨hop op rfl, hn⟩
      · exact preserves_fail hn rfl

/-- A built-in given the operands its arity collects: its results are such tokens, and what it
stores, defines or aliases keeps the table sound and the invariant. -/
theorem preserves_act (p : Primitive) {caller : Token} {operands : List Token}
    (hc : I.caller caller) (hcol : p.arity.Collected operands)
    (hops : ∀ t ∈ operands, I.token t) :
    I.Preserves (p.act caller operands) fun ys => ∀ y ∈ ys, I.token y := by
  -- an operand may be named by an error
  have hcall : ∀ t ∈ operands, I.caller t := fun t ht => I.caller_of_token t (hops t ht)
  -- results copied from the operands
  have hcopy : ∀ ys : List Token, ys ⊆ operands →
      I.Preserves (pure ys : Exec (List Token)) fun ys => ∀ y ∈ ys, I.token y :=
    fun ys hsub => Exec.keeps_pure fun y hy => hops y (hsub hy)
  have hnone : I.Preserves (pure [] : Exec (List Token)) fun ys => ∀ y ∈ ys, I.token y :=
    Exec.keeps_pure fun _ h => absurd h List.not_mem_nil
  cases p with
  | noop =>
    obtain rfl : operands = [] := List.length_eq_zero_iff.mp hcol
    exact hnone
  | binary op =>
    obtain ⟨a, b, rfl⟩ := List.length_eq_two.mp hcol
    simp only [Primitive.act]
    split
    · exact Exec.keeps_pure fun y hy => by
        rw [List.mem_singleton.mp hy]
        exact I.symbol _
    · rename_i e he
      obtain ⟨hcode, hspan⟩ := Binary.apply_error he
      have hne : e.code ≠ .internalError := by rw [hcode]; decide
      rcases hspan with hspan | hspan
      · exact preserves_throw (hcall a (by simp)) hspan hne
      · exact preserves_throw (hcall b (by simp)) hspan hne
  | not =>
    obtain ⟨a, rfl⟩ := List.length_eq_one_iff.mp hcol
    exact Exec.keeps_pure fun y hy => by
      rw [List.mem_singleton.mp hy]
      exact I.symbol _
  | print =>
    obtain ⟨a, rfl⟩ := List.length_eq_one_iff.mp hcol
    exact (preserves_print _).bind fun _ _ => hnone
  | dup =>
    obtain ⟨a, rfl⟩ := List.length_eq_one_iff.mp hcol
    exact hcopy _ (by simp)
  | swap =>
    obtain ⟨a, b, rfl⟩ := List.length_eq_two.mp hcol
    exact hcopy _ (by simp)
  | copySecond =>
    obtain ⟨a, b, rfl⟩ := List.length_eq_two.mp hcol
    exact hcopy _ (by simp)
  | pick =>
    obtain ⟨a, b, c, rfl⟩ := List.length_eq_three.mp hcol
    exact hcopy _ (by simp)
  | pop =>
    obtain rfl : operands = [] := hcol
    exact preserves_pop?.bind fun _ _ => hnone
  | clear =>
    obtain rfl : operands = [] := hcol
    exact preserves_drain.bind fun _ _ => hnone
  | range =>
    obtain ⟨start, stop, step, rfl⟩ := List.length_eq_three.mp hcol
    simp only [Primitive.act]
    split
    · exact Exec.keeps_pure fun y hy => by
        obtain ⟨x, -, rfl⟩ := List.mem_map.mp hy
        exact I.symbol _
    · rename_i e he
      obtain ⟨hcode, hspan⟩ := Range.values_error he
      have hne : e.code ≠ .internalError := by rcases hcode with h | h <;> rw [h] <;> decide
      rcases hspan with hspan | hspan | hspan | hspan
      · exact preserves_throw hc hspan hne
      · exact preserves_throw (hcall start (by simp)) hspan hne
      · exact preserves_throw (hcall stop (by simp)) hspan hne
      · exact preserves_throw (hcall step (by simp)) hspan hne
  | defineOp =>
    obtain ⟨name, arity, code, rfl⟩ := List.length_eq_three.mp hcol
    simp only [Primitive.act]
    split
    · rename_i a _
      -- the defined code is an operand
      refine Exec.Keeps.bind (Exec.keeps_modify fun m hm => ⟨hm.1.insert _
          (Operator.defined_sound a code), I.install m _ _ hm.2 fun c hb => ?_⟩)
        fun _ _ => hnone
      cases hb
      exact hops code (by simp)
    · rename_i e he
      obtain ⟨hcode, hspan⟩ := parseArity_error he
      exact preserves_throw (hcall arity (by simp)) hspan (by rw [hcode]; decide)
  | aliasOp =>
    obtain ⟨old, new, rfl⟩ := List.length_eq_two.mp hcol
    refine Exec.keeps_get.bind fun m hm => ?_
    split
    · -- the alias is the operator the table holds under the old name
      rename_i op hop
      refine Exec.Keeps.bind (Exec.keeps_modify fun m' hm' => ⟨hm'.1.insert _ (hm.1 _ op hop),
          I.install m' _ op hm'.2 fun c hb => I.code m _ op c hm.2 hop hb⟩) fun _ _ => hnone
    · exact preserves_fail (hcall old (by simp)) rfl
  | delOp =>
    obtain ⟨name, rfl⟩ := List.length_eq_one_iff.mp hcol
    exact (Exec.keeps_modify fun m hm => ⟨hm.1.erase _, I.remove m _ hm.2⟩).bind
      fun _ _ => hnone
  | store =>
    obtain ⟨val, name, rfl⟩ := List.length_eq_two.mp hcol
    exact (Exec.keeps_modify fun m hm => ⟨hm.1, I.store m _ val hm.2 (hops val (by simp))⟩).bind
      fun _ _ => hnone
  | load =>
    obtain ⟨name, rfl⟩ := List.length_eq_one_iff.mp hcol
    refine Exec.keeps_get.bind fun m hm => Exec.keeps_pure fun y hy => ?_
    exact I.load m _ y hm.2 (Option.mem_toList.mp hy)
  | delete =>
    obtain ⟨name, rfl⟩ := List.length_eq_one_iff.mp hcol
    exact (Exec.keeps_modify fun m hm => ⟨hm.1, I.forget m _ hm.2⟩).bind fun _ _ => hnone
  | pack =>
    obtain rfl : operands = [] := hcol
    exact preserves_drain.bind fun _ _ => Exec.keeps_pure fun y hy => by
      rw [List.mem_singleton.mp hy]
      exact I.symbol _

-- ---------------------------------------------------------------------------
-- Evaluation, one level at a time
-- ---------------------------------------------------------------------------

section Depth

variable {fuel : Nat}
  (hinv : ∀ op caller, I.Invokable op → I.caller caller →
    I.Preserves (invoke fuel op caller) fun _ => True)
include hinv

theorem preserves_execute {t : Token} (hc : I.caller t) (hs : t.kind = .symbol → I.token t) :
    I.Preserves (execute fuel t) fun _ => True := by
  rw [execute, Lifted.execute]
  split
  · rename_i hk
    exact preserves_push (hs hk)
  · refine (preserves_lookup? t.text).bind fun r hr => ?_
    rcases r with _ | op
    · exact preserves_fail hc rfl
    · exact hinv op t (hr op rfl) hc
  · exact preserves_fail hc rfl

/-- The scan of a renamed text, run token by token from any cursor it reaches. -/
theorem preserves_runFrom {ops : Table} {T R : String} {uid : Nat} {o : Origin} {E : Edits}
    (hT : I.text T o) (hh : hygiene ops T uid o = .ok (R, E)) (c : Cursor)
    (hc : Scan.Reaches R c) : I.Preserves (runFrom fuel E o c) fun _ => True := by
  rw [runFrom, Lifted.runFrom]
  refine Exec.keeps_get.bind fun m _ => ?_
  split
  · exact Exec.keeps_pure trivial
  · rename_i e he
    have hcode := Scan.next_error_lexical he
    exact Exec.keeps_throw ⟨Fault.miscounts_eq_false (ErrorCode.ne_of_lexical hcode),
      I.scan_error ops T uid o R E hT hh c hc _ e he⟩
  · rename_i t c' hn
    have : c'.rest.length < c.rest.length := Scan.next_rest_length hn
    obtain ⟨hcaller, hsym⟩ := I.placed ops T uid o R E hT hh c hc _ t c' hn
    refine (preserves_execute hinv hcaller fun hk => hsym ?_).bind fun _ _ =>
      preserves_runFrom hT hh c' (hc.step _ hn)
    rwa [place_kind] at hk
termination_by c.rest.length

theorem preserves_evaluateIn {T : String} {o : Origin} (hT : I.text T o) :
    I.Preserves (evaluateIn fuel T o) fun r => ∀ t, r = some t → I.token t := by
  rw [evaluateIn, Lifted.evaluateIn]
  refine preserves_takeUid.bind fun uid _ => Exec.keeps_get.bind fun m _ => ?_
  split
  · rename_i e he
    have hcode := hygiene_error_lexical he
    exact Exec.keeps_throw ⟨Fault.miscounts_eq_false (ErrorCode.ne_of_lexical hcode),
      I.hygiene_error _ T uid o e hT he⟩
  · rename_i R E hh
    -- the value is the top of the stack the run leaves
    exact (preserves_runFrom hinv hT hh _ .start).bind fun _ _ => Exec.keeps_get.bind
      fun m' hm' => Exec.keeps_pure fun t ht => I.stack m' hm'.2 t (Stack.mem_toList_of_peek? ht)

theorem preserves_evaluateToken {t : Token} (ht : I.token t) :
    I.Preserves (evaluateToken fuel t) fun r => ∀ t, r = some t → I.token t := by
  rw [evaluateToken, Lifted.evaluateToken]
  exact preserves_evaluateIn hinv (I.source t ht)

theorem preserves_apply {op : Operator} (hop : I.Invokable op) {name : Token}
    (hn : I.caller name) (combinator : String) :
    I.Preserves (apply fuel op name combinator) I.token := by
  rw [apply, Lifted.apply]
  refine (hinv op name hop hn).bind fun _ _ => preserves_drain.bind fun r hr => ?_
  split
  · rename_i x
    exact Exec.keeps_pure (hr x (List.mem_singleton_self x))
  · exact preserves_fail hn rfl
  · exact preserves_fail hn rfl

theorem preserves_fold {op : Operator} (hop : I.Invokable op) {name : Token}
    (hn : I.caller name) :
    ∀ (acc : Token) (xs : List Token), I.token acc → (∀ x ∈ xs, I.token x) →
      I.Preserves (fold fuel op name acc xs) I.token
  | acc, [], hacc, _ => by
    rw [fold, Lifted.fold]
    exact Exec.keeps_pure hacc
  | acc, x :: xs, hacc, hxs => by
    rw [fold, Lifted.fold]
    exact (preserves_push hacc).bind fun _ _ =>
      (preserves_push (hxs x (List.mem_cons_self ..))).bind fun _ _ =>
        (preserves_apply hinv hop hn _).bind fun acc' hacc' =>
          preserves_fold hop hn acc' xs hacc' fun y hy => hxs y (List.mem_cons_of_mem _ hy)

theorem preserves_mapAll {op : Operator} (hop : I.Invokable op) {name : Token}
    (hn : I.caller name) :
    ∀ xs : List Token, (∀ x ∈ xs, I.token x) →
      I.Preserves (mapAll fuel op name xs) fun ys => ∀ y ∈ ys, I.token y
  | [], _ => by
    rw [mapAll, Lifted.mapAll]
    exact Exec.keeps_pure fun _ h => absurd h List.not_mem_nil
  | x :: xs, hxs => by
    rw [mapAll, Lifted.mapAll]
    refine (preserves_push (hxs x (List.mem_cons_self ..))).bind fun _ _ =>
      (preserves_apply hinv hop hn _).bind fun r hr =>
        (preserves_mapAll hop hn xs fun y hy => hxs y (List.mem_cons_of_mem _ hy)).bind
          fun rs hrs => Exec.keeps_pure fun y hy => ?_
    rcases List.mem_cons.mp hy with rfl | hy
    · exact hr
    · exact hrs y hy

theorem preserves_filterAll {op : Operator} (hop : I.Invokable op) {name : Token}
    (hn : I.caller name) :
    ∀ xs : List Token, (∀ x ∈ xs, I.token x) →
      I.Preserves (filterAll fuel op name xs) fun ys => ∀ y ∈ ys, I.token y
  | [], _ => by
    rw [filterAll, Lifted.filterAll]
    exact Exec.keeps_pure fun _ h => absurd h List.not_mem_nil
  | x :: xs, hxs => by
    rw [filterAll, Lifted.filterAll]
    refine (preserves_push (hxs x (List.mem_cons_self ..))).bind fun _ _ =>
      (preserves_apply hinv hop hn _).bind fun _ _ =>
        (preserves_filterAll hop hn xs fun y hy => hxs y (List.mem_cons_of_mem _ hy)).bind
          fun rs hrs => Exec.keeps_pure fun y hy => ?_
    -- the items kept are items given
    split at hy
    · rcases List.mem_cons.mp hy with rfl | hy
      · exact hxs y (List.mem_cons_self ..)
      · exact hrs y hy
    · exact hrs y hy

/-- The built-ins that run code, given the operands their arity collects. -/
theorem preserves_control (c : Control) {caller : Token} {operands : List Token}
    (hc : I.caller caller) (hcol : c.arity.Collected operands)
    (hops : ∀ t ∈ operands, I.token t) :
    I.Preserves (control fuel c caller operands) fun ys => ∀ y ∈ ys, I.token y := by
  have hnone : I.Preserves (pure [] : Exec (List Token)) fun ys => ∀ y ∈ ys, I.token y :=
    Exec.keeps_pure fun _ h => absurd h List.not_mem_nil
  cases c with
  | ifElse =>
    obtain ⟨cond, yes, no, rfl⟩ := List.length_eq_three.mp hcol
    rw [control, Lifted.control]
    refine (preserves_evaluateToken hinv (hops cond (by simp))).bind fun _ _ =>
      preserves_pop?.bind fun r _ => ?_
    rcases r with _ | v
    · exact preserves_fail hc rfl
    · -- the branch taken is one of the operands
      have hbranch : I.token (if v.truthy then yes else no) := by
        split
        · exact hops yes (by simp)
        · exact hops no (by simp)
      exact (preserves_evaluateToken hinv hbranch).bind fun _ _ => hnone
  | eval =>
    obtain ⟨code, rfl⟩ := List.length_eq_one_iff.mp hcol
    rw [control, Lifted.control]
    exact (preserves_evaluateToken hinv (hops code (by simp))).bind fun _ _ => hnone
  | reduce =>
    rw [control, Lifted.control]
    refine (preserves_target hc _ _).bind fun r hr => preserves_drain.bind fun items hitems => ?_
    split
    · exact hnone
    · rename_i first rest
      refine (preserves_fold hinv hr.1 hr.2 first rest (hitems first (List.mem_cons_self ..))
        fun x hx => hitems x (List.mem_cons_of_mem _ hx)).bind fun acc hacc => ?_
      exact Exec.keeps_pure fun y hy => by
        rw [List.mem_singleton.mp hy]
        exact hacc
  | map =>
    rw [control, Lifted.control]
    exact (preserves_target hc _ _).bind fun r hr => preserves_drain.bind fun items hitems =>
      preserves_mapAll hinv hr.1 hr.2 items hitems
  | filter =>
    rw [control, Lifted.control]
    exact (preserves_target hc _ _).bind fun r hr => preserves_drain.bind fun items hitems =>
      preserves_filterAll hinv hr.1 hr.2 items hitems

end Depth

/-- One level deeper: invoking with one more unit of depth, given what the level below does. -/
theorem preserves_invoke_succ {fuel : Nat}
    (hctl : ∀ c caller operands, I.caller caller → (Control.arity c).Collected operands →
      (∀ t ∈ operands, I.token t) →
        I.Preserves (control fuel c caller operands) fun ys => ∀ y ∈ ys, I.token y)
    (htok : ∀ t, I.token t →
      I.Preserves (evaluateToken fuel t) fun r => ∀ t, r = some t → I.token t)
    {op : Operator} (hop : I.Invokable op) {caller : Token} (hc : I.caller caller) :
    I.Preserves (invoke (fuel + 1) op caller) fun _ => True := by
  rw [invoke, Lifted.invoke]
  refine (preserves_collect op.arity hc).bind fun operands hcol => ?_
  obtain ⟨hcol, hops⟩ := hcol
  split
  · -- a primitive reads the operands its stored arity collected
    rename_i p hb
    have harity : op.arity = Builtin.arity (.primitive p) := hop.1 _ hb
    rw [harity] at hcol
    exact (preserves_act p hc hcol hops).bind fun ys hys => preserves_pushAll hys
  · rename_i c hb
    have harity : op.arity = Builtin.arity (.control c) := hop.1 _ hb
    rw [harity] at hcol
    exact (hctl c caller operands hc hcol hops).bind fun ys hys => preserves_pushAll hys
  · -- defined code runs on its operands, given back
    rename_i code hb
    exact (preserves_pushAll hops).bind fun _ _ =>
      (htok code (hop.2 code hb)).bind fun _ _ => Exec.keeps_pure trivial

/-- Invoking an operator that may be invoked, at any depth, on behalf of a caller keeps the
invariant, keeps the table sound and never miscounts operands: by induction on the depth that
is left, each level built from the one below. -/
theorem preserves_invoke :
    ∀ (fuel : Nat) (op : Operator) (caller : Token), I.Invokable op → I.caller caller →
      I.Preserves (invoke fuel op caller) fun _ => True
  | 0, op, caller, _, hc => by
    rw [invoke, Lifted.invoke]
    exact preserves_fail hc rfl
  | fuel + 1, _, _, hop, hc =>
    preserves_invoke_succ
      (fun c _ _ hc' hcol hops => preserves_control (preserves_invoke fuel) c hc' hcol hops)
      (fun _ ht => preserves_evaluateToken (preserves_invoke fuel) ht) hop hc

/-- Evaluating a program keeps the invariant; the value it leaves is such a token. -/
theorem preserves_evaluate {P : String} (hP : I.text P .source) :
    I.Preserves (Machine.evaluate P) fun r => ∀ t, r = some t → I.token t :=
  preserves_evaluateIn (preserves_invoke _) hP

end Invariant

end Evaluation

-- ---------------------------------------------------------------------------
-- Sessions
-- ---------------------------------------------------------------------------

namespace Machine

/-- The machines a session can reach: a fresh one, and what entering any program leaves,
whether the program succeeds or fails. -/
inductive Reachable : Machine → Prop
  | fresh : Reachable {}
  | enter {m : Machine} (source : String) : Reachable m → Reachable (m.enter source).2

/-- An invariant of the fresh machine, under which every program may be evaluated, holds of
every machine a session reaches. -/
theorem Reachable.holds {I : Evaluation.Invariant} (hfresh : I.machine {})
    (htext : ∀ P, I.text P .source) {m : Machine} (h : Reachable m) : I.Holds m := by
  induction h with
  | fresh => exact ⟨Table.standard_sound, hfresh⟩
  | enter source _ ih => exact (Evaluation.Invariant.preserves_evaluate (htext source) _ ih).1

end Machine

end Concatenative
