import Concatenative.Proofs.Displacing

/-!
# Evaluation moved to the right

Two machines stand side by side (`Machine.Mirror n`) when the first holds what the second holds
with every span moved `n` bytes right, on the stack, in the registers and in the code of
defined operators, and nothing on either holds an `@`. Two computations mirror each other
(`Exec.Mirrors`) when, run on machines side by side, both succeed with related results or both
fail with the second's error moved, on machines side by side again, or else the first runs out
of depth (`Exec.Agree`). Sequencing keeps mirroring (`Exec.Mirrors.bind`), and each operation on
the machine mirrors itself on moved arguments.

Main results:
- `Evaluation.mirrors_evaluateIn`: a text without `@` evaluated through a moved origin mirrors
  the text evaluated through the origin, given that invoking mirrors itself one level down;
  the other evaluation functions have such a lemma too, in the section `Depth`.
- `Evaluation.mirrors_invoke`: invoking a moved operator mirrors invoking the operator, the first
  side any number of levels less deep than the second, by induction on the depth left to it.
-/

namespace Concatenative

-- ---------------------------------------------------------------------------
-- Directories related name by name
-- ---------------------------------------------------------------------------

namespace Directory

variable {α β : Type} {d : Directory α} {d' : Directory β} {f : β → α}

/-- Setting a name on both sides keeps two directories related through `f`. -/
theorem get?_insert_map (h : ∀ name, d.get? name = (d'.get? name).map f) (k : String) (v : β) :
    ∀ name, (d.insert k (f v)).get? name = ((d'.insert k v).get? name).map f := by
  intro name
  rw [get?_insert, get?_insert]
  split
  · rfl
  · exact h name

/-- Removing a name on both sides keeps two directories related through `f`. -/
theorem get?_erase_map (h : ∀ name, d.get? name = (d'.get? name).map f) (k : String) :
    ∀ name, (d.erase k).get? name = ((d'.erase k).get? name).map f := by
  intro name
  rw [get?_erase, get?_erase]
  split
  · rfl
  · exact h name

/-- Directories related through `f` name by name list their entries alike. -/
theorem entries_of_get?_eq_map (h : ∀ name, d.get? name = (d'.get? name).map f) :
    d.entries = d'.entries.map fun entry => (entry.1, f entry.2) := by
  have hequiv : d.tree.Equiv (d'.tree.map fun _ v => f v) :=
    Std.TreeMap.Equiv.of_forall_constGet?_eq fun k => by
      rw [Std.TreeMap.getElem?_map]
      exact h k
  unfold entries
  rw [Std.TreeMap.equiv_iff_toList_eq.mp hequiv, Std.TreeMap.toList_map]

end Directory

-- ---------------------------------------------------------------------------
-- Machines side by side
-- ---------------------------------------------------------------------------

/-- Two machines side by side: the first holds what the second holds moved `n` bytes right, on
the stack, in the registers and as the code of defined operators, and none of it holds an `@`;
both printed the same lines. Their counters may differ. -/
structure Machine.Mirror (n : Nat) (a b : Machine) : Prop where
  stack : a.stack = b.stack.map (Token.displace n)
  memory : ∀ name, a.memory.get? name = (b.memory.get? name).map (Token.displace n)
  ops : ∀ name, a.ops.get? name = (b.ops.get? name).map (Operator.displace n)
  output : a.output = b.output
  unmarkedStack : ∀ t ∈ b.stack.toList, t.Unmarked
  unmarkedMemory : ∀ name t, b.memory.get? name = some t → t.Unmarked
  unmarkedOps : ∀ name op, b.ops.get? name = some op → op.Unmarked
  sound : b.ops.Sound

namespace Machine.Mirror

variable {n : Nat} {a b : Machine}

/-- The same words are operators on both sides. -/
theorem contains (h : Mirror n a b) : a.ops.contains = b.ops.contains := by
  funext name
  rw [Directory.contains_eq_isSome_get?, Directory.contains_eq_isSome_get?, h.ops name,
    Option.isSome_map]

theorem restack (h : Mirror n a b) {s s' : Stack Token} (hs : s = s'.map (Token.displace n))
    (hu : ∀ t ∈ s'.toList, t.Unmarked) :
    Mirror n { a with stack := s } { b with stack := s' } :=
  { h with stack := hs, unmarkedStack := hu }

theorem store (h : Mirror n a b) (name : String) {t : Token} (ht : t.Unmarked) :
    Mirror n { a with memory := a.memory.insert name (t.displace n) }
      { b with memory := b.memory.insert name t } where
  __ := h
  memory := Directory.get?_insert_map h.memory name t
  unmarkedMemory := Directory.forall_get?_insert h.unmarkedMemory name ht

theorem forget (h : Mirror n a b) (name : String) :
    Mirror n { a with memory := a.memory.erase name } { b with memory := b.memory.erase name } where
  __ := h
  memory := Directory.get?_erase_map h.memory name
  unmarkedMemory := Directory.forall_get?_erase h.unmarkedMemory name

theorem install (h : Mirror n a b) (name : String) {op : Operator} (hop : op.Unmarked)
    (hsound : op.Sound) :
    Mirror n { a with ops := a.ops.insert name (op.displace n) }
      { b with ops := b.ops.insert name op } where
  __ := h
  ops := Directory.get?_insert_map h.ops name op
  unmarkedOps := Directory.forall_get?_insert h.unmarkedOps name hop
  sound := h.sound.insert name hsound

theorem remove (h : Mirror n a b) (name : String) :
    Mirror n { a with ops := a.ops.erase name } { b with ops := b.ops.erase name } where
  __ := h
  ops := Directory.get?_erase_map h.ops name
  unmarkedOps := Directory.forall_get?_erase h.unmarkedOps name
  sound := h.sound.erase name

theorem print (h : Mirror n a b) (line : String) :
    Mirror n { a with output := a.output.push line } { b with output := b.output.push line } :=
  { h with output := by rw [h.output] }

/-- The counters are not compared. -/
theorem count (h : Mirror n a b) (u u' : Nat) : Mirror n { a with uid := u } { b with uid := u' } :=
  { h with }

/-- A fresh machine beside a fresh machine: the standard table holds only built-ins, which
moving leaves as they are. -/
theorem fresh (n u : Nat) : Mirror n { uid := u } {} where
  stack := rfl
  memory name := by simp
  ops name := by
    show Table.standard.get? name = (Table.standard.get? name).map (Operator.displace n)
    cases h : Table.standard.get? name with
    | none => rfl
    | some op =>
      obtain ⟨b, rfl⟩ := Table.standard_builtin h
      rfl
  output := rfl
  unmarkedStack _ ht := absurd ht List.not_mem_nil
  unmarkedMemory name t h := by simp at h
  unmarkedOps name op h := by
    obtain ⟨b, rfl⟩ := Table.standard_builtin h
    exact Operator.unmarked_builtin b
  sound := Table.standard_sound

end Machine.Mirror

-- ---------------------------------------------------------------------------
-- Computations side by side
-- ---------------------------------------------------------------------------

namespace Exec

variable {α β γ δ : Type} {n : Nat}

/-- How two runs side by side may end: both succeed, with results related by `post`, or both
fail, the first with the second's error moved `n` bytes right, and either way on machines side
by side; or else the first goes deeper than evaluation may nest, whatever the second does. -/
inductive Agree (n : Nat) (post : α → β → Prop) :
    Except Error α × Machine → Except Error β × Machine → Prop
  | ok {r : α} {r' : β} {a b : Machine} : post r r' → Machine.Mirror n a b →
      Agree n post (.ok r, a) (.ok r', b)
  | error {e : Error} {a b : Machine} : Machine.Mirror n a b →
      Agree n post (.error (e.displace n), a) (.error e, b)
  | deep {e : Error} {a : Machine} {y : Except Error β × Machine} : e.code = .recursionLimit →
      Agree n post (.error e, a) y

/-- `x` mirrors `x'` at `n` bytes: run on machines side by side, they end as `Agree` says. -/
def Mirrors (n : Nat) (x : Exec α) (x' : Exec β) (post : α → β → Prop) : Prop :=
  ∀ a b, Machine.Mirror n a b → Agree n post (x.run.run a) (x'.run.run b)

/-- The sequencing rule: what the first steps promise of their results is what the rest may
assume. -/
theorem Mirrors.bind {x : Exec α} {x' : Exec β} {f : α → Exec γ} {f' : β → Exec δ}
    {p : α → β → Prop} {q : γ → δ → Prop} (hx : Mirrors n x x' p)
    (hf : ∀ r r', p r r' → Mirrors n (f r) (f' r') q) : Mirrors n (x >>= f) (x' >>= f') q := by
  intro a b hab
  have hrun := hx a b hab
  simp only [ExceptT.run_bind, StateT.run_bind]
  revert hrun
  rcases x.run.run a with ⟨e | r, a₁⟩ <;> rcases x'.run.run b with ⟨e' | r', b₁⟩ <;>
    intro hrun
  · -- both failed: the error ends both sides
    cases hrun with
    | error hm => exact .error hm
    | deep hd => exact .deep hd
  · cases hrun with
    | deep hd => exact .deep hd
  · cases hrun
  · cases hrun with
    | ok hp hm => exact hf r r' hp a₁ b₁ hm

theorem mirrors_pure {r : α} {r' : β} {post : α → β → Prop} (h : post r r') :
    Mirrors n (pure r : Exec α) (pure r' : Exec β) post :=
  fun _ _ hab => .ok h hab

theorem mirrors_throw (e : Error) {post : α → β → Prop} :
    Mirrors n (throw (e.displace n) : Exec α) (throw e : Exec β) post :=
  fun _ _ hab => .error hab

theorem mirrors_fail (fault : Fault) (span : Option Span) {post : α → β → Prop} :
    Mirrors n (fail fault (span.map (·.shift n)) : Exec α) (fail fault span : Exec β) post :=
  mirrors_throw ⟨fault, span⟩

/-- Running out of depth ends the first side, whatever the second does. -/
theorem mirrors_deep (depth : Nat) (span : Option Span) (x' : Exec β) {post : α → β → Prop} :
    Mirrors n (fail (.tooDeep depth) span : Exec α) x' post :=
  fun _ _ _ => .deep rfl

theorem mirrors_get : Mirrors n (get : Exec Machine) (get : Exec Machine) (Machine.Mirror n) :=
  fun _ _ hab => .ok hab hab

theorem mirrors_set {a b : Machine} (h : Machine.Mirror n a b) :
    Mirrors n (set a : Exec Unit) (set b : Exec Unit) fun _ _ => True :=
  fun _ _ _ => .ok trivial h

theorem mirrors_modify {f g : Machine → Machine}
    (h : ∀ a b, Machine.Mirror n a b → Machine.Mirror n (f a) (g b)) :
    Mirrors n (modify f : Exec Unit) (modify g : Exec Unit) fun _ _ => True :=
  fun a b hab => .ok trivial (h a b hab)

end Exec

-- ---------------------------------------------------------------------------
-- The operations on the machine, side by side
-- ---------------------------------------------------------------------------

namespace Exec

variable {n : Nat}

theorem mirrors_pushAll {ts : List Token} (hts : ∀ t ∈ ts, t.Unmarked) :
    Mirrors n (pushAll (ts.map (Token.displace n))) (pushAll ts) fun _ _ => True := by
  intro a b hab
  rw [run_pushAll, run_pushAll]
  refine .ok trivial (hab.restack (by rw [hab.stack, Stack.map_pushAll]) fun t ht => ?_)
  rw [Stack.toList_pushAll, List.mem_append] at ht
  rcases ht with ht | ht
  · exact hab.unmarkedStack t ht
  · exact hts t ht

theorem mirrors_push {t : Token} (ht : t.Unmarked) :
    Mirrors n (push (t.displace n)) (push t) fun _ _ => True := by
  intro a b hab
  rw [run_push, run_push]
  refine .ok trivial (hab.restack (by rw [hab.stack, Stack.map_push]) fun x hx => ?_)
  rw [Stack.toList_push, List.mem_append, List.mem_singleton] at hx
  rcases hx with hx | rfl
  · exact hab.unmarkedStack x hx
  · exact ht

/-- Nothing, on both sides. -/
theorem mirrors_nil :
    Mirrors n (pure [] : Exec (List Token)) (pure [])
      fun ys ys' => ys = ys'.map (Token.displace n) ∧ ∀ t ∈ ys', t.Unmarked :=
  mirrors_pure ⟨rfl, fun _ h => absurd h List.not_mem_nil⟩

theorem mirrors_pop? :
    Mirrors n pop? pop? fun r r' => r = r'.map (Token.displace n) ∧ ∀ t ∈ r', t.Unmarked := by
  intro a b hab
  unfold pop?
  rw [run_get_bind, run_get_bind, hab.stack, Stack.pop?_map]
  cases hp : b.stack.pop? with
  | none => exact .ok ⟨rfl, fun _ h => nomatch h⟩ hab
  | some p =>
    obtain ⟨t, rest⟩ := p
    -- the top and the rest were on the stack
    have hsplit := Stack.pop?_eq_some hp
    have hu := hab.unmarkedStack
    rw [hsplit] at hu
    exact .ok ⟨rfl, fun x hx => by
        cases hx
        exact hu t (List.mem_append_right _ (List.mem_singleton_self t))⟩
      (hab.restack rfl fun x hx => hu x (List.mem_append_left _ hx))

theorem mirrors_drain :
    Mirrors n drain drain
      fun ts ts' => ts = ts'.map (Token.displace n) ∧ ∀ t ∈ ts', t.Unmarked := by
  intro a b hab
  rw [run_drain, run_drain]
  exact .ok ⟨by rw [hab.stack, Stack.toList_map], hab.unmarkedStack⟩
    (hab.restack (Stack.map_empty _).symm fun t ht => absurd ht List.not_mem_nil)

theorem mirrors_print (line : String) : Mirrors n (print line) (print line) fun _ _ => True := by
  intro a b hab
  rw [run_print, run_print]
  exact .ok trivial (hab.print line)

theorem mirrors_takeUid : Mirrors n takeUid takeUid fun _ _ => True := by
  intro a b hab
  rw [run_takeUid, run_takeUid]
  exact .ok trivial (hab.count _ _)

theorem mirrors_lookup? (name : String) :
    Mirrors n (lookup? name) (lookup? name) fun r r' =>
      r = r'.map (Operator.displace n) ∧ ∀ op ∈ r', op.Unmarked ∧ op.Sound := by
  intro a b hab
  rw [run_lookup?, run_lookup?]
  exact .ok ⟨hab.ops name, fun op hop => ⟨hab.unmarkedOps name op hop, hab.sound name op hop⟩⟩
    hab

end Exec

-- ---------------------------------------------------------------------------
-- Operands and built-ins, side by side
-- ---------------------------------------------------------------------------

namespace Evaluation

open Exec

variable {n : Nat}

/-- Operands come off both stacks alike; too few empties both stacks and fails at the caller,
and too large an arity panics on both sides. -/
theorem mirrors_collect (arity : Arity) (caller : Token) :
    Mirrors n (collect arity (caller.displace n)) (collect arity caller) fun xs xs' =>
      xs = xs'.map (Token.displace n) ∧ arity.Collected xs' ∧ ∀ t ∈ xs', t.Unmarked := by
  cases arity with
  | variadic => exact mirrors_pure ⟨rfl, rfl, fun _ h => absurd h List.not_mem_nil⟩
  | fixed k =>
    rw [collect, collect]
    by_cases hcap : operandLimit < k
    · simp only [hcap, if_true]
      exact mirrors_fail _ _
    simp only [hcap, if_false]
    refine mirrors_get.bind fun a b hab => ?_
    rw [hab.stack, Stack.popN?_map]
    cases hp : b.stack.popN? k with
    | some p =>
      obtain ⟨operands, rest⟩ := p
      obtain ⟨hsplit, hlen⟩ := Stack.popN?_eq_some hp
      have hu := hab.unmarkedStack
      rw [hsplit] at hu
      exact (mirrors_set (hab.restack rfl fun t ht => hu t (List.mem_append_left _ ht))).bind
        fun _ _ _ => mirrors_pure ⟨rfl, hlen, fun t ht => hu t (List.mem_append_right _ ht)⟩
    | none =>
      -- both stacks are emptied, and the error names the same items
      have hfault : Fault.underflow (caller.displace n).serialize k
          (b.stack.map (Token.displace n)).toList.length
          (((b.stack.map (Token.displace n)).toList.head?).map Token.serialize) =
          Fault.underflow caller.serialize k b.stack.toList.length
            (b.stack.toList.head?.map Token.serialize) := by
        simp [List.head?_map, Option.map_map, Function.comp_def]
      simp only [Option.map_none]
      rw [hfault]
      exact (mirrors_set (hab.restack (Stack.map_empty _).symm fun t ht =>
        absurd ht List.not_mem_nil)).bind fun _ _ _ => mirrors_fail _ _

/-- A combinator finds the same operator on both sides, named by the same token, moved. -/
theorem mirrors_target (caller : Token) (combinator : String) (wanted : Nat) :
    Mirrors n (target (caller.displace n) combinator wanted) (target caller combinator wanted)
      fun r r' => r = (r'.1.displace n, r'.2.displace n) ∧ r'.1.Unmarked ∧ r'.1.Sound := by
  unfold target
  refine mirrors_pop?.bind fun r r' hr => ?_
  obtain ⟨rfl, -⟩ := hr
  cases r' with
  | none =>
    refine mirrors_get.bind fun a b hab => ?_
    rw [hab.stack, Stack.size_map]
    exact mirrors_fail _ _
  | some name =>
    simp only [Option.map_some, Token.text_displace]
    refine (mirrors_lookup? name.text).bind fun r r' hr => ?_
    obtain ⟨rfl, hops⟩ := hr
    cases r' with
    | none => exact mirrors_fail _ _
    | some op =>
      obtain ⟨hu, hsound⟩ := hops op rfl
      simp only [Option.map_some]
      by_cases hw : op.arity = .fixed wanted
      · simp only [Operator.arity_displace, hw, ↓reduceIte]
        exact mirrors_pure ⟨rfl, hu, hsound⟩
      · simp only [Operator.arity_displace, hw, ↓reduceIte]
        exact mirrors_fail _ _

/-- A built-in given the operands its arity collects acts alike on both sides: the values it
makes are the same and hold no `@`, what it copies or loads is moved, and its errors stand at
the moved operator or operands. -/
theorem mirrors_act (p : Primitive) (caller : Token) {operands : List Token}
    (hcol : p.arity.Collected operands) (hops : ∀ t ∈ operands, t.Unmarked) :
    Mirrors n (p.act (caller.displace n) (operands.map (Token.displace n))) (p.act caller operands)
      fun ys ys' => ys = ys'.map (Token.displace n) ∧ ∀ t ∈ ys', t.Unmarked := by
  -- results copied from the operands
  have hcopy : ∀ ys : List Token, ys ⊆ operands →
      Mirrors n (pure (ys.map (Token.displace n)) : Exec (List Token)) (pure ys)
        fun ys ys' => ys = ys'.map (Token.displace n) ∧ ∀ t ∈ ys', t.Unmarked :=
    fun ys hsub => mirrors_pure ⟨rfl, fun t ht => hops t (hsub ht)⟩
  cases p with
  | noop =>
    obtain rfl : operands = [] := List.length_eq_zero_iff.mp hcol
    exact mirrors_nil
  | binary op =>
    obtain ⟨a, b, rfl⟩ := List.length_eq_two.mp hcol
    simp only [List.map_cons, List.map_nil, Primitive.act, Binary.apply_displace]
    cases h : op.apply a b with
    | ok v =>
      exact mirrors_pure ⟨rfl, fun t ht => by
        rw [List.mem_singleton.mp ht]
        exact Binary.apply_unmarked (hops a (by simp)) (hops b (by simp)) h⟩
    | error e => exact mirrors_throw e
  | not =>
    obtain ⟨a, rfl⟩ := List.length_eq_one_iff.mp hcol
    exact mirrors_pure ⟨rfl, fun t ht => by
      rw [List.mem_singleton.mp ht]
      exact Value.unmarked_boolean _⟩
  | print =>
    obtain ⟨a, rfl⟩ := List.length_eq_one_iff.mp hcol
    exact (mirrors_print a.text).bind fun _ _ _ => mirrors_nil
  | dup =>
    obtain ⟨a, rfl⟩ := List.length_eq_one_iff.mp hcol
    exact hcopy [a, a] (by simp)
  | swap =>
    obtain ⟨a, b, rfl⟩ := List.length_eq_two.mp hcol
    exact hcopy [b, a] (by simp)
  | copySecond =>
    obtain ⟨a, b, rfl⟩ := List.length_eq_two.mp hcol
    exact hcopy [a, b, a] (by simp)
  | pick =>
    obtain ⟨a, b, c, rfl⟩ := List.length_eq_three.mp hcol
    exact hcopy [a, b, c, a] (by simp)
  | pop =>
    obtain rfl : operands = [] := hcol
    exact mirrors_pop?.bind fun _ _ _ => mirrors_nil
  | clear =>
    obtain rfl : operands = [] := hcol
    exact mirrors_drain.bind fun _ _ _ => mirrors_nil
  | range =>
    obtain ⟨start, stop, step, rfl⟩ := List.length_eq_three.mp hcol
    simp only [List.map_cons, List.map_nil, Primitive.act, Range.values_displace]
    cases Range.values caller start stop step with
    | ok xs =>
      exact mirrors_pure ⟨by simp [List.map_map, Function.comp_def], fun t ht => by
        obtain ⟨x, -, rfl⟩ := List.mem_map.mp ht
        exact Value.unmarked_number x⟩
    | error e => exact mirrors_throw e
  | defineOp =>
    obtain ⟨name, arity, code, rfl⟩ := List.length_eq_three.mp hcol
    simp only [List.map_cons, List.map_nil, Primitive.act, parseArity_displace]
    cases parseArity arity with
    | ok a =>
      -- the defined code is an operand, moved
      have hcode : (⟨a, .defined code⟩ : Operator).Unmarked := by
        intro c hc
        cases hc
        exact hops code (by simp)
      exact (mirrors_modify fun x y hxy =>
        hxy.install name.text hcode (Operator.defined_sound a code)).bind fun _ _ _ => mirrors_nil
    | error e => exact mirrors_throw e
  | aliasOp =>
    obtain ⟨old, new, rfl⟩ := List.length_eq_two.mp hcol
    simp only [List.map_cons, List.map_nil, Primitive.act, Token.text_displace]
    refine mirrors_get.bind fun a b hab => ?_
    rw [hab.ops old.text]
    cases hop : b.ops.get? old.text with
    | some op =>
      -- the alias is the operator the table holds under the old name
      exact (mirrors_modify fun x y hxy => hxy.install new.text
        (hab.unmarkedOps _ op hop) (hab.sound _ op hop)).bind fun _ _ _ => mirrors_nil
    | none => exact mirrors_fail _ _
  | delOp =>
    obtain ⟨name, rfl⟩ := List.length_eq_one_iff.mp hcol
    exact (mirrors_modify fun x y hxy => hxy.remove name.text).bind fun _ _ _ => mirrors_nil
  | store =>
    obtain ⟨val, name, rfl⟩ := List.length_eq_two.mp hcol
    exact (mirrors_modify fun x y hxy => hxy.store name.text (hops val (by simp))).bind
      fun _ _ _ => mirrors_nil
  | load =>
    obtain ⟨name, rfl⟩ := List.length_eq_one_iff.mp hcol
    simp only [List.map_cons, List.map_nil, Primitive.act, Token.text_displace]
    refine mirrors_get.bind fun a b hab => ?_
    rw [hab.memory name.text]
    exact mirrors_pure ⟨by cases b.memory.get? name.text <;> rfl, fun t ht =>
      hab.unmarkedMemory _ t (Option.mem_toList.mp ht)⟩
  | delete =>
    obtain ⟨name, rfl⟩ := List.length_eq_one_iff.mp hcol
    exact (mirrors_modify fun x y hxy => hxy.forget name.text).bind fun _ _ _ => mirrors_nil
  | pack =>
    obtain rfl : operands = [] := hcol
    refine mirrors_drain.bind fun ts ts' hts => ?_
    obtain ⟨rfl, hu⟩ := hts
    exact mirrors_pure ⟨by simp [List.map_map, Function.comp_def], fun t ht => by
      rw [List.mem_singleton.mp ht]
      exact unmarked_intercalate _ fun s hs => by
        obtain ⟨x, hx, rfl⟩ := List.mem_map.mp hs
        exact Token.serialize_unmarked (hu x hx)⟩
-- ---------------------------------------------------------------------------
-- Evaluation side by side, one level at a time
-- ---------------------------------------------------------------------------

section Depth

variable {k k' : Nat}
  (hinv : ∀ op caller, op.Unmarked → op.Sound →
    Mirrors n (invoke k (op.displace n) (caller.displace n)) (invoke k' op caller) fun _ _ => True)
include hinv

theorem mirrors_execute {t : Token} (ht : t.kind = .symbol → t.Unmarked) :
    Mirrors n (execute k (t.displace n)) (execute k' t) fun _ _ => True := by
  rw [execute, Lifted.execute, execute, Lifted.execute, Token.kind_displace]
  cases hk : t.kind with
  | symbol => exact mirrors_push (ht hk)
  | operator =>
    refine (mirrors_lookup? t.text).bind fun r r' hr => ?_
    obtain ⟨rfl, hops⟩ := hr
    cases r' with
    | none => exact mirrors_fail _ _
    | some op =>
      obtain ⟨hu, hsound⟩ := hops op rfl
      exact hinv op t hu hsound
  | localName => exact mirrors_fail _ _

/-- The rest of a text without `@`, run token by token through an origin and through the
origin moved: each token is placed moved, and a scan error is relocated moved. -/
theorem mirrors_runFrom (E : Edits) (o : Origin) (c : Cursor) (hc : '@' ∉ c.rest) :
    Mirrors n (runFrom k E (o.displace n) c) (runFrom k' E o c) fun _ _ => True := by
  intro a b hab
  have hvocab := hab.contains
  cases hn : Scan.next Rule.standard b.ops.contains c with
  | error e =>
    rw [runFrom_of_next_error (by rw [hvocab]; exact hn), runFrom_of_next_error hn]
    rw [show Origin.within 0 E (o.displace n) = (Origin.within 0 E o).displace n from rfl,
      Error.relocate_displace]
    exact .error hab
  | ok r =>
    rcases r with _ | ⟨t, c'⟩
    · rw [runFrom_of_next_none (by rw [hvocab]; exact hn), runFrom_of_next_none hn]
      exact .ok trivial hab
    · have : c'.rest.length < c.rest.length := Scan.next_rest_length hn
      obtain ⟨horigin, hu, -, hc'⟩ := Scan.next_fresh hn hc
      rw [runFrom_step (by rw [hvocab]; exact hn), runFrom_step hn, place_displace n E o horigin]
      exact ((mirrors_execute hinv fun _ => by simpa [Token.Unmarked] using hu).bind
        fun _ _ _ => mirrors_runFrom E o c' hc') a b hab
termination_by c.rest.length

theorem mirrors_evaluateIn {T : String} (hT : '@' ∉ T.toList) (o : Origin) :
    Mirrors n (evaluateIn k T (o.displace n)) (evaluateIn k' T o)
      fun r r' => r = r'.map (Token.displace n) ∧ ∀ t ∈ r', t.Unmarked := by
  rw [evaluateIn, Lifted.evaluateIn, evaluateIn, Lifted.evaluateIn]
  refine mirrors_takeUid.bind fun u u' _ => mirrors_get.bind fun a b hab => ?_
  rw [hygiene_unmarked _ _ _ hT, hygiene_unmarked _ _ _ hT, hab.contains]
  cases (Scan.tokens Rule.standard b.ops.contains T).2 with
  | some e =>
    dsimp only
    rw [Error.relocate_displace]
    exact mirrors_throw _
  | none =>
    dsimp only
    -- the value is the top of the stack the run leaves
    refine (mirrors_runFrom hinv {} o (Cursor.start T) hT).bind fun _ _ _ =>
      mirrors_get.bind fun a' b' hab' => mirrors_pure ⟨?_, fun t ht => ?_⟩
    · rw [hab'.stack, Stack.peek?_map]
    · exact hab'.unmarkedStack t (Stack.mem_toList_of_peek? ht)

theorem mirrors_evaluateToken {t : Token} (ht : t.Unmarked) :
    Mirrors n (evaluateToken k (t.displace n)) (evaluateToken k' t)
      fun r r' => r = r'.map (Token.displace n) ∧ ∀ t ∈ r', t.Unmarked := by
  rw [evaluateToken, Lifted.evaluateToken, evaluateToken, Lifted.evaluateToken, Token.source_displace, Token.textOrigin_displace]
  exact mirrors_evaluateIn hinv (by rw [Token.source_eq_text]; exact ht) t.textOrigin

theorem mirrors_apply {op : Operator} (hu : op.Unmarked) (hs : op.Sound) (name : Token)
    (combinator : String) :
    Mirrors n (apply k (op.displace n) (name.displace n) combinator) (apply k' op name combinator)
      fun r r' => r = r'.displace n ∧ r'.Unmarked := by
  rw [apply, Lifted.apply, apply, Lifted.apply]
  refine (hinv op name hu hs).bind fun _ _ _ => mirrors_drain.bind fun rs rs' hrs => ?_
  obtain ⟨rfl, hrs⟩ := hrs
  rcases rs' with _ | ⟨r, _ | ⟨r₂, rest⟩⟩
  · exact mirrors_fail _ _
  · exact mirrors_pure ⟨rfl, hrs r (List.mem_singleton_self r)⟩
  · exact mirrors_fail _ _

theorem mirrors_fold {op : Operator} (hu : op.Unmarked) (hs : op.Sound) (name : Token) :
    ∀ (acc : Token) (xs : List Token), acc.Unmarked → (∀ x ∈ xs, x.Unmarked) →
      Mirrors n (fold k (op.displace n) (name.displace n) (acc.displace n)
          (xs.map (Token.displace n)))
        (fold k' op name acc xs) fun r r' => r = r'.displace n ∧ r'.Unmarked
  | acc, [], hacc, _ => by
    rw [List.map_nil, fold, Lifted.fold, fold, Lifted.fold]
    exact mirrors_pure ⟨rfl, hacc⟩
  | acc, x :: xs, hacc, hxs => by
    rw [List.map_cons, fold, Lifted.fold, fold, Lifted.fold]
    refine (mirrors_push hacc).bind fun _ _ _ =>
      (mirrors_push (hxs x (List.mem_cons_self ..))).bind fun _ _ _ =>
        (mirrors_apply hinv hu hs name _).bind fun r r' hr => ?_
    obtain ⟨rfl, hr⟩ := hr
    exact mirrors_fold hu hs name r' xs hr fun y hy => hxs y (List.mem_cons_of_mem _ hy)

theorem mirrors_mapAll {op : Operator} (hu : op.Unmarked) (hs : op.Sound) (name : Token) :
    ∀ xs : List Token, (∀ x ∈ xs, x.Unmarked) →
      Mirrors n (mapAll k (op.displace n) (name.displace n) (xs.map (Token.displace n)))
        (mapAll k' op name xs)
        fun ys ys' => ys = ys'.map (Token.displace n) ∧ ∀ y ∈ ys', y.Unmarked
  | [], _ => by
    rw [List.map_nil, mapAll, Lifted.mapAll, mapAll, Lifted.mapAll]
    exact mirrors_nil
  | x :: xs, hxs => by
    rw [List.map_cons, mapAll, Lifted.mapAll, mapAll, Lifted.mapAll]
    refine (mirrors_push (hxs x (List.mem_cons_self ..))).bind fun _ _ _ =>
      (mirrors_apply hinv hu hs name _).bind fun r r' hr =>
        (mirrors_mapAll hu hs name xs fun y hy => hxs y (List.mem_cons_of_mem _ hy)).bind
          fun rs rs' hrs => mirrors_pure ⟨by rw [hr.1, hrs.1, List.map_cons], fun y hy => ?_⟩
    rcases List.mem_cons.mp hy with rfl | hy
    · exact hr.2
    · exact hrs.2 y hy

theorem mirrors_filterAll {op : Operator} (hu : op.Unmarked) (hs : op.Sound) (name : Token) :
    ∀ xs : List Token, (∀ x ∈ xs, x.Unmarked) →
      Mirrors n (filterAll k (op.displace n) (name.displace n) (xs.map (Token.displace n)))
        (filterAll k' op name xs)
        fun ys ys' => ys = ys'.map (Token.displace n) ∧ ∀ y ∈ ys', y.Unmarked
  | [], _ => by
    rw [List.map_nil, filterAll, Lifted.filterAll, filterAll, Lifted.filterAll]
    exact mirrors_nil
  | x :: xs, hxs => by
    rw [List.map_cons, filterAll, Lifted.filterAll, filterAll, Lifted.filterAll]
    refine (mirrors_push (hxs x (List.mem_cons_self ..))).bind fun _ _ _ =>
      (mirrors_apply hinv hu hs name _).bind fun r r' hr =>
        (mirrors_filterAll hu hs name xs fun y hy => hxs y (List.mem_cons_of_mem _ hy)).bind
          fun rs rs' hrs => ?_
    obtain ⟨rfl, -⟩ := hr
    obtain ⟨rfl, hrs⟩ := hrs
    -- the same verdict keeps the same items
    rw [Token.truthy_displace]
    by_cases hr : r'.truthy = true
    · rw [if_pos hr, if_pos hr]
      exact mirrors_pure ⟨rfl, fun y hy => by
        rcases List.mem_cons.mp hy with rfl | hy
        · exact hxs y (List.mem_cons_self ..)
        · exact hrs y hy⟩
    · rw [if_neg hr, if_neg hr]
      exact mirrors_pure ⟨rfl, hrs⟩

/-- The built-ins that run code, given the operands their arity collects. -/
theorem mirrors_control (c : Control) (caller : Token) {operands : List Token}
    (hcol : c.arity.Collected operands) (hops : ∀ t ∈ operands, t.Unmarked) :
    Mirrors n (control k c (caller.displace n) (operands.map (Token.displace n)))
      (control k' c caller operands)
      fun ys ys' => ys = ys'.map (Token.displace n) ∧ ∀ t ∈ ys', t.Unmarked := by
  cases c with
  | ifElse =>
    obtain ⟨cond, yes, no, rfl⟩ := List.length_eq_three.mp hcol
    simp only [List.map_cons, List.map_nil]
    rw [control, Lifted.control, control, Lifted.control]
    refine (mirrors_evaluateToken hinv (hops cond (by simp))).bind fun _ _ _ =>
      mirrors_pop?.bind fun r r' hr => ?_
    obtain ⟨rfl, -⟩ := hr
    cases r' with
    | none => exact mirrors_fail _ _
    | some v =>
      -- the branch taken is the same operand on both sides
      have hbranch : (if (v.displace n).truthy then yes.displace n else no.displace n) =
          (if v.truthy then yes else no).displace n := by
        rw [Token.truthy_displace]
        split <;> rfl
      have hu : (if v.truthy then yes else no).Unmarked := by
        split
        · exact hops yes (by simp)
        · exact hops no (by simp)
      simp only [Option.map_some]
      rw [hbranch]
      exact (mirrors_evaluateToken hinv hu).bind fun _ _ _ => mirrors_nil
  | eval =>
    obtain ⟨code, rfl⟩ := List.length_eq_one_iff.mp hcol
    simp only [List.map_cons, List.map_nil]
    rw [control, Lifted.control, control, Lifted.control]
    exact (mirrors_evaluateToken hinv (hops code (by simp))).bind fun _ _ _ => mirrors_nil
  | reduce =>
    rw [control, Lifted.control, control, Lifted.control]
    refine (mirrors_target caller _ _).bind fun r r' hr => ?_
    obtain ⟨rfl, hu, hs⟩ := hr
    refine mirrors_drain.bind fun items items' hitems => ?_
    obtain ⟨rfl, hitems⟩ := hitems
    cases items' with
    | nil => exact mirrors_nil
    | cons first rest =>
      refine (mirrors_fold hinv hu hs r'.2 first rest (hitems first (List.mem_cons_self ..))
        fun x hx => hitems x (List.mem_cons_of_mem _ hx)).bind fun acc acc' hacc => ?_
      exact mirrors_pure ⟨by rw [hacc.1, List.map_singleton], fun y hy => by
        rw [List.mem_singleton.mp hy]
        exact hacc.2⟩
  | map =>
    rw [control, Lifted.control, control, Lifted.control]
    exact (mirrors_target caller _ _).bind fun r r' hr => by
      obtain ⟨rfl, hu, hs⟩ := hr
      exact mirrors_drain.bind fun items items' hitems => by
        obtain ⟨rfl, hitems⟩ := hitems
        exact mirrors_mapAll hinv hu hs r'.2 items' hitems
  | filter =>
    rw [control, Lifted.control, control, Lifted.control]
    exact (mirrors_target caller _ _).bind fun r r' hr => by
      obtain ⟨rfl, hu, hs⟩ := hr
      exact mirrors_drain.bind fun items items' hitems => by
        obtain ⟨rfl, hitems⟩ := hitems
        exact mirrors_filterAll hinv hu hs r'.2 items' hitems

end Depth

/-- One level deeper on both sides, given what invoking does on the levels below. -/
theorem mirrors_invoke_succ {k k' : Nat}
    (hinv : ∀ op caller, op.Unmarked → op.Sound →
      Mirrors n (invoke k (op.displace n) (caller.displace n)) (invoke k' op caller)
        fun _ _ => True)
    {op : Operator} (hu : op.Unmarked) (hs : op.Sound) (caller : Token) :
    Mirrors n (invoke (k + 1) (op.displace n) (caller.displace n)) (invoke (k' + 1) op caller)
      fun _ _ => True := by
  rw [invoke, Lifted.invoke, invoke, Lifted.invoke, Operator.arity_displace]
  refine (mirrors_collect op.arity caller).bind fun operands operands' hops => ?_
  obtain ⟨rfl, hcol, hops⟩ := hops
  obtain ⟨arity, behaviour⟩ := op
  cases behaviour with
  | native b =>
    -- a built-in reads the operands its stored arity collected
    have harity : arity = b.arity := hs b rfl
    subst harity
    cases b with
    | primitive p =>
      exact (mirrors_act p caller hcol hops).bind fun ys ys' hys => by
        obtain ⟨rfl, hys⟩ := hys
        exact mirrors_pushAll hys
    | control c =>
      exact (mirrors_control hinv c caller hcol hops).bind fun ys ys' hys => by
        obtain ⟨rfl, hys⟩ := hys
        exact mirrors_pushAll hys
  | defined code =>
    -- defined code runs on its operands, given back
    exact (mirrors_pushAll hops).bind fun _ _ _ =>
      (mirrors_evaluateToken hinv (hu code rfl)).bind fun _ _ _ => mirrors_pure trivial

/-- Invoking an operator on machines side by side, the first `d` levels less deep than the
second: by induction on the depth left to the first, which runs out first. -/
theorem mirrors_invoke (d : Nat) :
    ∀ (k : Nat) (op : Operator) (caller : Token), op.Unmarked → op.Sound →
      Mirrors n (invoke k (op.displace n) (caller.displace n)) (invoke (k + d) op caller)
        fun _ _ => True
  | 0, _, caller, _, _ => by
    rw [invoke, Lifted.invoke]
    exact mirrors_deep _ _ _
  | k + 1, _, caller, hu, hs => by
    rw [Nat.add_right_comm]
    exact mirrors_invoke_succ (mirrors_invoke d k) hu hs caller

end Evaluation

end Concatenative
