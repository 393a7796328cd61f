import Concatenative.Proofs.Preservation
import Concatenative.Proofs.Renaming

/-!
# Internal errors

Two faults are internal errors, which a correct evaluation never raises: a local that reaches
execution without being renamed (`Fault.unreplacedLocal`), and an operator handed a number of
operands it does not read (`Fault.operandCount`). This module shows that the second never
fires, and where the first can come from.

Operands are always counted right: every invariant of evaluation is kept together with a sound
table (`Concatenative.Proofs.Preservation`), and the invariant that holds nothing more
(`Evaluation.Invariant.sound`) shows that a session never reaches a miscount.

Locals are renamed away as long as hygiene keeps the tokens of a text, that is unless a renamed
local ends in a backslash right before a line break (`Suffix.Safe`): then every token that the
evaluation's scan meets in the renamed text, while operators change the table between its
steps, is no local (`hygiene_leaves_no_local`).

## Main results

* `Machine.Reachable.sound` — every machine a session reaches has a sound table.
* `hygiene_leaves_no_local` — after hygiene of a text whose renamed locals are safe, the scan
  that runs it meets no local.
-/

namespace Concatenative

-- ---------------------------------------------------------------------------
-- Operands are never miscounted
-- ---------------------------------------------------------------------------

namespace Evaluation.Invariant

/-- The invariant that holds nothing but what every evaluation keeps: a sound table, and no
miscount of operands. -/
def sound : Invariant where
  machine _ := True
  token _ := True
  caller _ := True
  text _ _ := True
  allowed _ := True
  stack _ _ _ _ := trivial
  restack _ _ _ _ := trivial
  load _ _ _ _ _ := trivial
  store _ _ _ _ _ := trivial
  forget _ _ _ := trivial
  code _ _ _ _ _ _ _ := trivial
  install _ _ _ _ _ := trivial
  remove _ _ _ := trivial
  print _ _ _ := trivial
  count _ _ := trivial
  symbol _ := trivial
  caller_of_token _ _ := trivial
  named _ _ := trivial
  source _ _ := trivial
  fault _ _ _ := trivial
  hygiene_error _ _ _ _ _ _ _ := trivial
  scan_error _ _ _ _ _ _ _ _ _ _ _ _ _ := trivial
  placed _ _ _ _ _ _ _ _ _ _ _ _ _ _ := ⟨trivial, fun _ => trivial⟩

end Evaluation.Invariant

namespace Machine

/-- Every machine a session reaches has a sound table. -/
theorem Reachable.sound {m : Machine} (h : Reachable m) : m.ops.Sound :=
  (h.holds (I := .sound) trivial fun _ => trivial).1

/-- Entering a program on a reachable machine never miscounts operands. -/
theorem Reachable.enter_miscounts {m : Machine} (h : Reachable m) (source : String) {e : Error}
    (he : (m.enter source).1 = .error e) : e.fault.miscounts = false := by
  have hrun := (Evaluation.Invariant.preserves_evaluate (I := .sound) (P := source) trivial m
    ⟨h.sound, trivial⟩).2
  change ((evaluate source).run.run m).1 = _ at he
  rw [he] at hrun
  exact hrun.1

end Machine

-- ---------------------------------------------------------------------------
-- Locals met by the scan that runs a renamed text
-- ---------------------------------------------------------------------------

/-- After hygiene of a text whose renamed locals are safe, the scan that runs the renamed text
meets no local, whatever operators change the table between its steps. -/
theorem hygiene_leaves_no_local {ops : Table} {text text' : String} {uid : Nat}
    {origin : Origin} {E : Edits} (h : Evaluation.hygiene ops text uid origin = .ok (text', E))
    (hsafe : Suffix.Safe (topLocals ops.contains text).contains text.toList) {c : Cursor}
    (hc : Scan.Reaches text' c) {v : Vocabulary} {t : Token} {c' : Cursor}
    (hn : Scan.next Rule.standard v c = .ok (some (t, c'))) : t.kind ≠ .localName := by
  have hres := rescans_of_hygiene h hsafe
  have hnone := hres.kind_ne_localName fun t ht hk => mem_topLocals ht hk
  -- the token met has the lexeme of a token of the renamed text under the table hygiene saw
  obtain ⟨t₀, ht₀, hlex⟩ := hc.lexeme_mem hn ops.contains
  have hk : (t₀.kind == .localName) = (t.kind == .localName) := congrArg (·.2.2) hlex
  intro hloc
  apply hnone t₀ ht₀
  simpa [hloc] using hk

/-- Where a renamed local ends in a backslash before a line break, the suffix is escaped inside
a string that now closes earlier, and a local the text never had appears at the top level. -/
example :
    (Evaluation.hygiene Table.standard "\" @x\\\n\"@y" 0 .source).toOption.map Prod.fst =
        some "\" @x\\@0\n\"@y" ∧
      (Scan.tokens Rule.standard Table.standard.contains "\" @x\\@0\n\"@y").1.map Token.kind =
        [.symbol, .localName] :=
  ⟨by decide +kernel, by decide +kernel⟩

/-- Hygiene leaves no local for evaluation to meet, except where it renamed a local that ends
in a backslash before a line break; and no internal error but an unreplaced local ever arises.
When the renamed locals of a text are safe, the scan that runs hygiene's renamed text meets no
local at any cursor it reaches, while operators change the table between its steps; every
evaluation, at every depth, runs its text this way. And in every machine a session reaches,
whatever programs it entered and whether they failed, an internal error is an unreplaced local:
operators are never handed a miscount of operands. -/
theorem internal_errors_come_from_unsafe_locals {ops : Table} {text text' : String} {uid : Nat}
    {origin : Origin} {E : Edits} (h : Evaluation.hygiene ops text uid origin = .ok (text', E))
    (hsafe : Suffix.Safe (topLocals ops.contains text).contains text.toList) :
    (∀ c, Scan.Reaches text' c → ∀ (v : Vocabulary) (t : Token) (c' : Cursor),
        Scan.next Rule.standard v c = .ok (some (t, c')) → t.kind ≠ .localName) ∧
      ∀ m : Machine, m.Reachable → ∀ (source : String) (e : Error),
        (m.enter source).1 = .error e → e.code = .internalError →
          ∃ name, e.fault = .unreplacedLocal name :=
  ⟨fun _ hc _ _ _ hn => hygiene_leaves_no_local h hsafe hc hn,
    fun _ hm source _ he hcode => Fault.internalError_cases hcode (hm.enter_miscounts source he)⟩

/-- The local of `@x`, renamed under the number 0, is met as no local by the scan that runs
`@x@0`. -/
theorem internal_errors_renamed_local :
    Evaluation.hygiene {} "@x" 0 .detached = .ok ("@x@0", ⟨#[⟨0, 2, 4⟩]⟩) ∧
      Suffix.Safe (topLocals ({} : Table).contains "@x").contains "@x".toList ∧
      ((∀ c, Scan.Reaches "@x@0" c → ∀ (v : Vocabulary) (t : Token) (c' : Cursor),
        Scan.next Rule.standard v c = .ok (some (t, c')) → t.kind ≠ .localName) ∧
      ∀ m : Machine, m.Reachable → ∀ (source : String) (e : Error),
        (m.enter source).1 = .error e → e.code = .internalError →
          ∃ name, e.fault = .unreplacedLocal name) := by
  have hyg : Evaluation.hygiene {} "@x" 0 .detached = .ok ("@x@0", ⟨#[⟨0, 2, 4⟩]⟩) :=
    Substitution.Except.eq_ok_of_toOption (by decide +kernel)
  have hsafe : Suffix.Safe (topLocals ({} : Table).contains "@x").contains "@x".toList :=
    fun name _ _ hin =>
      absurd (hin.subset (List.mem_append_right name (List.mem_singleton_self _))) (by decide)
  exact ⟨hyg, hsafe, internal_errors_come_from_unsafe_locals hyg hsafe⟩

end Concatenative
