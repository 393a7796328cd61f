import Concatenative.Machine.State

/-!
# Invariants of machine computations

`Exec.Keeps inv allowed x post` says that the computation `x` keeps the invariant `inv` of the
machine: run on a machine that satisfies `inv`, it leaves a machine that satisfies `inv` again,
whether it succeeds or fails, and its result satisfies `post` when it succeeds and its error
satisfies `allowed` when it fails. A failing computation keeps its machine, so an invariant
kept this way holds across a session that goes on after errors.

The rules below take such statements through `pure`, `throw`, the state operations and `bind`,
so that the invariant of a whole evaluation is assembled from one lemma per operation.
-/

namespace Concatenative

namespace Exec

variable {α β : Type} {inv : Machine → Prop} {allowed : Error → Prop}

/-- `x` keeps `inv`, and succeeds with a result satisfying `post` or fails with an error
satisfying `allowed`. -/
def Keeps (inv : Machine → Prop) (allowed : Error → Prop) (x : Exec α) (post : α → Prop) :
    Prop :=
  ∀ m, inv m → inv (x.run.run m).2 ∧
    match (x.run.run m).1 with
    | .ok a => post a
    | .error e => allowed e

theorem keeps_pure {a : α} {post : α → Prop} (h : post a) : Keeps inv allowed (pure a) post :=
  fun _ hm => ⟨hm, h⟩

theorem keeps_throw {e : Error} {post : α → Prop} (h : allowed e) :
    Keeps inv allowed (throw e) post :=
  fun _ hm => ⟨hm, h⟩

theorem keeps_fail {fault : Fault} {span : Option Span} {post : α → Prop}
    (h : allowed ⟨fault, span⟩) : Keeps inv allowed (fail fault span) post :=
  keeps_throw h

theorem keeps_get : Keeps inv allowed get inv :=
  fun _ hm => ⟨hm, hm⟩

theorem keeps_set {m' : Machine} (h : inv m') : Keeps inv allowed (set m') fun _ => True :=
  fun _ _ => ⟨h, trivial⟩

theorem keeps_modify {f : Machine → Machine} (h : ∀ m, inv m → inv (f m)) :
    Keeps inv allowed (modify f) fun _ => True :=
  fun m hm => ⟨h m hm, trivial⟩

/-- The sequencing rule: what `x` promises of its result is what `f` may assume. -/
theorem Keeps.bind {x : Exec α} {f : α → Exec β} {p : α → Prop} {q : β → Prop}
    (hx : Keeps inv allowed x p) (hf : ∀ a, p a → Keeps inv allowed (f a) q) :
    Keeps inv allowed (x >>= f) q := by
  intro m hm
  have hrun := hx m hm
  simp only [ExceptT.run_bind, StateT.run_bind]
  revert hrun
  rcases x.run.run m with ⟨e | a, m'⟩
  · -- the error of `x` ends the computation, on the machine `x` left
    exact id
  · rintro ⟨hm', ha⟩
    exact hf a ha m' hm'

end Exec

end Concatenative
