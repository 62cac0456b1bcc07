import StreamQuery.Proofs.Explain
import StreamQuery.Proofs.Following

/-! # Raising the limits

Limits only refuse. A compilation that stays within them goes the same way under larger ones,
to the same expression, with the same binders and numbers given out, and so does a fold: steps
and branches are counted alike on both sides, so a count that was small enough stays so.
-/

namespace StreamQuery

theorem Compile.compileBody_persists {env env' : Environment} (le : env.LimitsLe env') {body : Body}
    {head : BinderId} {work work' : Work} {e : Expr}
    (h : compileBody env body head work = .ok e work') :
    compileBody env' body head work = .ok e work' := by
  let S : Comparison env env' := .plain le
  have follows : Follows S head Eq (compileBody env body head) (compileBody env' body head) :=
    follows_compileWith (fun id _ => lookupFollows_alongChain id) body trivial
  obtain ⟨-, _, ran, rfl⟩ := follows.ok trivial (asUnbounded_eq_ok.mpr h)
  exact asUnbounded_eq_ok.mp ran

/-! ## Closures and folds -/

namespace Query

/-- What one fold succeeds with, the other does too. -/
def FoldPersists {α : Type} (x y : FoldM α) : Prop :=
  ∀ ⦃supply supply' : Compile.Supply⦄ ⦃a : α⦄,
    x.run supply = .ok (a, supply') → y.run supply = .ok (a, supply')

theorem FoldPersists.refl {α : Type} (x : FoldM α) : FoldPersists x x := fun _ _ _ h => h

theorem FoldPersists.andThen {α β : Type} {x x' : FoldM α} (hx : FoldPersists x x')
    {f f' : α → FoldM β} (hf : ∀ a, FoldPersists (f a) (f' a)) :
    FoldPersists (x >>= f) (x' >>= f') := by
  intro supply supply' b h
  obtain ⟨a, between, first, second⟩ := bind_run_eq_ok.mp h
  exact bind_run_eq_ok.mpr ⟨a, between, hx first, hf a second⟩

end Query

section Folds

variable {env env' : Compile.Environment} (le : env.LimitsLe env')

include le

/-- A closure that compiles leaves the same under larger limits. -/
theorem Closure.compile_persists {closure : Closure} {chain : Chain} {head : BinderId}
    {supply : Compile.Supply} {e : Expr}
    (h : (closure.compile env chain head supply).outcome = .ok e) :
    closure.compile env' chain head supply = closure.compile env chain head supply := by
  obtain ⟨work, compiled, -⟩ := compile_eq_ok.mp ⟨h, rfl⟩
  have compiled' := Compile.compileBody_persists le compiled
  unfold Closure.compile EStateM.run
  rw [compiled, compiled']

namespace Query

theorem compileIn_persists (closure : Closure) (chain : Chain) (head : BinderId) :
    FoldPersists (compileIn env closure chain head) (compileIn env' closure chain head) := by
  intro supply supply' e h
  obtain ⟨outcome, left⟩ := compileIn_run_eq_ok.mp h
  rw [compileIn_run_eq_ok, Closure.compile_persists le outcome]
  exact ⟨outcome, left⟩

theorem overRow_persists (q : Query) (closure : Closure) :
    FoldPersists (q.overRow env closure) (q.overRow env' closure) :=
  (compileIn_persists le closure _ 1).andThen fun _ => .refl _

theorem overGroup_persists (q : Query) (closure : Closure) (key : Expr) :
    FoldPersists (q.overGroup env closure key) (q.overGroup env' closure key) :=
  (compileIn_persists le closure _ 2).andThen fun _ => .refl _

theorem overStream_persists (q : Query) (closure : Closure) :
    FoldPersists (q.overStream env closure) (q.overStream env' closure) := by
  unfold overStream
  split
  · exact (compileIn_persists le closure _ 1).andThen fun _ => .refl _
  · exact .refl _

theorem foldM_persists (q : Query) (operation : Operation) :
    FoldPersists (q.foldM env operation) (q.foldM env' operation) := by
  cases operation with
  | filter closure | select closure | join closure | sum closure | min closure | max closure
  | avg closure | sortedBy closure => exact (overRow_persists le q closure).andThen fun _ => .refl _
  | group key value =>
      refine (overRow_persists le q key).andThen fun key => ?_
      exact (overGroup_persists le q value key).andThen fun _ => .refl _
  | aggregate closure => exact (overStream_persists le q closure).andThen fun _ => .refl _
  | count | skip | limit | distinct => exact .refl _

theorem fold_persists {q q' : Query} {operation : Operation} {mark : Nat}
    (h : q.fold env operation mark = .ok q') : q.fold env' operation mark = .ok q' := by
  obtain ⟨supply, ran⟩ := fold_eq_ok.mp h
  exact fold_eq_ok.mpr ⟨supply, foldM_persists le q operation ran⟩

end Query

end Folds

namespace Compiler

def under (compiler : Compiler) (settings : Settings) : Compiler := { compiler with settings }

/-- Larger limits change no compilation and no fold that succeeds: the same expression comes of
a closure, with the same binders and numbers given out, and the same query of an operation. -/
theorem raised_limits (compiler : Compiler) {raised : Settings}
    (le : compiler.settings.LimitsLe raised) :
    (∀ closure chain head nextSource e,
      (compiler.compile closure chain head nextSource).outcome = .ok e →
        (compiler.under raised).compile closure chain head nextSource =
          compiler.compile closure chain head nextSource) ∧
    ∀ query operation folded, compiler.fold query operation = .ok folded →
      (compiler.under raised).fold query operation = .ok folded := by
  have wider : compiler.environment.LimitsLe (compiler.under raised).environment := ⟨rfl, le⟩
  refine ⟨fun closure chain head nextSource e compiled => closure.compile_persists wider compiled,
    fun query operation folded h => ?_⟩
  have h := Compile.mapError_eq_ok.mp h
  exact Compile.mapError_eq_ok.mpr (query.fold_persists wider h)

/-- Seven instructions are enough to count the accounts in a customer's own country, as those
of the nested closure are counted afresh. -/
theorem raised_limits_domesticAccounts :
    let tight := Reached.customers.under { maxSteps := 7, maxBranches := 0, maxLocals := 0 }
    (∃ q, tight.fold (.ofEntity "Customer") (.select Reached.domesticAccounts) = .ok q ∧
      (tight.under {}).fold (.ofEntity "Customer") (.select Reached.domesticAccounts) = .ok q) ∧
    let chain := Compile.elementChain Reached.domesticAccounts (.entity "Customer")
    ∃ e, (tight.compile Reached.domesticAccounts chain 1 1).outcome = .ok e ∧
      (tight.under {}).compile Reached.domesticAccounts chain 1 1 =
        tight.compile Reached.domesticAccounts chain 1 1 := by
  intro tight
  have le : tight.settings.LimitsLe {} := ⟨by decide, by decide, by decide⟩
  have folds : (tight.fold (.ofEntity "Customer") (.select Reached.domesticAccounts)).map
      (fun _ => ()) = .ok () := by
    decide +kernel
  have compiles : (tight.compile Reached.domesticAccounts
      (Compile.elementChain Reached.domesticAccounts (.entity "Customer")) 1 1).outcome.map
        (fun _ => ()) = .ok () := by
    decide +kernel
  obtain ⟨q, folded, -⟩ := Compile.map_eq_ok.mp folds
  obtain ⟨e, compiled, -⟩ := Compile.map_eq_ok.mp compiles
  have raised := tight.raised_limits le
  exact ⟨⟨q, folded, raised.2 _ _ _ folded⟩, e, compiled, raised.1 _ _ _ _ _ compiled⟩

end Compiler

end StreamQuery
