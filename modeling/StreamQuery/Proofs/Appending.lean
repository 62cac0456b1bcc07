import StreamQuery.Proofs.Exploration
import StreamQuery.Proofs.SourceIds

/-! # Compiling only adds

Whether compiling a closure succeeds or fails, it leaves the binders that were there and
adds others inside earlier ones, and it only gives out numbers of sources. If compiling
succeeds, the sources that occur in the result are those of the binders it started from and
those that it opened.
-/

namespace StreamQuery

/-- Wherever binders are enclosed by earlier ones, all that can be looked up has no sources
but those of the binders. -/
theorem Chain.Ordered.offers {chain : Chain} (h : chain.Ordered) {id : BinderId}
    (inside : id < chain.size) :
    chain.OffersFrom (fun e => ∃ link ∈ chain.links, e.sourceIds ⊆ link.binder.sourceIds) []
      (some id) := by
  induction id using Nat.strongRecOn with
  | _ id ih =>
      have found : chain.links[id]? = some chain.links[id] := Array.getElem?_eq_getElem inside
      have held := Array.mem_of_getElem? found
      generalize chain.links[id] = link at found held
      refine .binder found ?_ ?_
      · cases hb : link.binder with
        | element row => exact .inl ⟨link, held, by simp [hb, Binder.sourceIds]⟩
        | stream query =>
            exact ⟨link, held, by simp [hb, Binder.sourceIds, Expr.embed, Expr.sourceIds]⟩
        | parameters | outer => trivial
      · cases enclosing : link.parent with
        | none => exact .outermost
        | some parent =>
            have before := h id link found parent enclosing
            exact ih parent before (Nat.lt_trans before inside)

/-- A compilation follows itself, so it keeps what the comparison says. -/
theorem Closure.appends_compile (closure : Closure) (env : Compile.Environment) {chain : Chain}
    (ordered : chain.Ordered) {head : BinderId} (inside : head < chain.size)
    (supply : Compile.Supply) :
    let compiled := closure.compile env chain head supply
    Compile.Appends { toSupply := supply, chain }
      { toSupply := compiled.supply, chain := compiled.chain } := by
  let S := Compile.Comparison.ordered env
  have follows : Compile.Follows S head Eq (Compile.compileBody env closure.body head)
      (Compile.compileBody env closure.body head) :=
    Compile.follows_compileWith (fun id _ => Compile.lookupFollows_alongChain id) closure.body
      trivial
  let before : Compile.Work := { toSupply := supply, chain }
  have stands : before.chain.Ordered ∧ head < before.chain.size := ⟨ordered, inside⟩
  unfold Closure.compile EStateM.run
  cases ran : Compile.compileBody env closure.body head before with
  | ok e work =>
      have appends := (follows.ok stands (Compile.asUnbounded_eq_ok.mpr ran)).1
      exact appends.trans (.of_chain rfl (Nat.le_refl _))
  | error error work =>
      have appends := (follows.error stands (Compile.asUnbounded_eq_error.mpr ran)).1
      exact appends.trans (.of_chain rfl (Nat.le_refl _))

/-- Whether it succeeds or fails, compiling a closure leaves the binders that were there, adds
others inside earlier ones, and takes no number of a source back. If it succeeds, every source
that occurs in the result occurs in what a binder held before, or was opened meanwhile. -/
theorem Closure.compile_appends (closure : Closure) (env : Compile.Environment) {chain : Chain}
    (ordered : chain.Ordered) {head : BinderId} (inside : head < chain.size)
    (supply : Compile.Supply) :
    let compiled := closure.compile env chain head supply
    (∀ (id : BinderId) (link : Link), chain.links[id]? = some link →
      compiled.chain.links[id]? = some link) ∧
    (∀ (id : BinderId) (link : Link), chain.size ≤ id → compiled.chain.links[id]? = some link →
      ∃ parent < id, link.parent = some parent) ∧
    supply.nextSource ≤ compiled.supply.nextSource ∧
    ∀ e, compiled.outcome = .ok e → ∀ source ∈ e.sourceIds,
      (∃ link ∈ chain.links, source ∈ link.binder.sourceIds) ∨
        supply.nextSource ≤ source ∧ source < compiled.supply.nextSource := by
  intro compiled
  have offers := ordered.offers inside
  have appends := closure.appends_compile env ordered inside supply
  refine ⟨appends.chain.keeps, appends.parents, appends.nextSource_le, fun e done source hs => ?_⟩
  have built := (Closure.built_compile offers done).1
  refine (built.sourceIds source hs).imp_left ?_
  rintro ⟨x, ⟨link, held, sub⟩, occurs⟩
  exact ⟨link, held, sub occurs⟩

/-- Of a customer who is given as a row, the number of accounts in their own country: a source
is opened, and the closure inside is compiled twice. Under a limit of twelve steps compiling
fails, after it was compiled once. -/
theorem Closure.compile_appends_pickedTwice :
    let chain := (Chain.empty.push (.ofClosure Reached.pickedTwice) none).push
      (.element (.row 0 (.entity "Customer"))) (some 0)
    let compiled (settings : Settings) := Reached.pickedTwice.compile
      ⟨Reached.customers.schema, settings⟩ chain 1 { nextSource := 5 }
    let done := compiled {}
    let failed := compiled { maxSteps := 12 }
    chain.Ordered ∧ chain.size = 2 ∧
      (done.chain.size = 6 ∧ ∃ e, done.outcome = .ok e ∧ 0 ∈ e.sourceIds ∧ 5 ∈ e.sourceIds ∧
        ∀ source ∈ e.sourceIds, (∃ link ∈ chain.links, source ∈ link.binder.sourceIds) ∨
          5 ≤ source ∧ source < done.supply.nextSource) ∧
      failed.chain.size = 4 ∧ (∀ e, failed.outcome ≠ .ok e) ∧
        ∀ (id : BinderId) (link : Link), chain.links[id]? = some link →
          failed.chain.links[id]? = some link := by
  intro chain compiled done failed
  have ordered : chain.Ordered := by
    refine Chain.Ordered.push ?_ Nat.zero_lt_one _
    intro id link found
    cases id with
    | zero =>
        cases found
        rintro parent ⟨⟩
    | succ id => cases found
  have ids : done.outcome.map (fun e => decide (0 ∈ e.sourceIds ∧ 5 ∈ e.sourceIds)) = .ok true := by
    decide +kernel
  obtain ⟨e, outcome, occur⟩ := Compile.map_eq_ok.mp ids
  obtain ⟨given, opened⟩ := of_decide_eq_true occur
  have fails : failed.outcome.isOk = false := by decide +kernel
  have kept := Reached.pickedTwice.compile_appends ⟨Reached.customers.schema, {}⟩ ordered
    (by decide : 1 < chain.size) { nextSource := 5 }
  have keptToo := Reached.pickedTwice.compile_appends
    ⟨Reached.customers.schema, { maxSteps := 12 }⟩ ordered (by decide : 1 < chain.size)
    { nextSource := 5 }
  refine ⟨ordered, by decide, ⟨by decide +kernel, e, outcome, given, opened, ?_⟩,
    by decide +kernel, fun x same => ?_, keptToo.1⟩
  · exact kept.2.2.2 e outcome
  · rw [same] at fails
    cases fails

end StreamQuery
