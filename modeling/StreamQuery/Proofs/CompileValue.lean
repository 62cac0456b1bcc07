import StreamQuery.Proofs.CompileRun
import StreamQuery.Proofs.Machine
import StreamQuery.Proofs.SimplifyValue

/-! # Compiled closures mean what their code does

A run on expressions is compared with a run on values. Each expression of a frame
has the value that the machine has in its place, and a type that the value fits.
The choices that join two sides of a branch are made of such expressions, so the
compiled body has the value that the machine returns.
-/

namespace StreamQuery.Compile

variable {Obj : Type} {m : Machine Obj}

/-! ## Operators and calls -/

/-- An expression of a frame beside the machine's value: it has this value, the
value fits its type, and it is no choice. -/
structure Valued (m : Machine Obj) (e : Expr) (d : Datum Obj) : Prop extends
    Expr.HasValue m.ops m.valuation e d where
  fits : Datum.Fits e.type d
  unconditional : ∀ test yes no t, e ≠ .conditional test yes no t

section Operators

variable {e left right operand : Expr} {d l r : Datum Obj}

theorem withType_type (e : Expr) : e.withType e.type = e := by
  cases e <;> rfl

/-- A value keeps under another type unless it becomes a choice of truth values. -/
theorem hasValue_withType (h : Valued m e d) (t : ValueType) :
    (e.withType t).HasValue m.ops m.valuation d := by
  refine ⟨?_, ?_, by rw [Expr.eval_withType, h.eval_eq]⟩
  · obtain ⟨holdsNone, number⟩ := (Expr.everywhere_iff.mp h.elementary).1
    refine h.elementary.withType ⟨by cases e <;> exact holdsNone, fun x s same => ?_⟩
    cases e with
    | constant value s' =>
        cases same
        exact number x s' rfl
    | _ => cases same
  · have wellTyped := h.wellTyped
    cases e with
    | conditional test yes no s => exact absurd rfl (h.unconditional test yes no s)
    | unary op operand s => cases op <;> exact wellTyped
    | _ => exact wellTyped

theorem valued_literal {v : Value} (hv : ∀ x, v ≠ .double x) : Valued m (.literal v) (.value v) where
  elementary := Expr.everywhere_constant.mpr ⟨rfl, by simp_all⟩
  wellTyped := trivial
  eval_eq := by simp [Expr.literal, Expr.eval]
  fits := by cases v <;> simp_all [Expr.literal, Expr.type, Value.type, Datum.Fits, Datum.IsNumber]
  unconditional := by simp [Expr.literal]

theorem valued_arith {op : ArithOp} (respects : m.ops.RespectsTypes) (hl : Valued m left l)
    (hr : Valued m right r) (h : arith op left right = .ok e) :
    Valued m e (m.ops.arith op l r) := by
  unfold arith at h
  split at h
  next numeric =>
    cases h
    obtain ⟨leftNumeric, rightNumeric⟩ := Bool.and_eq_true_iff.mp numeric
    have number := respects.arith op l r (hl.fits.isNumber leftNumeric)
      (hr.fits.isNumber rightNumeric)
    refine ⟨hl.toHasValue.binary hr.toHasValue (by simp [BinaryOp.isLogical]), ?_,
      by simp [Expr.apply]⟩
    exact number.fits (ValueType.isNumeric_widen leftNumeric)
  next => cases h

theorem valued_negation (respects : m.ops.RespectsTypes) (ho : Valued m operand d)
    (h : negation operand = .ok e) : Valued m e (m.ops.neg d) := by
  unfold negation at h
  split at h
  next numeric =>
    cases h
    have number := respects.neg d (ho.fits.isNumber numeric)
    exact ⟨ho.toHasValue.unary (by simp), number.fits numeric, by simp [Expr.neg]⟩
  next => cases h

theorem valued_compare (op : CompareOp) (hl : Valued m left l) (hr : Valued m right r) :
    Valued m (.compare op left right) (.bool (m.ops.compare op l r)) :=
  ⟨hl.toHasValue.binary hr.toHasValue (by simp [BinaryOp.isLogical]),
    by simp [Expr.compare, Expr.apply, Expr.type, Datum.Fits], by simp [Expr.compare, Expr.apply]⟩

theorem valued_comparison {op : CompareOp} (hl : Valued m left l) (hr : Valued m right r)
    (h : comparison op left right = .ok e) : Valued m e (.bool (m.ops.compare op l r)) := by
  unfold comparison at h
  split at h
  next =>
    cases h
    exact valued_compare op hl hr
  next => cases h

theorem valued_convert {t : ValueType} (ho : Valued m operand d) (h : convert operand t = .ok e) :
    Valued m e d := by
  unfold convert at h
  split at h
  next allowed =>
    cases h
    by_cases same : operand.type = t
    · rw [← same, withType_type]
      exact ho
    · obtain ⟨source, wanted⟩ := Bool.and_eq_true_iff.mp (allowed.resolve_left same)
      refine ⟨hasValue_withType ho t, ?_, ?_⟩
      · have typed : (operand.withType t).type = t := by cases operand <;> rfl
        rw [typed]
        exact (ho.fits.isNumber source).fits wanted
      · cases operand with
        | conditional test yes no s => exact absurd rfl (ho.unconditional test yes no s)
        | _ => simp [Expr.withType]
  next => cases h

theorem valued_access (respects : m.ops.RespectsTypes) (ho : Valued m operand d)
    (field : FieldRef) : Valued m (.access operand field) (m.ops.field field d) :=
  ⟨ho.toHasValue.path field, respects.field field d, by simp [Expr.access]⟩

theorem valued_pick (ho : Valued m operand d) (index : Nat) :
    Valued m (.pick operand index) (m.ops.component index d) := by
  refine ⟨ho.toHasValue.component index, ?_, by simp [Expr.pick]⟩
  simp only [Expr.pick, Expr.type]
  split
  next types known =>
    cases ht : types[index]? with
    | none => exact trivial
    | some t => exact Operations.fits_component (known ▸ ho.fits) ht
  next => exact trivial

theorem valued_tupleComponent {index : Nat} (ho : Valued m operand d)
    (h : tupleComponent operand index = .ok e) : Valued m e (m.ops.component index d) := by
  have picked : e = .pick operand index := by
    unfold tupleComponent at h
    split at h
    · split at h <;> cases h
      rfl
    · cases h
      rfl
  rw [picked]
  exact valued_pick ho index

theorem valued_invoke {fn : ScalarFn} (ho : Valued m operand d)
    (fits : Datum.Fits (Expr.invoke fn [operand]).type (m.ops.call fn [d])) :
    Valued m (.invoke fn [operand]) (m.ops.call fn [d]) :=
  ⟨.call (.cons ho.toHasValue .nil), fits, by simp [Expr.invoke]⟩

theorem valued_pack {items : List Expr} {ds : List (Datum Obj)}
    (h : List.Forall₂ (Valued m) items ds) : Valued m (.pack items) (.tuple ds) := by
  refine ⟨.tuple (h.imp fun _ _ hv => hv.toHasValue), ?_, by simp [Expr.pack]⟩
  simp only [Expr.pack, Expr.type, Datum.Fits]
  induction h with
  | nil => trivial
  | cons hv _ ih => exact ⟨hv.fits, ih⟩

theorem valued_concatenation (hl : Valued m left l) (hr : Valued m right r)
    (h : concatenation left right = .ok e) : Valued m e (m.ops.concat l r) := by
  unfold concatenation at h
  split at h
  next =>
    cases h
    exact ⟨hl.toHasValue.binary hr.toHasValue (by simp [BinaryOp.isLogical]), trivial,
      by simp [Expr.apply]⟩
  next => cases h

/-- Where patterns are read as such, a search finds what its pattern matches. -/
theorem search_text (reads : m.ops.ReadsPatterns) (search : Search) {literal : String}
    (plain : Pattern.Plain literal.toList) (d : Datum Obj) :
    m.search search d (.text literal) =
      some (.bool (m.ops.like d (.text (search.pattern literal)))) := by
  have texts (text : String) : search.Finds literal text ↔
      m.ops.like (.text text) (.text (search.pattern literal)) = true :=
    (search.matches_pattern plain text).symm.trans (reads text _).symm
  cases d with
  | value v =>
      cases v with
      | text text => simp [Machine.search, texts text]
      | _ => rfl
  | _ => rfl

theorem valued_like (reads : m.ops.ReadsPatterns) (search : Search) (hl : Valued m left l)
    (hr : Valued m right r) (h : like search.method left right = .ok e) :
    ∃ d, m.search search l r = some d ∧ Valued m e d := by
  unfold like at h
  split at h
  next => cases h
  next literal hliteral =>
    split at h
    next => cases h
    next tame =>
      cases h
      obtain ⟨t, rfl⟩ := Expr.eq_constant_of_asText hliteral
      have hr' : r = .text literal := by rw [← hr.eval_eq, Expr.eval]
      have plain : Pattern.Plain literal.toList := not_or.mp (mt any_isWildcard.mpr tame)
      refine ⟨_, by rw [hr', search_text reads search plain], ?_⟩
      rw [search.pattern_method]
      exact ⟨hl.toHasValue.binary (valued_literal (by simp)).toHasValue
        (by simp [BinaryOp.isLogical]), by simp [Expr.apply, Expr.type, Datum.Fits],
        by simp [Expr.apply]⟩

/-- The expression that a branch tests. -/
theorem hasValue_zeroTest {op : CompareOp} (ho : Valued m operand d)
    (h : zeroTest op operand = .ok e) :
    e.HasValue m.ops m.valuation (.bool (m.zeroTest op d)) := by
  unfold zeroTest at h
  split at h
  next isBool =>
    cases h
    obtain ⟨b, rfl⟩ : d.IsBool := by simpa [isBool, Datum.Fits] using ho.fits
    have value : m.zeroTest .eq (.bool b) = !b := by
      rw [Bool.eq_iff_iff]
      exact (m.ops.compare_bool .eq b false).trans (by cases b <;> simp [CompareOp.Relates])
    rw [value]
    exact ho.toHasValue.unary (by simp)
  next isBool =>
    cases h
    obtain ⟨b, rfl⟩ : d.IsBool := by simpa [isBool, Datum.Fits] using ho.fits
    have value : m.zeroTest .ne (.bool b) = b := by
      rw [Bool.eq_iff_iff]
      exact (m.ops.compare_bool .ne b false).trans (by cases b <;> simp [CompareOp.Relates])
    rw [value]
    exact ho.toHasValue
  next op _ _ _ _ =>
    split at h
    next numeric =>
      cases h
      have number := ho.fits.isNumber numeric
      have value : m.zeroTest op d = m.ops.compare op d (.int 0) := by
        cases d with
        | value v => cases v <;> simp_all [Machine.zeroTest, Datum.IsNumber]
        | _ => rfl
      rw [value]
      exact (valued_compare op ho (valued_literal (by simp))).toHasValue
    next => cases h

end Operators

section Calls

variable {schema : Schema} {method : Method} {values : List Expr} {ds : List (Datum Obj)}

theorem valued_entityCall {e : Expr} (respects : m.ops.RespectsTypes)
    (hvalues : List.Forall₂ (Valued m) values ds)
    (h : entityCall m.schema method values = .ok e) :
    ∃ d, m.entityCall method ds = some d ∧ Valued m e d := by
  unfold entityCall at h
  split at h
  next left right name =>
    obtain _ | ⟨hl, _ | ⟨hr, _ | _⟩⟩ := hvalues
    exact ⟨_, by simp [Machine.entityCall, name],
      valued_comparison hl hr (mapError_eq_ok.mp h)⟩
  next accessor receiver other =>
    obtain _ | ⟨hv, _ | _⟩ := hvalues
    split at h
    next field hfield =>
      cases h
      exact ⟨_, by simp [Machine.entityCall, hfield], valued_access respects hv field⟩
    next => cases h
  next => cases h

theorem valued_libraryCall {called : Called} (respects : m.ops.RespectsTypes)
    (reads : m.ops.ReadsPatterns)
    (hvalues : List.Forall₂ (Valued m) values ds) (owner : method.owner ≠ "InQueryStreamSource")
    (h : libraryCall m.schema method values = .ok called) :
    ∃ e d, called = .value e ∧ m.libraryCall method ds = some d ∧ Valued m e d := by
  unfold libraryCall at h
  split at h
  next => contradiction
  next left right o n st =>
    obtain _ | ⟨hl, _ | ⟨hr, _ | _⟩⟩ := hvalues
    obtain ⟨e, he, rfl⟩ := map_eq_ok.mp h
    exact ⟨e, _, rfl, by simp only [Machine.libraryCall, o, n, st], valued_concatenation hl hr he⟩
  case h_3 | h_4 | h_5 =>
    rename_i text o n st
    obtain _ | ⟨ht, _ | _⟩ := hvalues
    cases h
    exact ⟨_, _, rfl, by simp only [Machine.libraryCall, o, n, st], valued_invoke ht trivial⟩
  next text o n st =>
    obtain _ | ⟨ht, _ | _⟩ := hvalues
    cases h
    exact ⟨_, _, rfl, by simp only [Machine.libraryCall, o, n, st],
      valued_invoke ht ((respects.length _).fits rfl)⟩
  next text searched o n st =>
    obtain _ | ⟨hl, _ | ⟨hr, _ | _⟩⟩ := hvalues
    obtain ⟨e, he, rfl⟩ := map_eq_ok.mp h
    obtain ⟨d, hd, valued⟩ := valued_like reads .startsWith hl hr he
    exact ⟨e, d, rfl, by simp only [Machine.libraryCall, o, n, st, hd], valued⟩
  next text searched o n st =>
    obtain _ | ⟨hl, _ | ⟨hr, _ | _⟩⟩ := hvalues
    obtain ⟨e, he, rfl⟩ := map_eq_ok.mp h
    obtain ⟨d, hd, valued⟩ := valued_like reads .endsWith hl hr he
    exact ⟨e, d, rfl, by simp only [Machine.libraryCall, o, n, st, hd], valued⟩
  next text searched o n st =>
    obtain _ | ⟨hl, _ | ⟨hr, _ | _⟩⟩ := hvalues
    obtain ⟨e, he, rfl⟩ := map_eq_ok.mp h
    obtain ⟨d, hd, valued⟩ := valued_like reads .contains hl hr he
    exact ⟨e, d, rfl, by simp only [Machine.libraryCall, o, n, st, hd], valued⟩
  next value o n st =>
    obtain _ | ⟨hv, _ | _⟩ := hvalues
    split at h <;> cases h
    next numeric =>
      exact ⟨_, _, rfl, by simp only [Machine.libraryCall, o, n, st],
        valued_invoke hv ((respects.abs _ (hv.fits.isNumber numeric)).fits numeric)⟩
  next value o n st =>
    obtain _ | ⟨hv, _ | _⟩ := hvalues
    split at h <;> cases h
    next numeric =>
      exact ⟨_, _, rfl, by simp only [Machine.libraryCall, o, n, st],
        valued_invoke hv ((respects.sqrt _ (hv.fits.isNumber numeric)).fits rfl)⟩
  next left right n st =>
    obtain _ | ⟨hl, _ | ⟨hr, _ | _⟩⟩ := hvalues
    split at h
    next known =>
      have listed : method.owner ∈ ["String", "Object", "Integer", "Long", "Double", "Boolean"] :=
        List.contains_iff_mem.mp known
      obtain ⟨e, he, rfl⟩ := map_eq_ok.mp h
      exact ⟨e, _, rfl, by simp only [Machine.libraryCall, n, st, if_pos listed],
        valued_comparison hl hr he⟩
    next => cases h
  next => cases h

theorem valued_valueCall {called : Called} (respects : m.ops.RespectsTypes)
    (reads : m.ops.ReadsPatterns)
    (hvalues : List.Forall₂ (Valued m) values ds) (owner : method.owner ≠ "InQueryStreamSource")
    (h : valueCall m.schema method values = .ok called) :
    ∃ e d, called = .value e ∧ m.call method ds = some d ∧ Valued m e d := by
  unfold valueCall at h
  split at h
  next index tuple getter =>
    obtain _ | ⟨ht, _ | _⟩ := hvalues
    obtain ⟨e, he, rfl⟩ := map_eq_ok.mp (mapError_eq_ok.mp h)
    exact ⟨e, _, rfl, by simp [Machine.call, component?_eq, getter], valued_tupleComponent ht he⟩
  next => cases h
  next type value getter boxing =>
    obtain _ | ⟨hv, _ | _⟩ := hvalues
    obtain ⟨e, he, rfl⟩ := map_eq_ok.mp (mapError_eq_ok.mp h)
    exact ⟨e, _, rfl, by simp [Machine.call, component?_eq, conversion?_eq, getter, boxing], valued_convert hv he⟩
  next values _ _ _ getter unboxed =>
    have onNames : m.call method ds =
        if !method.isStatic && m.schema.isEntity method.owner then m.entityCall method ds
        else m.libraryCall method ds := by
      cases boxing : boxing? method with
      | none => simp [Machine.call, component?_eq, conversion?_eq, getter, boxing]
      | some type =>
          match hvalues with
          | .nil => simp [Machine.call, component?_eq, conversion?_eq, getter, boxing]
          | .cons (a := value) _ .nil => exact (unboxed type value boxing rfl).elim
          | .cons _ (.cons _ _) => simp [Machine.call, component?_eq, conversion?_eq, getter, boxing]
    rw [onNames]
    split at h
    next entity =>
      obtain ⟨e, he, rfl⟩ := map_eq_ok.mp h
      obtain ⟨d, hd, valued⟩ := valued_entityCall respects hvalues he
      exact ⟨e, d, rfl, by rw [if_pos entity, hd], valued⟩
    next named =>
      obtain ⟨e, d, rfl, hd, valued⟩ :=
        valued_libraryCall respects reads hvalues owner (mapError_eq_ok.mp h)
      exact ⟨e, d, rfl, by rw [if_neg named, hd], valued⟩

end Calls

/-! ## Frames beside the machine -/

/-- An operand beside the machine's value. No operand is a closure, because a plain
body makes none. -/
inductive Represents (m : Machine Obj) {body : Body} : Operand body.Makes → Datum Obj → Prop where
  | value {e : Expr} {d : Datum Obj} : Valued m e d → Represents m (.value e) d

/-- A frame beside the machine's stack and locals. -/
structure Similar (m : Machine Obj) {body : Body} (frame : Frame body.Makes) (stack : List (Datum Obj))
    (locals : List (Nat × Datum Obj)) : Prop where
  stack : List.Forall₂ (Represents m) frame.stack stack
  locals : List.Forall₂ (fun slot found => slot.1 = found.1 ∧ Represents m slot.2 found.2)
    frame.locals locals

section Frames

variable {body : Body} {frame frame' : Frame body.Makes} {stack : List (Datum Obj)}
  {locals : List (Nat × Datum Obj)}

theorem Similar.push {operand : Operand body.Makes} {d : Datum Obj} (h : Similar m frame stack locals)
    (ho : Represents m operand d) : Similar m (frame.push operand) (d :: stack) locals :=
  ⟨.cons ho h.stack, h.locals⟩

theorem Similar.pushValue {e : Expr} {d : Datum Obj} (h : Similar m frame stack locals)
    (he : Valued m e d) : Similar m (frame.pushValue e) (d :: stack) locals :=
  h.push (.value he)

theorem Similar.store {operand : Operand body.Makes} {d : Datum Obj} (h : Similar m frame stack locals)
    (slot : Nat) (ho : Represents m operand d) :
    Similar m (frame.store slot operand) stack ((slot, d) :: locals) :=
  ⟨h.stack, .cons ⟨rfl, ho⟩ h.locals⟩

theorem Similar.pop {operand : Operand body.Makes} (h : Similar m frame stack locals)
    (top : frame.stack = operand :: frame'.stack) (same : frame.locals = frame'.locals) :
    ∃ d rest, stack = d :: rest ∧ Represents m operand d ∧ Similar m frame' rest locals := by
  have both := h.stack
  rw [top] at both
  obtain _ | ⟨hd, rest⟩ := both
  exact ⟨_, _, rfl, hd, rest, same ▸ h.locals⟩

theorem Similar.popValue {e : Expr} (h : Similar m frame stack locals)
    (top : frame.stack = .value e :: frame'.stack) (same : frame.locals = frame'.locals) :
    ∃ d rest, stack = d :: rest ∧ Valued m e d ∧ Similar m frame' rest locals := by
  obtain ⟨d, rest, rfl, ⟨hd⟩, similar⟩ := h.pop top same
  exact ⟨d, rest, rfl, hd, similar⟩

theorem Similar.popTwo {left right : Expr} (h : Similar m frame stack locals)
    (top : frame.stack = .value right :: .value left :: frame'.stack)
    (same : frame.locals = frame'.locals) :
    ∃ l r rest, stack = r :: l :: rest ∧ Valued m left l ∧ Valued m right r ∧
      Similar m frame' rest locals := by
  have both := h.stack
  rw [top] at both
  obtain _ | ⟨⟨hr⟩, _ | ⟨⟨hl⟩, rest⟩⟩ := both
  exact ⟨_, _, _, rfl, hl, hr, rest, same ▸ h.locals⟩

/-- The topmost operands are values in the order in which they were pushed. -/
theorem Similar.popMany {count : Nat} {values : List Expr} (h : Similar m frame stack locals)
    (enough : count ≤ frame.stack.length)
    (taken : (frame.stack.take count).reverse = values.map .value) :
    count ≤ stack.length ∧ List.Forall₂ (Valued m) values (stack.take count).reverse ∧
      Similar m { frame with stack := frame.stack.drop count } (stack.drop count) locals := by
  refine ⟨h.stack.length_eq ▸ enough, ?_, List.forall₂_drop count h.stack, h.locals⟩
  have both := List.forall₂_reverse_iff.mpr (List.forall₂_take count h.stack)
  rw [taken, List.forall₂_map_left_iff] at both
  exact both.imp fun _ _ ⟨hv⟩ => hv

theorem Similar.load {slot : Nat} {operand : Operand body.Makes} (h : Similar m frame stack locals)
    (found : frame.load? slot = some operand) :
    ∃ d, locals.lookup slot = some d ∧ Represents m operand d := by
  have both := h.locals
  unfold Frame.load? at found
  generalize frame.locals = slots at both found
  clear h
  induction both with
  | nil => simp at found
  | @cons a b _ _ hab _ ih =>
      obtain ⟨same, ho⟩ := hab
      by_cases here : slot = a.1
      · have there : slot = b.1 := here.trans same
        rw [List.lookup_cons, beq_iff_eq.mpr here] at found
        cases found
        exact ⟨b.2, by rw [List.lookup_cons, beq_iff_eq.mpr there], ho⟩
      · have notThere : slot ≠ b.1 := fun eq => here (eq.trans same.symm)
        rw [List.lookup_cons, beq_eq_false_iff_ne.mpr here] at found
        rw [List.lookup_cons, beq_eq_false_iff_ne.mpr notThere]
        exact ih found

end Frames

/-! ## One instruction -/

/-- Everything that a run reads fits its type, and texts are compared with patterns. -/
structure FitsTypes (m : Machine Obj) (type : ValueType) : Prop where
  respects : m.ops.RespectsTypes
  patterns : m.ops.ReadsPatterns
  row : Datum.Fits type m.row
  cells : ∀ (slot : Nat) (declared : ValueType) (cell : Cell),
    m.closure.body.captures[slot]? = some declared → m.closure.captured[slot]? = some cell →
      Datum.Fits declared (m.cells cell)

/-- Code without nested closures, calls on streams and floating constants. -/
def isPlain : Instruction → Bool
  | .const (.double _) | .makeClosure .. => false
  | .invoke method => method.owner != "JinqStream" && method.owner != "InQueryStreamSource"
  | _ => true

section Step

variable {settings : Settings} {type : ValueType} {work work' : Work} {nested : Nested m.closure.body}
  {pc : Nat} {frame : Frame m.closure.body.Makes} {s : Machine.State Obj}

theorem valued_loadParam (fits : FitsTypes m type) (chain : work.chain = elementChain m.closure type)
    {index : Nat} {e : Expr} (h : loadParam (.alongChain 1) m.closure.body index work = .ok e work') :
    work = work' ∧ ∃ d, m.param index = some d ∧ Valued m e d := by
  obtain ⟨rfl, ⟨declared, rfl⟩ | ⟨query, found, -⟩ | ⟨expected, declared, notSource, found⟩⟩ :=
    loadParam_eq_ok h
  · refine ⟨rfl, .null, by simp [Machine.param, declared], ?_, trivial, by simp⟩
    exact ⟨Expr.everywhere_constant.mpr ⟨rfl, by simp⟩, trivial, by simp [Expr.eval]⟩
  · rw [chain] at found
    exact absurd found (resolveStream_elementChain _ _ _ _)
  · rw [chain] at found
    obtain ⟨rfl, rfl⟩ := resolve_param found
    have param : m.param 0 = some m.row := by
      unfold Machine.param
      rw [declared]
      cases expected <;> first | rfl | exact absurd rfl notSource
    exact ⟨rfl, m.row, param, ⟨Expr.everywhere_element.mpr ⟨rfl, by simp⟩, trivial,
      by simp [Expr.eval, Machine.valuation]⟩, fits.row, by simp⟩

theorem valued_loadCapture (fits : FitsTypes m type)
    (chain : work.chain = elementChain m.closure type) {slot : Nat} {e : Expr}
    (h : loadCapture (.alongChain 1) m.closure.body slot work = .ok e work') :
    work = work' ∧ ∃ d, m.capture slot = some d ∧ Valued m e d := by
  obtain ⟨rfl, expected, -, found⟩ := loadCapture_eq_ok h
  rw [chain] at found
  obtain ⟨declared, cell, hdeclared, hcell, rfl⟩ := resolve_capture found
  refine ⟨rfl, m.cells cell, by simp [Machine.capture, hcell], ?_, ?_, by simp [Expr.ofCapture]⟩
  · exact ⟨Expr.everywhere_param.mpr ⟨rfl, by simp⟩, trivial,
      by simp [Expr.ofCapture, Expr.eval, Machine.valuation]⟩
  · exact fits.cells slot declared cell hdeclared hcell

inductive Executes (m : Machine Obj) (instruction : Instruction) (frame : Frame m.closure.body.Makes)
    (s : Machine.State Obj) : Flow m.closure.body.Makes → Prop where
  | next {frame' : Frame m.closure.body.Makes} {stack : List (Datum Obj)}
      {locals : List (Nat × Datum Obj)} :
      m.exec s instruction = some (.running ⟨s.pc + 1, stack, locals⟩) →
        Similar m frame' stack locals → Executes m instruction frame s (.next frame')
  | jump {target : Nat} {frame' : Frame m.closure.body.Makes} {stack : List (Datum Obj)}
      {locals : List (Nat × Datum Obj)} :
      m.exec s instruction = some (.running ⟨target, stack, locals⟩) →
        Similar m frame' stack locals → Executes m instruction frame s (.jump target frame')
  | branch {test : Expr} {b : Bool} {target : Nat} {frame' : Frame m.closure.body.Makes}
      {stack : List (Datum Obj)} {locals : List (Nat × Datum Obj)} :
      test.HasValue m.ops m.valuation (.bool b) →
        m.exec s instruction =
          some (.running ⟨if b then target else s.pc + 1, stack, locals⟩) →
        Similar m frame' stack locals → Executes m instruction frame s (.branch test target frame')
  | done {popped e : Expr} {rest : List (Operand m.closure.body.Makes)} {d : Datum Obj} :
      instruction = .ret → frame.stack = .value popped :: rest → Valued m popped d →
        coerceReturn m.closure.body.returns popped = .ok e →
        m.exec s instruction = some (.returned d) → Executes m instruction frame s (.done e)

/-- The step lemma: an instruction on expressions is followed by the machine, and
leaves the work as it is. -/
theorem executes_step (fits : FitsTypes m type) (chain : work.chain = elementChain m.closure type)
    (similar : Similar m frame s.stack s.locals) {instruction : Instruction}
    (plain : isPlain instruction = true) {written : instruction ∈ m.closure.body.code}
    {flow : Flow m.closure.body.Makes}
    (h : step ⟨m.schema, settings⟩ (nested.handles 1) pc instruction written frame work =
      .ok flow work') :
    work = work' ∧ Executes m instruction frame s flow := by
  cases step_eq_ok h with
  | const value =>
      exact ⟨rfl, .next rfl (similar.pushValue (valued_literal (by rintro x rfl; cases plain)))⟩
  | loadParam loaded =>
      obtain ⟨rfl, d, hd, valued⟩ := valued_loadParam fits chain loaded
      exact ⟨rfl, .next (by simp [Machine.exec, hd, Machine.State.next]) (similar.pushValue valued)⟩
  | loadCapture loaded =>
      obtain ⟨rfl, d, hd, valued⟩ := valued_loadCapture fits chain loaded
      exact ⟨rfl, .next (by simp [Machine.exec, hd, Machine.State.next]) (similar.pushValue valued)⟩
  | load _ found =>
      obtain ⟨d, hd, represents⟩ := similar.load found
      exact ⟨rfl, .next (by simp [Machine.exec, hd, Machine.State.next]) (similar.push represents)⟩
  | @store slot _ _ _ top same =>
      obtain ⟨d, rest, hs, represents, popped⟩ := similar.pop top same
      refine ⟨rfl, .next ?_ (popped.store slot represents)⟩
      simp [Machine.exec, hs]
  | dup top same =>
      obtain ⟨d, rest, hs, represents, -⟩ := similar.pop top same
      refine ⟨rfl, .next ?_ (similar.push represents)⟩
      simp [Machine.exec, hs, Machine.State.next]
  | pop top same =>
      obtain ⟨d, rest, hs, -, popped⟩ := similar.pop top same
      exact ⟨rfl, .next (by simp [Machine.exec, hs, Machine.State.next]) popped⟩
  | @invoke method _ _ enough invoked =>
      have owners : method.owner ≠ "JinqStream" ∧ method.owner ≠ "InQueryStreamSource" := by
        simpa [isPlain] using plain
      obtain ⟨values, taken, called⟩ := invoke_eq_ok owners.1 invoked
      obtain ⟨enough', valued, dropped⟩ := similar.popMany enough taken
      obtain ⟨hcall, rfl⟩ | ⟨entity, hcall, -⟩ := called
      · obtain ⟨_, d, ⟨⟩, hd, result⟩ := valued_valueCall fits.respects fits.patterns valued owners.2 hcall
        refine ⟨rfl, .next ?_ (dropped.pushValue result)⟩
        simp [Machine.exec, enough', hd, Machine.State.next]
      · obtain ⟨_, _, ⟨⟩, _⟩ := valued_valueCall fits.respects fits.patterns valued owners.2 hcall
  | newTuple _ _ enough taken =>
      obtain ⟨enough', valued, dropped⟩ := similar.popMany enough taken
      refine ⟨rfl, .next ?_ (dropped.pushValue (valued_pack valued))⟩
      simp [Machine.exec, enough', Machine.State.next]
  | makeClosure => cases plain
  | arith top same made =>
      obtain ⟨l, r, rest, hs, hl, hr, popped⟩ := similar.popTwo top same
      refine ⟨rfl, .next ?_ (popped.pushValue (valued_arith fits.respects hl hr made))⟩
      simp [Machine.exec, hs, Machine.State.next]
  | neg top same made =>
      obtain ⟨d, rest, hs, ho, popped⟩ := similar.popValue top same
      refine ⟨rfl, .next ?_ (popped.pushValue (valued_negation fits.respects ho made))⟩
      simp [Machine.exec, hs, Machine.State.next]
  | compare top same made =>
      obtain ⟨l, r, rest, hs, hl, hr, popped⟩ := similar.popTwo top same
      refine ⟨rfl, .next ?_ (popped.pushValue (valued_comparison hl hr made))⟩
      simp [Machine.exec, hs, Machine.State.next]
  | convert top same made =>
      obtain ⟨d, rest, hs, ho, popped⟩ := similar.popValue top same
      refine ⟨rfl, .next ?_ (popped.pushValue (valued_convert ho made))⟩
      simp [Machine.exec, hs, Machine.State.next]
  | ifZero top same made =>
      obtain ⟨d, rest, hs, ho, popped⟩ := similar.popValue top same
      refine ⟨rfl, .branch (hasValue_zeroTest ho made) ?_ popped⟩
      simp [Machine.exec, hs]
  | ifCompare top same made =>
      obtain ⟨l, r, rest, hs, hl, hr, popped⟩ := similar.popTwo top same
      refine ⟨rfl, .branch (valued_comparison hl hr made).toHasValue ?_ popped⟩
      simp [Machine.exec, hs]
  | goto => exact ⟨rfl, .jump rfl similar⟩
  | ret top same made =>
      obtain ⟨d, rest, hs, hd, -⟩ := similar.popValue top same
      exact ⟨rfl, .done rfl top hd made (by simp [Machine.exec, hs])⟩

end Step

/-! ## Results of paths -/

theorem mem_of_fetched {body : Body} {pc : Nat} {instruction : Instruction}
    (fetched : body.code[pc]? = some instruction) : instruction ∈ body.code :=
  List.mem_of_getElem? fetched

def LeadsTo (env : Environment) (body : Body) (head : BinderId) (chain : Chain) (pc : Nat)
    (frame : Frame body.Makes) (flow : Flow body.Makes) : Prop :=
  ∃ (instruction : Instruction) (fetched : body.code[pc]? = some instruction)
    (nested : Nested body) (work work' : Work), work.chain = chain ∧
      step env (nested.handles head) pc instruction (mem_of_fetched fetched) frame work = .ok flow work'

theorem LeadsTo.intro {env : Environment} {body : Body} {head : BinderId} {pc : Nat}
    {frame : Frame body.Makes} {flow : Flow body.Makes} {chain : Chain} {instruction : Instruction}
    (fetched : body.code[pc]? = some instruction) {nested : Nested body} {work work' : Work}
    (hc : work.chain = chain)
    (h : step env (nested.handles head) pc instruction (List.mem_of_getElem? fetched) frame work =
      .ok flow work') : LeadsTo env body head chain pc frame flow :=
  ⟨instruction, fetched, nested, work, work', hc, h⟩

/-- Where the run of a body gets to: a position with a frame, on a side of each
branch that its test does not rule out. -/
inductive Explores (env : Environment) (body : Body) (head : BinderId) (chain : Chain) :
    Nat → Frame body.Makes → Prop where
  | start : Explores env body head chain 0 .empty
  | next {pc : Nat} {frame frame' : Frame body.Makes} : Explores env body head chain pc frame →
      LeadsTo env body head chain pc frame (.next frame') →
      Explores env body head chain (pc + 1) frame'
  | jump {pc target : Nat} {frame frame' : Frame body.Makes} : Explores env body head chain pc frame →
      LeadsTo env body head chain pc frame (.jump target frame') →
      Explores env body head chain target frame'
  | taken {pc target : Nat} {frame frame' : Frame body.Makes} {test : Expr} :
      Explores env body head chain pc frame →
      LeadsTo env body head chain pc frame (.branch test target frame') →
      test.simplify.asBool ≠ some false → Explores env body head chain target frame'
  | passed {pc target : Nat} {frame frame' : Frame body.Makes} {test : Expr} :
      Explores env body head chain pc frame →
      LeadsTo env body head chain pc frame (.branch test target frame') →
      test.simplify.asBool ≠ some true → Explores env body head chain (pc + 1) frame'

def Popped (env : Environment) (body : Body) (head : BinderId) (chain : Chain) (e : Expr) : Prop :=
  ∃ (pc : Nat) (frame : Frame body.Makes) (rest : List (Operand body.Makes)),
    Explores env body head chain pc frame ∧ body.code[pc]? = some .ret ∧
      frame.stack = .value e :: rest

/-- Results of paths, joined in choices. -/
inductive Joined (m : Machine Obj) (result : Expr → Datum Obj → Prop) : Expr → Datum Obj → Prop where
  | path {e : Expr} {d : Datum Obj} : result e d → Joined m result e d
  | choose {test yes no : Expr} {b : Bool} {d d' : Datum Obj} :
      test.HasValue m.ops m.valuation (.bool b) → Joined m result yes d → Joined m result no d' →
        Joined m result (.choose test yes no) (if b then d else d')

/-- The result of one path: what a return takes from the stack, as a truth value
if the body returns one. -/
def PathResult (m : Machine Obj) (popped : Expr → Prop) (e : Expr) (d : Datum Obj) : Prop :=
  ∃ x, popped x ∧ Valued m x d ∧ coerceReturn m.closure.body.returns x = .ok e

section Run

variable {type : ValueType} {nested : Nested m.closure.body}

/-- The run lemma: from similar states the machine returns the value of the
expression that the run on expressions gives. -/
theorem joined_run (settings : Settings) (fits : FitsTypes m type)
    (plain : ∀ instruction ∈ m.closure.body.code, isPlain instruction = true)
    {pc : Nat} {frame : Frame m.closure.body.Makes} {stack : List (Datum Obj)}
    {locals : List (Nat × Datum Obj)} {work work' : Work} {e : Expr}
    (explored : Explores ⟨m.schema, settings⟩ m.closure.body 1 (elementChain m.closure type) pc frame)
    (chain : work.chain = elementChain m.closure type) (similar : Similar m frame stack locals)
    (h : run ⟨m.schema, settings⟩ (nested.handles 1) pc frame work = .ok e work') :
    work'.chain = elementChain m.closure type ∧
      ∃ d, m.Returns ⟨pc, stack, locals⟩ d ∧
        Joined m (PathResult m (Popped ⟨m.schema, settings⟩ m.closure.body 1
          (elementChain m.closure type))) e d := by
  -- Jumps go forward, so what is left of the code gets shorter.
  induction left : m.closure.body.code.length - pc using Nat.strong_induction_on
    generalizing pc frame stack locals work work' e with
  | _ size ih =>
    obtain ⟨instruction, fetched, flow, between, stepped, continues⟩ := run_eq_ok h
    have inside : pc < m.closure.body.code.length := (List.getElem?_eq_some_iff.mp fetched).1
    have chain' : ({ work with steps := work.steps + 1 } : Work).chain = _ := chain
    have leads := LeadsTo.intro fetched chain' stepped
    obtain ⟨rfl, executes⟩ := executes_step (s := ⟨pc, stack, locals⟩) fits chain' similar
      (plain instruction (List.mem_of_getElem? fetched)) stepped
    have machine : m.step ⟨pc, stack, locals⟩ = m.exec ⟨pc, stack, locals⟩ instruction := by
      simp [Machine.step, fetched]
    cases executes with
    | next executed similar' =>
        obtain ⟨kept, d, returns, joined⟩ :=
          ih _ (by omega) (explored.next leads) chain' similar' continues rfl
        exact ⟨kept, d, .step (machine.trans executed) returns, joined⟩
    | jump executed similar' =>
        obtain ⟨forward, continues⟩ := continues
        obtain ⟨kept, d, returns, joined⟩ :=
          ih _ (by omega) (explored.jump leads) chain' similar' continues rfl
        exact ⟨kept, d, .step (machine.trans executed) returns, joined⟩
    | done isRet top valued coerced executed =>
        obtain ⟨rfl, rfl⟩ := continues
        subst isRet
        exact ⟨chain, _, .ret (machine.trans executed),
          .path ⟨_, ⟨pc, frame, _, explored, fetched, top⟩, valued, coerced⟩⟩
    | @branch test b target frame' stack' locals' tested executed similar' =>
        obtain ⟨forward, continues⟩ := continues
        have simplified := Expr.hasValue_simplify tested.elementary tested.wellTyped
        rw [tested.eval_eq] at simplified
        cases constant : test.simplify.asBool with
        | some c =>
            have same : b = c := by
              have value := simplified.eval_eq.symm.trans (Expr.eval_of_asBool constant)
              simpa using value
            subst same
            simp only [constant] at continues
            cases b with
            | true =>
                obtain ⟨kept, d, returns, joined⟩ := ih _ (by omega)
                  (explored.taken leads (by simp [constant])) (by exact chain) similar'
                  continues rfl
                exact ⟨kept, d, .step (machine.trans executed) returns, joined⟩
            | false =>
                obtain ⟨kept, d, returns, joined⟩ := ih _ (by omega)
                  (explored.passed leads (by simp [constant])) (by exact chain) similar'
                  continues rfl
                exact ⟨kept, d, .step (machine.trans executed) returns, joined⟩
        | none =>
            simp only [constant] at continues
            obtain ⟨taken, passed, middle, htaken, hpassed, rfl⟩ := continues
            obtain ⟨kept, d, returns, joined⟩ := ih _ (by omega)
              (explored.taken leads (by simp [constant])) (by exact chain) similar' htaken rfl
            obtain ⟨kept', d', returns', joined'⟩ := ih _ (by omega)
              (explored.passed leads (by simp [constant])) kept similar' hpassed rfl
            refine ⟨kept', if b then d else d', .step (machine.trans executed) ?_,
              .choose simplified joined joined'⟩
            cases b with
            | true => exact returns
            | false => exact returns'

end Run

/-! ## Joined results -/

section Results

variable {e yes no test : Expr} {d : Datum Obj}

theorem type_choose (test yes no : Expr) :
    (Expr.choose test yes no).type =
      match yes.type with
      | .null => no.type
      | type => (type.widen no.type).getD type := rfl

theorem type_choose_of_bool (test : Expr) (hy : yes.type = .bool) (hn : no.type = .bool) :
    (Expr.choose test yes no).type = .bool := by
  rw [type_choose, hy, hn]
  rfl

theorem type_choose_ne_bool (test : Expr) (hy : yes.type ≠ .bool) (hn : no.type ≠ .bool) :
    (Expr.choose test yes no).type ≠ .bool := by
  rw [type_choose]
  split
  · exact hn
  · unfold ValueType.widen
    split
    · exact hy
    · split
      · simp
      · split <;> simp

/-- A truth value, or something erased that is read as one. -/
structure Truthful (m : Machine Obj) (e : Expr) (d : Datum Obj) : Prop where
  elementary : e.Elementary
  wellTyped : e.WellTyped m.ops m.valuation
  typed : e.type = .bool
  truth_eq : m.ops.truth (e.eval m.ops m.valuation) = m.ops.truth d

theorem coerceReturn_cases {x : Expr} (h : coerceReturn .bool x = .ok e) :
    (x.type = .bool ∧ e = x) ∨
      (x.asConstant = some (.int 0) ∧ e = .bool false) ∨
      (x.asConstant = some (.int 1) ∧ e = .bool true) ∨
      (x.type.isNumeric = true ∧ e = .compare .ne x (.literal (.int 0))) ∨
      (x.type = .any ∧ e = x.withType .bool) := by
  unfold coerceReturn at h
  split_ifs at h <;> cases h <;> simp_all

/-- A returned value is coerced to an expression of the same truth; it is a truth
value itself unless the type was erased. -/
theorem truthful_coerceReturn {x : Expr} (valued : Valued m x d)
    (h : coerceReturn .bool x = .ok e) :
    Truthful m e d ∧ (x.type ≠ .any → (e.eval m.ops m.valuation).IsBool) := by
  obtain ⟨typed, rfl⟩ | ⟨zero, rfl⟩ | ⟨one, rfl⟩ | ⟨numeric, rfl⟩ | ⟨erased, rfl⟩ :=
    coerceReturn_cases h
  · refine ⟨⟨valued.elementary, valued.wellTyped, typed, by rw [valued.eval_eq]⟩, fun _ => ?_⟩
    have fits := valued.fits
    rw [typed] at fits
    rw [valued.eval_eq]
    simpa [Datum.Fits] using fits
  · obtain ⟨t, rfl⟩ := Expr.eq_constant_of_asConstant zero
    have hd : d = .int 0 := by rw [← valued.eval_eq, Expr.eval]
    have falsity : m.ops.truth (.int 0) = false := by
      rw [← Bool.not_eq_true, m.ops.truth_int_iff]
      decide
    refine ⟨⟨Expr.everywhere_bool Expr.elementary_leafProperty false, trivial, rfl, ?_⟩, ?_⟩
    · rw [Expr.eval_bool, hd, falsity, m.ops.truth_bool]
    · simp
  · obtain ⟨t, rfl⟩ := Expr.eq_constant_of_asConstant one
    have hd : d = .int 1 := by rw [← valued.eval_eq, Expr.eval]
    have truth : m.ops.truth (.int 1) = true := (m.ops.truth_int_iff 1).mpr (by decide)
    refine ⟨⟨Expr.everywhere_bool Expr.elementary_leafProperty true, trivial, rfl, ?_⟩, ?_⟩
    · rw [Expr.eval_bool, hd, truth, m.ops.truth_bool]
    · simp
  · have tested := valued_compare .ne valued (valued_literal (m := m) (v := .int 0) (by simp))
    refine ⟨⟨tested.elementary, tested.wellTyped, rfl, ?_⟩, fun _ => ?_⟩
    · rw [tested.eval_eq, m.ops.truth_bool, m.ops.truth_of_isNumber (valued.fits.isNumber numeric)]
    · rw [tested.eval_eq]
      exact Datum.isBool_bool _
  · have read := hasValue_withType valued .bool
    refine ⟨⟨read.elementary, read.wellTyped, ?_, by rw [read.eval_eq]⟩, absurd erased⟩
    cases x <;> rfl

/-- A choice between truth values keeps its truth in normal form, whatever stands
in its arms. -/
theorem truth_finished_choice {pass : Pass} {l : Likeness} (hl : l.ByValue)
    (hfinish : pass.finish = Expr.reduce? l) {b : Bool}
    (ht : test.HasValue m.ops m.valuation (.bool b)) (hy : yes.Elementary) (hn : no.Elementary) :
    (pass.finished (.conditional test yes no .bool)).Elementary ∧
      m.ops.truth ((pass.finished (.conditional test yes no .bool)).eval m.ops m.valuation) =
        if b then m.ops.truth (yes.eval m.ops m.valuation)
        else m.ops.truth (no.eval m.ops m.valuation) := by
  have elementary : (Expr.conditional test yes no .bool).Elementary :=
    Expr.everywhere_conditional.mpr
      ⟨Expr.elementary_leafProperty.conditional .., ht.elementary, hy, hn⟩
  have unchanged : m.ops.truth ((Expr.conditional test yes no .bool).eval m.ops m.valuation) =
      if b then m.ops.truth (yes.eval m.ops m.valuation)
      else m.ops.truth (no.eval m.ops m.valuation) := by
    rw [Expr.eval, ht.eval_eq, m.ops.truth_bool]
    cases b <;> rfl
  unfold Pass.finished
  rw [hfinish]
  cases hr : Expr.reduce? l (.conditional test yes no .bool) with
  | none => exact ⟨elementary, unchanged⟩
  | some e' =>
      have rule := Expr.reduces_of_reduce? hr
      refine ⟨Expr.everywhere_of_reduces Expr.elementary_leafProperty rule elementary, ?_⟩
      rw [← unchanged]
      cases rule with
      | taken t hc => simp [Expr.eval, Expr.truth_of_asBool hc]
      | passed t hc => simp [Expr.eval, Expr.truth_of_asBool hc]
      | alike t ha => simp [Expr.eval, Expr.eq_of_like_of_elementary hl hy ha]
      | guarded =>
          rw [Option.getD_some, Expr.truth_eval_disj, Expr.truth_eval_conj, Expr.truth_eval_conj,
            Expr.truth_eval_negate, unchanged, ht.eval_eq, m.ops.truth_bool]
          cases b <;> simp

/-- Joined truth values in normal form have the truth of the path that is taken. -/
theorem truth_simplify_joined (h : Joined m (Truthful m) e d) :
    e.type = .bool ∧ e.simplify.Elementary ∧
      m.ops.truth (e.simplify.eval m.ops m.valuation) = m.ops.truth d := by
  induction h with
  | path result =>
      have simplified := Expr.hasValue_simplify result.elementary result.wellTyped
      exact ⟨result.typed, simplified.elementary, by rw [simplified.eval_eq, result.truth_eq]⟩
  | @choose test yes no b d d' tested _ _ ihy ihn =>
      obtain ⟨typed, hy, truthYes⟩ := ihy
      obtain ⟨typed', hn, truthNo⟩ := ihn
      have type := type_choose_of_bool test typed typed'
      have choice : Expr.choose test yes no = .conditional test yes no .bool :=
        congrArg (Expr.conditional test yes no) type
      have simplified := Expr.hasValue_simplify tested.elementary tested.wellTyped
      rw [tested.eval_eq] at simplified
      have pass : (Expr.choose test yes no).simplify =
          Expr.shallow.finished (.conditional test.simplify yes.simplify no.simplify .bool) := by
        rw [choice]
        exact (Pass.result_eq_finished rfl).trans
          (congrArg Expr.shallow.finished (Pass.rebuild_conditional ..))
      rw [pass]
      obtain ⟨elementary, truth⟩ :=
        truth_finished_choice Likeness.usual_byValue (show Expr.shallow.finish = _ from rfl)
          simplified hy hn
      refine ⟨type, elementary, truth.trans ?_⟩
      rw [truthYes, truthNo]
      cases b <;> rfl

theorem Joined.map {result result' : Expr → Datum Obj → Prop} {f : Datum Obj → Datum Obj}
    (hmap : ∀ e d, result e d → result' e (f d)) (h : Joined m result e d) :
    Joined m result' e (f d) := by
  induction h with
  | path hr => exact .path (hmap _ _ hr)
  | choose tested _ _ ihy ihn =>
      rw [apply_ite f]
      exact .choose tested ihy ihn

theorem hasValue_choose {b : Bool} {d' : Datum Obj}
    (tested : test.HasValue m.ops m.valuation (.bool b)) (hy : yes.HasValue m.ops m.valuation d)
    (hn : no.HasValue m.ops m.valuation d')
    (arms : (Expr.choose test yes no).type = .bool → d.IsBool ∧ d'.IsBool) :
    (Expr.choose test yes no).HasValue m.ops m.valuation (if b then d else d') :=
  tested.conditional hy hn (Datum.isBool_bool b) arms

/-- A truth value under its own type. -/
def IsTruth (m : Machine Obj) (e : Expr) (d : Datum Obj) : Prop :=
  e.HasValue m.ops m.valuation d ∧ e.type = .bool ∧ d.IsBool

def IsOther (m : Machine Obj) (e : Expr) (d : Datum Obj) : Prop :=
  e.HasValue m.ops m.valuation d ∧ e.type ≠ .bool

theorem isTruth_joined (h : Joined m (IsTruth m) e d) : IsTruth m e d := by
  induction h with
  | path result => exact result
  | @choose test _ _ b _ _ tested _ _ ihy ihn =>
      obtain ⟨hy, typed, isBool⟩ := ihy
      obtain ⟨hn, typed', isBool'⟩ := ihn
      refine ⟨hasValue_choose tested hy hn fun _ => ⟨isBool, isBool'⟩,
        type_choose_of_bool test typed typed', ?_⟩
      cases b with
      | true => exact isBool
      | false => exact isBool'

theorem isOther_joined (h : Joined m (IsOther m) e d) : IsOther m e d := by
  induction h with
  | path result => exact result
  | @choose test _ _ _ _ _ tested _ _ ihy ihn =>
      have typed := type_choose_ne_bool test ihy.2 ihn.2
      exact ⟨hasValue_choose tested ihy.1 ihn.1 (absurd · typed), typed⟩

/-- Paths of a body that returns no truth value: their results are what they take
from the stack. -/
theorem hasValue_joined {popped : Expr → Prop} (returns : m.closure.body.returns ≠ .bool)
    (uniform : (∀ x, popped x → x.type = .bool) ∨ ∀ x, popped x → x.type ≠ .bool)
    (h : Joined m (PathResult m popped) e d) : e.HasValue m.ops m.valuation d := by
  have taken : ∀ e d, PathResult m popped e d → popped e ∧ Valued m e d := by
    rintro e d ⟨x, hx, valued, coerced⟩
    obtain rfl : x = e := by simpa [coerceReturn, returns] using coerced
    exact ⟨hx, valued⟩
  rcases uniform with all | none
  · refine (isTruth_joined (h.map (f := id) fun e d result => ?_)).1
    obtain ⟨hx, valued⟩ := taken e d result
    have fits := valued.fits
    rw [all e hx] at fits
    exact ⟨valued.toHasValue, all e hx, by simpa [Datum.Fits] using fits⟩
  · refine (isOther_joined (h.map (f := id) fun e d result => ?_)).1
    obtain ⟨hx, valued⟩ := taken e d result
    exact ⟨valued.toHasValue, none e hx⟩

/-- Paths of a body that returns a truth value, none of them an erased one. -/
theorem isTruth_joined_of_known {popped : Expr → Prop} (returns : m.closure.body.returns = .bool)
    (known : ∀ x, popped x → x.type ≠ .any) (h : Joined m (PathResult m popped) e d) :
    IsTruth m e (.bool (m.ops.truth d)) := by
  refine isTruth_joined (h.map (f := fun d => .bool (m.ops.truth d)) ?_)
  rintro e d ⟨x, hx, valued, coerced⟩
  rw [returns] at coerced
  obtain ⟨truthful, isBool⟩ := truthful_coerceReturn valued coerced
  refine ⟨⟨truthful.elementary, truthful.wellTyped, ?_⟩, truthful.typed, Datum.isBool_bool _⟩
  rw [← truthful.truth_eq]
  exact m.ops.eq_bool_truth (isBool (known x hx))

end Results

theorem exists_run_of_compile {env : Environment} {closure : Closure} {chain : Chain}
    {head : BinderId} {supply : Supply} {e : Expr}
    (compiled : (closure.compile env chain head supply).outcome = .ok e) :
    ∃ (result : Expr) (work work' : Work), work.chain = chain ∧
      run env (handlesOf env closure.body head) 0 .empty work = .ok result work' ∧
        result.simplify = e := by
  unfold Closure.compile at compiled
  cases h : (compileBody env closure.body head).run { toSupply := supply, chain } with
  | error error work => simp [h] at compiled
  | ok found work =>
      simp only [h, Except.ok.injEq] at compiled
      subst compiled
      obtain ⟨result, between, ran, simplified, -⟩ := compileBody_eq_ok h
      exact ⟨result, _, between, rfl, ran, simplified⟩

/-- A compiled closure means what its code does. The machine returns, and what it
returns is the value of the expression, both read at the type that the body
returns. The expression is a truth value itself unless a returned value was of
erased type. -/
theorem eval_compile {Obj : Type} (ops : Operations Obj) (env : Environment) (closure : Closure)
    (type : ValueType) (row : Datum Obj) (cells : Cell → Datum Obj) (supply : Supply) (e : Expr)
    (fits : FitsTypes ⟨ops, env.schema, closure, row, cells⟩ type)
    (plain : ∀ instruction ∈ closure.body.code, isPlain instruction = true)
    (compiled : (closure.compile env (elementChain closure type) 1 supply).outcome = .ok e)
    (uniform : closure.body.returns ≠ .bool →
      (∀ x, Popped env closure.body 1 (elementChain closure type) x → x.type = .bool) ∨
        ∀ x, Popped env closure.body 1 (elementChain closure type) x → x.type ≠ .bool) :
    let m : Machine Obj := ⟨ops, env.schema, closure, row, cells⟩
    ∃ d, (∀ d', m.Returns .start d' ↔ d' = d) ∧
      m.read closure.body.returns (e.eval ops m.valuation) = m.read closure.body.returns d ∧
      ((∀ x, Popped env closure.body 1 (elementChain closure type) x → x.type ≠ .any) →
        e.eval ops m.valuation = m.read closure.body.returns d) := by
  intro m
  obtain ⟨result, work, work', chain, ran, rfl⟩ := exists_run_of_compile compiled
  obtain ⟨-, d, returned, joined⟩ := joined_run (m := m) env.settings fits plain
    .start chain ⟨.nil, .nil⟩ ran
  refine ⟨d, fun d' => ⟨fun h => h.unique returned, fun h => h ▸ returned⟩, ?_⟩
  by_cases returns : closure.body.returns = .bool
  · have truth : m.ops.truth (result.simplify.eval m.ops m.valuation) = m.ops.truth d := by
      refine (truth_simplify_joined (joined.map (f := id) ?_)).2.2
      rintro e d ⟨x, -, valued, coerced⟩
      exact (truthful_coerceReturn valued (returns ▸ coerced)).1
    refine ⟨by simpa [Machine.read, returns] using truth, fun known => ?_⟩
    have isTruth := (isTruth_joined_of_known returns known joined).1
    have simplified := Expr.hasValue_simplify isTruth.elementary isTruth.wellTyped
    simpa [Machine.read, returns, isTruth.eval_eq] using simplified.eval_eq
  · have value := hasValue_joined returns (uniform returns) joined
    have simplified := Expr.hasValue_simplify value.elementary value.wellTyped
    have same : result.simplify.eval m.ops m.valuation = d := by
      rw [simplified.eval_eq, value.eval_eq]
    exact ⟨by simpa [Machine.read, returns] using same,
      fun _ => by simpa [Machine.read, returns] using same⟩

/-- The first component of a customer as a truth value, though a customer is no tuple: the getter
has an erased type. -/
def firstOfCustomer : Closure where
  body := ⟨1, [.entity "Customer"], [], .bool,
    [.loadParam 0, .invoke ⟨"Pair", "getOne", 0, false⟩, .ret]⟩
  captured := []

def numbered : Operations Unit :=
  { Operations.standard fun field _ => .sample field.type with missing := fun _ _ => .int 2 }

/-- A returned value of erased type is no truth value itself: the machine's result is read as
true, and the expression has the number that was returned. -/
theorem eval_compile_erased :
    let schema : Schema := ⟨fun _ _ => none, (· == "Customer")⟩
    let m : Machine Unit := ⟨numbered, schema, firstOfCustomer, .object (), fun _ => .null⟩
    let e : Expr := .component (.element 1 (.entity "Customer")) 0 .bool
    FitsTypes m (.entity "Customer") ∧
      (∀ instruction ∈ firstOfCustomer.body.code, isPlain instruction = true) ∧
      (firstOfCustomer.compile ⟨schema, {}⟩ (elementChain firstOfCustomer (.entity "Customer")) 1
        ⟨0, 0⟩).outcome = .ok e ∧
      ∃ d, (∀ d', m.Returns .start d' ↔ d' = d) ∧ m.read .bool d = .bool true ∧
        e.eval m.ops m.valuation = .int 2 ∧ e.eval m.ops m.valuation ≠ m.read .bool d := by
  intro schema m e
  have respects : m.ops.RespectsTypes :=
    { Operations.respectsTypes_standard (fun field _ => Datum.fits_sample field.type) with }
  have reads : m.ops.ReadsPatterns :=
    Operations.readsPatterns_standard fun field (_ : Datum Unit) => .sample field.type
  have returned : m.Returns .start (.int 2) := .step rfl (.step rfl (.ret rfl))
  refine ⟨⟨respects, reads, trivial, nofun⟩, by decide, by decide +kernel, .int 2,
    fun d' => ⟨fun h => h.unique returned, ?_⟩, rfl, rfl, nofun⟩
  rintro rfl
  exact returned

/-- Whether a person is younger than a captured age: a branch that returns one or
zero. -/
def youngerThan : Closure where
  body := ⟨7, [.entity "Person"], [.int], .bool,
    [.loadParam 0, .invoke ⟨"Person", "getAge", 0, false⟩, .loadCapture 0, .ifCompare .ge 6,
      .const (.int 1), .ret, .const (.int 0), .ret]⟩
  captured := [⟨0⟩]

def people : Schema where
  field? entity accessor :=
    if entity = "Person" ∧ accessor = "getAge" then some ⟨"Person", "age", .int⟩ else none
  isEntity name := name == "Person"

def ageOf (f : FieldRef) (d : Datum Int64) : Datum Int64 :=
  match f.type, d with
  | .int, .object age => .int age
  | t, _ => .sample t

/-- Both returns of the closure come right after a constant. -/
theorem popped_youngerThan {env : Environment} {chain : Chain} {e : Expr}
    (h : Popped env youngerThan.body 1 chain e) : e.type = .int := by
  obtain ⟨pc, frame, rest, explored, returns, top⟩ := h
  have atReturn : pc = 5 ∨ pc = 7 := by
    rcases pc with _ | _ | _ | _ | _ | _ | _ | _ | pc <;> simp [youngerThan] at returns ⊢
  cases explored with
  | start => simp at atReturn
  | @next pc before _ _ leads =>
      obtain ⟨instruction, fetched, _, _, _, -, stepped⟩ := leads
      have steps := step_eq_ok stepped
      obtain ⟨value, rfl, int⟩ : ∃ value, instruction = .const value ∧ value.type = .int := by
        rcases atReturn with same | same <;> cases same <;> cases fetched <;>
          exact ⟨_, rfl, rfl⟩
      cases steps
      cases top
      exact int
  | jump _ leads =>
      obtain ⟨instruction, fetched, _, _, _, -, stepped⟩ := leads
      cases step_eq_ok stepped
      have := List.mem_of_getElem? fetched
      simp [youngerThan] at this
  | taken _ leads =>
      obtain ⟨instruction, fetched, _, _, _, -, stepped⟩ := leads
      have branch := List.mem_of_getElem? fetched
      cases step_eq_ok stepped <;> simp [youngerThan] at branch
      omega
  | @passed pc _ _ _ _ _ leads =>
      obtain ⟨instruction, fetched, _, _, _, -, stepped⟩ := leads
      have steps := step_eq_ok stepped
      rcases atReturn with same | same <;> cases same <;> cases fetched <;> cases steps

theorem eval_compile_youngerThan :
    let m : Machine Int64 := ⟨.standard ageOf, people, youngerThan, .object 30, fun _ => .int 65⟩
    let e := .compare .lt (.access (.element 1 (.entity "Person")) ⟨"Person", "age", .int⟩)
      (.ofCapture ⟨7, 0, .int, ⟨0⟩⟩)
    FitsTypes m (.entity "Person") ∧
      (∀ instruction ∈ youngerThan.body.code, isPlain instruction = true) ∧
      (youngerThan.compile ⟨people, {}⟩ (elementChain youngerThan (.entity "Person")) 1
        ⟨0, 0⟩).outcome = .ok e ∧
      (∀ d, m.Returns .start d ↔ d = .int 1) ∧ m.read .bool (.int 1) = .bool true ∧
        e.eval m.ops m.valuation = .bool true := by
  intro m e
  have respects : m.ops.RespectsTypes := by
    refine Operations.respectsTypes_standard fun f d => ?_
    unfold ageOf
    split
    next known => exact known ▸ trivial
    next => exact Datum.fits_sample _
  have fits : FitsTypes m (.entity "Person") := by
    refine ⟨respects, Operations.readsPatterns_standard ageOf, trivial,
      fun slot declared cell hd hc => ?_⟩
    obtain rfl : slot = 0 := by
      have := (List.getElem?_eq_some_iff.mp hc).1
      exact Nat.lt_one_iff.mp this
    cases hd
    trivial
  have plain : ∀ instruction ∈ youngerThan.body.code, isPlain instruction = true := by decide
  have compiled : (youngerThan.compile ⟨people, {}⟩ (elementChain youngerThan (.entity "Person")) 1
      ⟨0, 0⟩).outcome = .ok e := by
    decide +kernel
  obtain ⟨d, returns, -, value⟩ := eval_compile m.ops ⟨people, {}⟩ youngerThan (.entity "Person")
    m.row m.cells ⟨0, 0⟩ e fits plain compiled (absurd rfl)
  have returned : m.Returns .start (.int 1) :=
    .step rfl (.step rfl (.step rfl (.step rfl (.step rfl (.ret rfl)))))
  obtain rfl := (returns _).mp returned
  refine ⟨fits, plain, compiled, returns, rfl, value fun x popped => ?_⟩
  simp [popped_youngerThan popped]

end StreamQuery.Compile
