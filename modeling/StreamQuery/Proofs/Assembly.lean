import Mathlib.Data.List.Forall2
import Mathlib.Data.List.Induction
import StreamQuery.Closure.Assembler

/-! # Assembled code

A body is assembled by a sequence of calls. What comes out is told by the calls alone: the
instructions in the order in which they were written, where a labelled jump leads to as many
instructions as were written before its label was bound. The same code comes about if jumps are
first written without a target, and the targets are put in at the end from a table of labels
and a list of patches. Every patch meets a jump then.
-/

namespace StreamQuery

/-- A call on a body in the making. All calls that write an instruction as it is are one. -/
inductive Assembler.Call where
  | param (type : ValueType)
  | capture (type : ValueType)
  | returning (type : ValueType)
  | newLabel
  | bind (label : Label)
  | emit (instruction : Instruction)
  | jump (kind : Jump) (label : Label)

namespace Assembler

def perform (a : Assembler) : Call → Assembler
  | .param type => a.param type
  | .capture type => a.capture type
  | .returning type => a.returning type
  | .newLabel => a.newLabel.2
  | .bind label => match a.bind label with
    | .ok a => a
    | .error _ => a
  | .emit instruction => a.emit instruction
  | .jump kind label => a.jump kind label

def performAll (a : Assembler) (calls : List Call) : Assembler := calls.foldl perform a

def after (id : ClosureId) (calls : List Call) : Assembler := performAll { id } calls

/-! ## Calls as they were made -/

namespace Call

def line? : Call → Option Line
  | emit instruction => some (.plain instruction)
  | jump kind label => some (.labelled kind label)
  | _ => none

def param? : Call → Option ValueType
  | param type => some type
  | _ => none

def capture? : Call → Option ValueType
  | capture type => some type
  | _ => none

def returning? : Call → Option ValueType
  | returning type => some type
  | _ => none

/-- Calls that use only labels which were handed out before. -/
def ownLabels : (issued : Nat) → List Call → Bool
  | _, [] => true
  | issued, newLabel :: calls => ownLabels (issued + 1) calls
  | issued, bind label :: calls | issued, jump _ label :: calls =>
    decide (label < issued) && ownLabels issued calls
  | issued, _ :: calls => ownLabels issued calls

end Call

def written (calls : List Call) : List Line := calls.filterMap Call.line?

/-- A label was bound after some number of lines. Only the first time counts. -/
def BoundAt (calls : List Call) (label : Label) (position : Nat) : Prop :=
  ∃ before after, calls = before ++ .bind label :: after ∧ .bind label ∉ before ∧
    (written before).length = position

/-- What becomes of a line: a labelled jump leads to where its label was bound, and anything
else stays as it is. -/
inductive Assembled (calls : List Call) : Line → Instruction → Prop where
  | plain (instruction : Instruction) : Assembled calls (.plain instruction) instruction
  | labelled (kind : Jump) {label : Label} {position : Nat}
      (bound : BoundAt calls label position) :
      Assembled calls (.labelled kind label) (kind.to position)

section History

variable {id : ClosureId} {calls : List Call} {call : Call} {label : Label} {position : Nat}

theorem after_concat (id : ClosureId) (calls : List Call) (call : Call) :
    after id (calls ++ [call]) = (after id calls).perform call := by
  simp [after, performAll]

theorem perform_bind (a : Assembler) (label : Label) : a.perform (.bind label) =
    match a.position? label with
    | some _ => a
    | none => { a with bound := (label, a.lines.size) :: a.bound } := by
  simp only [perform, bind]
  cases a.position? label <;> rfl

theorem lines_perform (a : Assembler) (call : Call) :
    (a.perform call).lines.toList = a.lines.toList ++ call.line?.toList := by
  cases call with
  | bind label =>
      rw [perform_bind]
      cases a.position? label <;> simp [Call.line?]
  | _ => simp [perform, Call.line?, param, capture, returning, newLabel, emit, jump]

/-- The lines are those that the calls wrote, in their order. -/
theorem lines_after (id : ClosureId) (calls : List Call) :
    (after id calls).lines.toList = written calls := by
  induction calls using List.reverseRecOn with
  | nil => rfl
  | append_singleton calls call ih =>
      rw [after_concat, lines_perform, ih, written, written, List.filterMap_append]
      cases h : call.line? <;> simp [h]

theorem bind_mem_iff : .bind label ∈ calls ↔ ∃ position, BoundAt calls label position := by
  constructor
  · intro h
    obtain ⟨before, after, split, first⟩ := List.eq_append_cons_of_mem h
    exact ⟨_, before, after, split, first, rfl⟩
  · rintro ⟨_, before, after, rfl, -⟩
    simp

theorem Assembled.bind_mem {kind : Jump} {instruction : Instruction}
    (h : Assembled calls (.labelled kind label) instruction) : .bind label ∈ calls := by
  cases h with
  | labelled _ bound => exact bind_mem_iff.mpr ⟨_, bound⟩

/-- A label is bound by an earlier call, or by the last one. -/
theorem boundAt_concat : BoundAt (calls ++ [call]) label position ↔
    BoundAt calls label position ∨
      call = .bind label ∧ .bind label ∉ calls ∧ (written calls).length = position := by
  constructor
  · rintro ⟨before, after, split, first, rfl⟩
    rcases List.eq_nil_or_concat after with rfl | ⟨after, last, rfl⟩
    · obtain ⟨rfl, ⟨⟩⟩ := List.append_inj' split rfl
      exact .inr ⟨rfl, first, rfl⟩
    · have split : calls ++ [call] = (before ++ .bind label :: after) ++ [last] := by
        simpa using split
      obtain ⟨rfl, -⟩ := List.append_inj' split rfl
      exact .inl ⟨before, after, rfl, first, rfl⟩
  · rintro (⟨before, after, rfl, first, rfl⟩ | ⟨rfl, first, rfl⟩)
    · exact ⟨before, after ++ [call], by simp, first, rfl⟩
    · exact ⟨calls, [], rfl, first, rfl⟩

theorem position?_perform_of_ne (a : Assembler) (other : call ≠ .bind label) :
    (a.perform call).position? label = a.position? label := by
  cases call with
  | bind label' =>
      have apart : (label == label') = false := by
        refine beq_false_of_ne fun same => other ?_
        rw [same]
      rw [perform_bind]
      cases a.position? label' <;> simp [position?, List.lookup_cons, apart]
  | _ => rfl

/-- The table has the labels with the number of lines before each. -/
theorem position?_after (id : ClosureId) (calls : List Call) (label : Label) (position : Nat) :
    (after id calls).position? label = some position ↔ BoundAt calls label position := by
  induction calls using List.reverseRecOn generalizing position with
  | nil => simp [after, performAll, position?, BoundAt]
  | append_singleton calls call ih =>
      rw [after_concat, boundAt_concat]
      by_cases here : call = .bind label
      · subst here
        rw [perform_bind]
        cases known : (after id calls).position? label with
        | some earlier =>
            have bound := bind_mem_iff.mpr ⟨earlier, (ih earlier).mp known⟩
            simp [ih, bound]
        | none =>
            have unbound : .bind label ∉ calls := fun bound => by
              obtain ⟨position, bound⟩ := bind_mem_iff.mp bound
              simp [(ih position).mpr bound] at known
            have size : (after id calls).lines.size = (written calls).length := by
              rw [← lines_after id calls, Array.length_toList]
            have first : ¬ BoundAt calls label position := fun bound =>
              unbound (bind_mem_iff.mpr ⟨_, bound⟩)
            simp [position?, first, unbound, size]
      · rw [position?_perform_of_ne _ here, ih]
        simp [here]

theorem position?_after_eq_none (id : ClosureId) :
    (after id calls).position? label = none ↔ .bind label ∉ calls := by
  rw [bind_mem_iff, not_exists, Option.eq_none_iff_forall_ne_some]
  simp only [ne_eq, position?_after]

/-- A label that is bound cannot be bound again, and the attempt changes nothing. -/
theorem bind_after (id : ClosureId) (calls : List Call) (label : Label) :
    (.bind label ∈ calls → (after id calls).bind label = .error (.rebound label) ∧
      after id (calls ++ [.bind label]) = after id calls) ∧
    (.bind label ∉ calls → ∃ a, (after id calls).bind label = .ok a) := by
  constructor
  · intro bound
    obtain ⟨position, bound⟩ := bind_mem_iff.mp bound
    have known := (position?_after id calls label position).mpr bound
    rw [after_concat, perform_bind]
    simp [bind, known]
  · intro unbound
    simp [bind, (position?_after_eq_none id).mpr unbound]

/-- The signature is what the calls say, whenever they say it. -/
theorem signature_after (id : ClosureId) (calls : List Call) :
    (after id calls).id = id ∧ (after id calls).params = calls.filterMap Call.param? ∧
      (after id calls).captures = calls.filterMap Call.capture? ∧
      (after id calls).returns = (calls.filterMap Call.returning?).getLast?.getD .any := by
  induction calls using List.reverseRecOn with
  | nil => exact ⟨rfl, rfl, rfl, rfl⟩
  | append_singleton calls call ih =>
      obtain ⟨hid, params, captures, returns⟩ := ih
      rw [after_concat]
      cases call with
      | bind label =>
          rw [perform_bind]
          cases (after id calls).position? label <;>
            simp [hid, params, captures, returns, Call.param?, Call.capture?, Call.returning?]
      | _ =>
          simp [perform, param, capture, returning, newLabel, emit, jump, hid, params, captures,
            returns, Call.param?, Call.capture?, Call.returning?]

end History

/-! ## Lines in order -/

section Lines

variable {α β ε : Type} {f : α → Except ε β} {xs : List α}

theorem mapM_eq_ok_iff {ys : List β} :
    xs.mapM f = .ok ys ↔ List.Forall₂ (fun x y => f x = .ok y) xs ys := by
  induction xs generalizing ys with
  | nil =>
      rw [List.mapM_nil, List.forall₂_nil_left_iff]
      exact ⟨fun h => by cases h; rfl, fun h => h ▸ rfl⟩
  | cons x xs ih =>
      rw [List.mapM_cons, List.forall₂_cons_left_iff]
      simp only [← ih]
      cases f x with
      | error e => exact ⟨nofun, nofun⟩
      | ok y =>
          cases xs.mapM f with
          | error e => exact ⟨nofun, nofun⟩
          | ok zs => exact ⟨fun h => by cases h; exact ⟨y, zs, rfl, rfl, rfl⟩, by
              rintro ⟨_, _, ⟨⟩, ⟨⟩, rfl⟩
              rfl⟩

theorem mapM_eq_error {e : ε} (h : xs.mapM f = .error e) :
    ∃ before x after, xs = before ++ x :: after ∧ f x = .error e ∧
      ∀ y ∈ before, ∃ b, f y = .ok b := by
  induction xs with
  | nil => cases h
  | cons x xs ih =>
      rw [List.mapM_cons] at h
      cases first : f x with
      | error e' =>
          rw [first] at h
          cases h
          exact ⟨[], x, xs, rfl, first, nofun⟩
      | ok b =>
          rw [first] at h
          cases rest : xs.mapM f with
          | ok bs =>
              rw [rest] at h
              cases h
          | error e' =>
              rw [rest] at h
              cases h
              obtain ⟨before, y, after, rfl, fails, fine⟩ := ih rest
              exact ⟨x :: before, y, after, rfl, fails, List.forall_mem_cons.mpr ⟨⟨b, first⟩, fine⟩⟩

end Lines

section Assembling

variable {id : ClosureId} {calls : List Call}

theorem instruction_eq_ok_iff {line : Line} {instruction : Instruction} :
    (after id calls).instruction line = .ok instruction ↔ Assembled calls line instruction := by
  cases line with
  | plain i =>
      constructor
      · rintro ⟨⟩
        exact .plain _
      · rintro ⟨⟩
        rfl
  | labelled kind label =>
      rw [Assembler.instruction]
      cases known : (after id calls).position? label with
      | none =>
          refine ⟨nofun, ?_⟩
          rintro ⟨⟩
          next bound => simp [(position?_after ..).mpr bound] at known
      | some position =>
          constructor
          · rintro ⟨⟩
            exact .labelled kind ((position?_after ..).mp known)
          · rintro ⟨⟩
            next bound =>
              rw [(position?_after ..).mpr bound] at known
              cases known
              rfl

theorem instruction_eq_error_iff {line : Line} {error : AssembleError} :
    (after id calls).instruction line = .error error ↔
      ∃ kind label, line = .labelled kind label ∧ error = .unbound label ∧
        .bind label ∉ calls := by
  cases line with
  | plain i => simp [Assembler.instruction]
  | labelled kind label =>
      rw [Assembler.instruction]
      cases known : (after id calls).position? label with
      | none =>
          have unbound := (position?_after_eq_none id).mp known
          constructor
          · rintro ⟨⟩
            exact ⟨kind, label, rfl, rfl, unbound⟩
          · rintro ⟨_, _, ⟨⟩, rfl, -⟩
            rfl
      | some position =>
          refine ⟨nofun, ?_⟩
          rintro ⟨_, _, ⟨⟩, -, unbound⟩
          simp [(position?_after_eq_none id).mpr unbound] at known

theorem code_of_assemble {body : Body} (h : (after id calls).assemble = .ok body) :
    List.Forall₂ (Assembled calls) (written calls) body.code ∧ body.id = id ∧
      body.params = calls.filterMap Call.param? ∧
      body.captures = calls.filterMap Call.capture? ∧
      body.returns = (calls.filterMap Call.returning?).getLast?.getD .any := by
  rw [assemble, lines_after] at h
  cases ran : (written calls).mapM (after id calls).instruction with
  | error error =>
      rw [ran] at h
      cases h
  | ok code =>
      rw [ran] at h
      cases h
      exact ⟨(mapM_eq_ok_iff.mp ran).imp fun _ _ => instruction_eq_ok_iff.mp,
        signature_after id calls⟩

theorem unbound_of_assemble {error : AssembleError}
    (h : (after id calls).assemble = .error error) :
    ∃ before kind label rest, written calls = before ++ .labelled kind label :: rest ∧
      error = .unbound label ∧ .bind label ∉ calls ∧
      ∀ kind' label', .labelled kind' label' ∈ before → .bind label' ∈ calls := by
  rw [assemble, lines_after] at h
  cases ran : (written calls).mapM (after id calls).instruction with
  | ok code =>
      rw [ran] at h
      cases h
  | error e =>
      rw [ran] at h
      cases h
      obtain ⟨before, line, rest, split, fails, fine⟩ := mapM_eq_error ran
      obtain ⟨kind, label, rfl, rfl, unbound⟩ := instruction_eq_error_iff.mp fails
      refine ⟨before, kind, label, rest, split, rfl, unbound, fun kind' label' mem => ?_⟩
      obtain ⟨instruction, found⟩ := fine _ mem
      exact (instruction_eq_ok_iff.mp found).bind_mem

/-- Assembling succeeds just if every label that a jump names was bound. -/
theorem exists_assemble_iff : (∃ body, (after id calls).assemble = .ok body) ↔
    ∀ kind label, .labelled kind label ∈ written calls → .bind label ∈ calls := by
  constructor
  · rintro ⟨body, h⟩ kind label mem
    obtain ⟨code, -⟩ := code_of_assemble h
    obtain ⟨length, each⟩ := List.forall₂_iff_get.mp code
    obtain ⟨i, line⟩ := List.get_of_mem mem
    have found := each i i.2 (length ▸ i.2)
    rw [line] at found
    exact found.bind_mem
  · intro bound
    cases outcome : (after id calls).assemble with
    | ok body => exact ⟨body, rfl⟩
    | error error =>
        obtain ⟨before, kind, label, rest, split, -, unbound, -⟩ := unbound_of_assemble outcome
        exact absurd (bound kind label (by simp [split])) unbound

end Assembling

end Assembler

/-! ## Patching -/

/-- A jump with another target. No other instruction has one. -/
def Instruction.retarget? (target : Nat) : Instruction → Option Instruction
  | .ifZero op _ => some (.ifZero op target)
  | .ifCompare op _ => some (.ifCompare op target)
  | .goto _ => some (.goto target)
  | _ => none

theorem Jump.retarget?_to (kind : Jump) (target target' : Nat) :
    (kind.to target).retarget? target' = some (kind.to target') := by
  cases kind <;> rfl

/-- Code whose labelled jumps lead nowhere yet, with a table of the labels, and the places where
the position of a label is to be put in. -/
structure Draft where
  code : List Instruction := []
  positions : List (Option Nat) := []
  patches : List (Nat × Label) := []

namespace Draft

open Assembler (Call)

inductive Fault where
  | refused (error : AssembleError)
  /-- A label that is not in the table. -/
  | foreign (label : Label)
  /-- A patch that meets no jump. -/
  | misplaced (position : Nat)

def perform (d : Draft) : Call → Except Fault Draft
  | .param _ | .capture _ | .returning _ => .ok d
  | .newLabel => .ok { d with positions := d.positions ++ [none] }
  | .bind label => match d.positions[label]? with
    | none => .error (.foreign label)
    | some (some _) => .ok d
    | some none => .ok { d with positions := d.positions.set label (some d.code.length) }
  | .emit instruction => .ok { d with code := d.code ++ [instruction] }
  | .jump kind label =>
    .ok { d with
      code := d.code ++ [kind.to 0]
      patches := d.patches ++ [(d.code.length, label)] }

def performAll (d : Draft) (calls : List Call) : Except Fault Draft := calls.foldlM perform d

def patched (positions : List (Option Nat)) :
    List Instruction → List (Nat × Label) → Except Fault (List Instruction)
  | code, [] => .ok code
  | code, (position, label) :: patches =>
    match positions[label]? with
    | none => .error (.foreign label)
    | some none => .error (.refused (.unbound label))
    | some (some target) =>
      match code[position]?.bind (·.retarget? target) with
      | none => .error (.misplaced position)
      | some instruction => patched positions (code.set position instruction) patches

def build (d : Draft) : Except Fault (List Instruction) := patched d.positions d.code d.patches

end Draft

def Line.draft : Line → Instruction
  | plain instruction => instruction
  | labelled kind _ => kind.to 0

def Line.patchesFrom : (position : Nat) → List Line → List (Nat × Label)
  | _, [] => []
  | position, plain _ :: lines => patchesFrom (position + 1) lines
  | position, labelled _ label :: lines => (position, label) :: patchesFrom (position + 1) lines

theorem Line.patchesFrom_concat (position : Nat) (lines : List Line) (line : Line) :
    patchesFrom position (lines ++ [line]) =
      patchesFrom position lines ++ patchesFrom (position + lines.length) [line] := by
  induction lines generalizing position with
  | nil => rfl
  | cons first lines ih =>
      have shift : position + (lines.length + 1) = position + 1 + lines.length := by omega
      cases first <;> simp [patchesFrom, ih, shift]

namespace Assembler

/-- A draft has all that an assembler has. -/
structure Drafts (a : Assembler) (d : Draft) : Prop where
  code : d.code = a.lines.toList.map Line.draft
  patches : d.patches = Line.patchesFrom 0 a.lines.toList
  size : d.positions.length = a.issued
  positions : ∀ label, label < a.issued → d.positions[label]? = some (a.position? label)
  unissued : ∀ label, a.issued ≤ label → a.position? label = none
  labels : ∀ kind label, .labelled kind label ∈ a.lines.toList → label < a.issued

variable {a : Assembler} {d : Draft} {label : Label}

theorem Drafts.emit (h : a.Drafts d) (instruction : Instruction) :
    (a.emit instruction).Drafts { d with code := d.code ++ [instruction] } where
  code := by simp [Assembler.emit, h.code, Line.draft]
  patches := by
    simp [Assembler.emit, h.patches, Line.patchesFrom_concat, Line.patchesFrom]
  size := h.size
  positions := h.positions
  unissued := h.unissued
  labels kind label mem := by
    have earlier : Line.labelled kind label ∈ a.lines.toList := by
      simpa [Assembler.emit] using mem
    exact h.labels kind label earlier

theorem Drafts.jump (h : a.Drafts d) (kind : Jump) (own : label < a.issued) :
    (a.jump kind label).Drafts { d with
      code := d.code ++ [kind.to 0]
      patches := d.patches ++ [(d.code.length, label)] } where
  code := by simp [Assembler.jump, h.code, Line.draft]
  patches := by
    simp [Assembler.jump, h.patches, h.code, Line.patchesFrom_concat, Line.patchesFrom]
  size := h.size
  positions := h.positions
  unissued := h.unissued
  labels kind' label' mem := by
    have here : Line.labelled kind' label' ∈ a.lines.toList ∨ kind' = kind ∧ label' = label := by
      simpa [Assembler.jump] using mem
    rcases here with earlier | ⟨-, rfl⟩
    · exact h.labels kind' label' earlier
    · exact own

theorem Drafts.newLabel (h : a.Drafts d) :
    a.newLabel.2.Drafts { d with positions := d.positions ++ [none] } where
  code := h.code
  patches := h.patches
  size := by simp [Assembler.newLabel, h.size]
  positions label issued := by
    rcases Nat.lt_succ_iff_lt_or_eq.mp issued with earlier | rfl
    · rw [List.getElem?_append_left (h.size ▸ earlier)]
      exact h.positions label earlier
    · have last : a.newLabel.2.position? a.issued = none := h.unissued a.issued (Nat.le_refl _)
      rw [last, ← h.size]
      exact List.getElem?_concat_length
  unissued label later := h.unissued label (Nat.le_of_succ_le later)
  labels kind label mem := Nat.lt_succ_of_lt (h.labels kind label mem)

/-- A label that is bound keeps its position, and any other one takes the next. -/
theorem Drafts.bind (h : a.Drafts d) (own : label < a.issued) :
    ∃ d', d.perform (.bind label) = .ok d' ∧ (a.perform (.bind label)).Drafts d' := by
  rw [perform_bind, Draft.perform, h.positions label own]
  cases known : a.position? label with
  | some position => exact ⟨d, rfl, h⟩
  | none =>
      refine ⟨_, rfl, h.code, h.patches, by simp [h.size], fun label' own' => ?_,
        fun label' later => ?_, h.labels⟩
      · have length : d.code.length = a.lines.size := by simp [h.code]
        by_cases here : label' = label
        · subst here
          simp [Assembler.position?, h.size, own, length]
        · have apart : (label' == label) = false := beq_false_of_ne here
          rw [List.getElem?_set_ne (Ne.symm here), h.positions label' own']
          simp [Assembler.position?, List.lookup_cons, apart]
      · have apart : (label' == label) = false := by
          refine beq_false_of_ne fun same => ?_
          subst same
          exact Nat.not_lt.mpr later own
        have earlier := h.unissued label' later
        simpa [Assembler.position?, List.lookup_cons, apart] using earlier

/-- One call on both sides, and the labels of the calls after it. -/
theorem Drafts.perform (h : a.Drafts d) {call : Call} {calls : List Call}
    (own : Call.ownLabels a.issued (call :: calls) = true) :
    ∃ d', d.perform call = .ok d' ∧ (a.perform call).Drafts d' ∧
      Call.ownLabels (a.perform call).issued calls = true := by
  cases call with
  | param | capture | returning =>
      exact ⟨d, rfl, ⟨h.code, h.patches, h.size, h.positions, h.unissued, h.labels⟩, own⟩
  | newLabel => exact ⟨_, rfl, h.newLabel, own⟩
  | emit instruction => exact ⟨_, rfl, h.emit instruction, own⟩
  | jump kind label =>
      simp only [Call.ownLabels, Bool.and_eq_true, decide_eq_true_eq] at own
      exact ⟨_, rfl, h.jump kind own.1, own.2⟩
  | bind label =>
      simp only [Call.ownLabels, Bool.and_eq_true, decide_eq_true_eq] at own
      obtain ⟨d', performs, drafts⟩ := h.bind own.1
      refine ⟨d', performs, drafts, ?_⟩
      have issued : (a.perform (.bind label)).issued = a.issued := by
        rw [perform_bind]
        cases a.position? label <;> rfl
      rw [issued]
      exact own.2

theorem Drafts.performAll {calls : List Call} (h : a.Drafts d)
    (own : Call.ownLabels a.issued calls = true) :
    ∃ d', d.performAll calls = .ok d' ∧ (a.performAll calls).Drafts d' := by
  induction calls generalizing a d with
  | nil => exact ⟨d, rfl, h⟩
  | cons call calls ih =>
      obtain ⟨next, performs, drafts, own⟩ := h.perform own
      obtain ⟨last, performs', drafts⟩ := ih drafts own
      refine ⟨last, ?_, drafts⟩
      rw [Draft.performAll, List.foldlM_cons, performs]
      exact performs'

/-- Patching the lines from some position on gives their instructions, or the label of the first
jump that lacks its position. -/
theorem Drafts.patched (h : a.Drafts d) (lines : List Line)
    (own : ∀ kind label, .labelled kind label ∈ lines → label < a.issued)
    (earlier : List Instruction) :
    Draft.patched d.positions (earlier ++ lines.map Line.draft)
      (Line.patchesFrom earlier.length lines) =
        ((lines.mapM a.instruction).map (earlier ++ ·)).mapError .refused := by
  induction lines generalizing earlier with
  | nil =>
      rw [Line.patchesFrom, Draft.patched]
      rfl
  | cons line lines ih =>
      have rest (instruction : Instruction) : Draft.patched d.positions
          (earlier ++ instruction :: lines.map Line.draft)
          (Line.patchesFrom (earlier.length + 1) lines) =
            ((lines.mapM a.instruction).map (earlier ++ instruction :: ·)).mapError .refused := by
        have later := ih (fun kind label mem => own kind label (List.mem_cons_of_mem _ mem))
          (earlier ++ [instruction])
        simpa using later
      rw [List.mapM_cons, List.map_cons]
      cases line with
      | plain instruction =>
          rw [Line.patchesFrom, Line.draft, rest, Assembler.instruction]
          cases lines.mapM a.instruction <;> rfl
      | labelled kind label =>
          rw [Line.patchesFrom, Line.draft, Draft.patched,
            h.positions label (own kind label List.mem_cons_self), Assembler.instruction]
          cases a.position? label with
          | none => rfl
          | some target =>
              have jump : (earlier ++ kind.to 0 :: lines.map Line.draft)[earlier.length]? =
                  some (kind.to 0) := by simp
              simp only [jump, Option.bind_some, Jump.retarget?_to, List.set_append_right,
                Nat.le_refl, Nat.sub_self, List.set_cons_zero, rest]
              cases lines.mapM a.instruction <;> rfl

/-- A draft is built just as the body is assembled. -/
theorem Drafts.build (h : a.Drafts d) :
    d.build = (a.assemble.map Body.code).mapError .refused := by
  have patched := h.patched a.lines.toList h.labels []
  rw [List.nil_append, List.length_nil, ← h.code, ← h.patches] at patched
  rw [Draft.build, patched, assemble]
  cases a.lines.toList.mapM a.instruction <;> rfl

/-! ## Assembling what was written -/

/-- A body is assembled of the calls that were made. A label can be bound once, and a second
attempt changes nothing. Assembling succeeds just if every label that a jump names was bound;
the code is then what was written, in order, with each labelled jump led to its label. Otherwise
it fails at the first jump whose label was not bound. Patching a draft comes to the same, and no
patch is misplaced. -/
theorem assemble_after (id : ClosureId) (calls : List Call)
    (own : Call.ownLabels 0 calls = true) :
    (∀ label,
      (.bind label ∈ calls → (after id calls).bind label = .error (.rebound label) ∧
        after id (calls ++ [.bind label]) = after id calls) ∧
      (.bind label ∉ calls → ∃ a, (after id calls).bind label = .ok a)) ∧
    ((∃ body, (after id calls).assemble = .ok body) ↔
      ∀ kind label, .labelled kind label ∈ written calls → .bind label ∈ calls) ∧
    (∀ body, (after id calls).assemble = .ok body →
      List.Forall₂ (Assembled calls) (written calls) body.code ∧ body.id = id ∧
        body.params = calls.filterMap Call.param? ∧
        body.captures = calls.filterMap Call.capture? ∧
        body.returns = (calls.filterMap Call.returning?).getLast?.getD .any) ∧
    (∀ error, (after id calls).assemble = .error error →
      ∃ before kind label rest, written calls = before ++ .labelled kind label :: rest ∧
        error = .unbound label ∧ .bind label ∉ calls ∧
        ∀ kind' label', .labelled kind' label' ∈ before → .bind label' ∈ calls) ∧
    ∃ d, Draft.performAll {} calls = .ok d ∧
      d.build = ((after id calls).assemble.map Body.code).mapError .refused ∧
      ∀ position, d.build ≠ .error (.misplaced position) := by
  refine ⟨bind_after id calls, exists_assemble_iff, fun body => code_of_assemble,
    fun error => unbound_of_assemble, ?_⟩
  have start : ({ id } : Assembler).Drafts {} :=
    ⟨rfl, rfl, rfl, nofun, fun _ _ => rfl, nofun⟩
  obtain ⟨d, performs, drafts⟩ := start.performAll own
  refine ⟨d, performs, drafts.build, fun position misplaced => ?_⟩
  rw [drafts.build] at misplaced
  cases outcome : (performAll { id } calls).assemble <;> rw [outcome] at misplaced <;>
    cases misplaced

/-- A jump forward to the end of the code and one back to its first line, with a jump between
them that has a target of its own. -/
def roundTrip : List Call :=
  [.newLabel, .newLabel, .returning .int, .jump .goto 1, .bind 0, .emit (.const (.int 4)),
    .emit (.goto 9), .bind 0, .jump (.ifZero .eq) 0, .bind 1]

theorem assemble_after_roundTrip :
    ((after 7 roundTrip).assemble.map Body.code = .ok
      [.goto 4, .const (.int 4), .goto 9, .ifZero .eq 1]) ∧
    (after 7 roundTrip).bind 0 = .error (.rebound 0) ∧
    ∃ d, Draft.performAll {} roundTrip = .ok d ∧
      d.build = .ok [.goto 4, .const (.int 4), .goto 9, .ifZero .eq 1] := by
  obtain ⟨rebinds, -, -, -, d, performs, builds, -⟩ := assemble_after 7 roundTrip (by decide)
  exact ⟨rfl, ((rebinds 0).1 (by simp [roundTrip])).1, d, performs, builds⟩

end Assembler

end StreamQuery
