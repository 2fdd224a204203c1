import StackAssembler.Proofs.Program.Run

/-!
# Places have no part in assembling

The places of words are carried along: they are put into failures and, for labels, into the scope,
and nothing is decided by them.  So if every place is moved in the same way, before or after, then
what words come to is the same.

## Main definitions

* `Location.unplaced`: a location without its line and column.
* `Failure.relocate`, `Scope.relocate`: all places moved.
-/

namespace StackAssembler

/-- The location with nothing left of it but the file. -/
def Location.unplaced (location : Location) : Location := ⟨location.file, 0, 0⟩

section Relocation

variable (move : Location → Location)

/-- The token at another place. -/
def Token.relocate (token : Token) : Token := { token with location := move token.location }

/-- The cause with the places in it moved: that of the first definition of a label. -/
def Cause.relocate : Cause → Cause
  | .duplicateLabel label first => .duplicateLabel label (first.map move)
  | cause => cause

/-- The diagnostic with all its places moved. -/
def Diagnostic.relocate (diagnostic : Diagnostic) : Diagnostic :=
  ⟨diagnostic.cause.relocate move, diagnostic.location.map move⟩

/-- The failure with all its places moved. -/
def Failure.relocate : Failure → Failure
  | .program diagnostic => .program (diagnostic.relocate move)
  | failure => failure

/-- The scope with the places of its labels moved. -/
def Scope.relocate (scope : Scope) : Scope :=
  { scope with origins := scope.origins.map fun (name, location) => (name, move location) }

/-- What words come to, with all places moved. -/
def Scope.relocateResult {α : Type} : Except Failure (α × Scope) → Except Failure (α × Scope)
  | .error failure => .error (failure.relocate move)
  | .ok (value, scope) => .ok (value, scope.relocate move)

/-! ## Messages -/

/-- No description names a place. -/
@[simp] theorem Cause.description_relocate (cause : Cause) :
    (cause.relocate move).description = cause.description := by
  cases cause <;> rfl

/-- Causes that are the same but for their places have the same description, and the same hint but
for the place of a first definition. -/
theorem Cause.hint_of_relocate {cause other : Cause}
    (h : cause.relocate move = other.relocate move) :
    cause.description = other.description ∧
      (cause.hint = other.hint ∨ ∃ label first second, move first = move second ∧
        cause = .duplicateLabel label (some first) ∧
        other = .duplicateLabel label (some second)) := by
  refine ⟨by rw [← description_relocate move cause, h, description_relocate], ?_⟩
  cases cause with
  | duplicateLabel label first =>
      cases other with
      | duplicateLabel label' second =>
          simp only [relocate, Cause.duplicateLabel.injEq] at h
          obtain ⟨rfl, h⟩ := h
          cases first <;> cases second <;> simp only [Option.map_none, Option.map_some,
            Option.some.injEq, reduceCtorEq] at h
          · exact .inl rfl
          · exact .inr ⟨label, _, _, h, rfl, rfl⟩
      | _ => simp [relocate] at h
  | _ =>
      cases other with
      | duplicateLabel label' second => simp [relocate] at h
      | _ => exact .inl (congrArg hint h)

/-- Where a failure is placed matters as little as the place itself. -/
theorem Failure.relocate_locate (failure : Failure) {location other : Location}
    (h : move location = move other) :
    (failure.locate location).relocate move = (failure.locate other).relocate move := by
  cases failure with
  | program diagnostic =>
      simp only [locate, Diagnostic.locate]
      split
      · simp only [relocate, Diagnostic.relocate, Option.map_some, h]
      · rfl
  | _ => rfl

/-! ## Runs -/

namespace Scope

theorem lookup_relocate (origins : List (LabelName × Location)) (name : LabelName) :
    (origins.map fun (name, location) => (name, move location)).lookup name =
      (origins.lookup name).map move := by
  induction origins with
  | nil => rfl
  | cons origin origins ih =>
      rw [List.map_cons, List.lookup_cons, List.lookup_cons, ih]
      cases name == origin.1 <;> rfl

@[simp] theorem relocate_advance (scope : Scope) :
    (scope.relocate move).advance = scope.advance.relocate move := rfl

/-- **A step does not depend on places.** -/
theorem step_relocate (scope : Scope) (token : Token) :
    (scope.relocate move).step (token.relocate move) =
      relocateResult move (scope.step token) := by
  have htext : (token.relocate move).text = token.text := rfl
  have hlabels : (scope.relocate move).labels = scope.labels := rfl
  cases Shape.of token.text with
  | empty ht =>
      rw [step_of_empty ht, step_of_empty (htext.trans ht)]
      rfl
  | digits hne hd =>
      rw [step_of_digits hne hd, step_of_digits (htext ▸ hne) (htext ▸ hd), htext]
      split_ifs <;> rfl
  | mnemonic hs =>
      rw [step_of_spells hs, step_of_spells (htext ▸ hs)]
      rfl
  | definition hn ht =>
      rw [step_of_definition hn ht, step_of_definition hn (htext.trans ht), hlabels]
      split_ifs
      · simp only [relocate, lookup_relocate]
        rfl
      · rfl
  | @reference name hn ht =>
      rw [step_of_reference hn ht, step_of_reference hn (htext.trans ht), hlabels]
      cases scope.labels.get? name <;> rfl
  | unrecognized hk =>
      rw [step_of_unrecognized hk, step_of_unrecognized (htext ▸ hk)]
      rfl

/-- **A run does not depend on places.** -/
theorem run_relocate (scope : Scope) (tokens : List Token) :
    (scope.relocate move).run (tokens.map (Token.relocate move)) =
      relocateResult move (scope.run tokens) := by
  induction tokens generalizing scope with
  | nil => rfl
  | cons token rest ih =>
      have hstep := step_relocate move scope token
      rw [List.map_cons]
      cases hs : scope.step token with
      | error failure =>
          rw [hs] at hstep
          rw [run_cons_of_error hs, run_cons_of_error hstep]
          rfl
      | ok result =>
          obtain ⟨word, later⟩ := result
          rw [hs] at hstep
          rw [run_cons_of_ok hs, run_cons_of_ok hstep, relocate_advance, ih]
          cases later.advance.run rest <;> rfl

/-- Words that are the same but for their places, read with failures that are, come to what is the
same but for places. -/
theorem outcome_relocate (scope : Scope) {reading other : Reading Token}
    (hi : reading.items.map (Token.relocate move) = other.items.map (Token.relocate move))
    (hf : reading.failure?.map (Failure.relocate move) =
      other.failure?.map (Failure.relocate move)) :
    relocateResult move (scope.outcome reading) = relocateResult move (scope.outcome other) := by
  have hruns : relocateResult move (scope.run reading.items) =
      relocateResult move (scope.run other.items) := by
    rw [← run_relocate, ← run_relocate, hi]
  rw [outcome, outcome]
  cases hrun : scope.run reading.items with
  | error failure =>
      rw [hrun] at hruns
      cases hrun' : scope.run other.items with
      | error failure' => rwa [hrun'] at hruns
      | ok result' =>
          rw [hrun'] at hruns
          cases hruns
  | ok result =>
      rw [hrun] at hruns
      cases hrun' : scope.run other.items with
      | error failure' =>
          rw [hrun'] at hruns
          cases hruns
      | ok result' =>
          rw [hrun'] at hruns
          cases hfails : reading.failure? <;> cases hfails' : other.failure? <;>
            rw [hfails, hfails'] at hf
          · exact hruns
          · cases hf
          · cases hf
          · exact congrArg Except.error (Option.some.inj hf)

end Scope

/-- Programs with outcomes that are the same but for places give the same words and leave the same
labels, or fail with failures that are the same but for places. -/
theorem Assembler.assembleBytes_of_relocate {assembler : Assembler} {bytes other : List UInt8}
    {file : String} (h : Scope.relocateResult move (assembler.outcome bytes file) =
      Scope.relocateResult move (assembler.outcome other file)) :
    let first := assembler.assembleBytes bytes file
    let second := assembler.assembleBytes other file
    (∀ words, first.result = .ok words ↔ second.result = .ok words) ∧
    first.assembler.labels = second.assembler.labels ∧
    first.assembler.index = second.assembler.index ∧
    ∀ failure, first.result = .error failure → ∃ failure', second.result = .error failure' ∧
      failure.relocate move = failure'.relocate move := by
  intro first second
  cases ho : assembler.outcome bytes file with
  | error failure =>
      cases ho' : assembler.outcome other file with
      | ok result => simp [ho, ho', Scope.relocateResult] at h
      | error failure' =>
          rw [ho, ho'] at h
          obtain ⟨hr, ha⟩ : first.result = .error failure ∧ _ := assembleBytes_of_error ho
          obtain ⟨hr', ha'⟩ : second.result = .error failure' ∧ _ := assembleBytes_of_error ho'
          rw [hr, ha, hr', ha']
          refine ⟨fun _ => ⟨nofun, nofun⟩, rfl, rfl, fun _ he => ?_⟩
          cases he
          exact ⟨failure', rfl, Except.error.inj h⟩
  | ok result =>
      cases ho' : assembler.outcome other file with
      | error failure => simp [ho, ho', Scope.relocateResult] at h
      | ok result' =>
          obtain ⟨words, scope⟩ := result
          obtain ⟨words', scope'⟩ := result'
          rw [ho, ho'] at h
          obtain ⟨hw, hs⟩ := Prod.mk.inj (Except.ok.inj h)
          obtain ⟨hr, ha⟩ : first.result = .ok words ∧ _ := assembleBytes_of_ok ho
          obtain ⟨hr', ha'⟩ : second.result = .ok words' ∧ _ := assembleBytes_of_ok ho'
          rw [hr, ha, hr', ha', hw]
          exact ⟨fun _ => Iff.rfl, (Scope.mk.inj hs).1, (Scope.mk.inj hs).2.2, nofun⟩

end Relocation

end StackAssembler
