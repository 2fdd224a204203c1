import StackAssembler.Files.Assembly
import StackAssembler.Proofs.Program.Labels

/-!
# What an assembler remembers

An assembler can be asked for many things one after the other: to assemble programs and files, to
encode single words, to define labels, and to change its settings.  Of all that it remembers nothing
but its settings when it next assembles a program: the net of the labels that were defined, the last
encoding, and the last name.  It does so as a new assembler would that is given these settings.

The invariant is `Assembler.IsSet`, which every operation keeps for the settings that it leaves.
-/

namespace StackAssembler

/-- What an assembler can be asked for. -/
inductive Operation
  /-- To assemble a program. -/
  | assemble (source : Source) (file : Option String)
  /-- To assemble the file at a path. -/
  | assembleFile (tree : Tree) (path : String)
  /-- To encode a single word; it need not have the shape of its kind. -/
  | encode (lexeme : Lexeme)
  /-- To define a label for all programs to come. -/
  | defineLabel (name : LabelName) (address : Int)
  /-- To take another encoding. -/
  | setEncoding (encoding : String)
  /-- To take another name for texts. -/
  | setFile (file : String)

namespace Operation

/-- The label that an operation defines for all programs to come. -/
def definition? : Operation → Option (LabelName × Int)
  | defineLabel name address => some (name, address)
  | _ => none

/-- The encoding that an operation sets. -/
def encoding? : Operation → Option String
  | setEncoding encoding => some encoding
  | _ => none

/-- The name of texts that an operation sets. -/
def file? : Operation → Option String
  | setFile file => some file
  | _ => none

end Operation

namespace Assembler

/-- The assembler after an operation, whether that fails or not. -/
def perform (assembler : Assembler) : Operation → Assembler
  | .assemble source file => (assembler.assemble source file).assembler
  | .assembleFile tree path => (assembler.assembleFile tree path).assembler
  | .encode lexeme =>
    match assembler.encode lexeme with
    | .ok (_, later, _) => later
    | .error _ => assembler
  | .defineLabel name address => assembler.defineLabel name address
  | .setEncoding encoding => { assembler with encoding }
  | .setFile file => { assembler with file }

/-- The assembler after operations one after the other. -/
def performAll (assembler : Assembler) (operations : List Operation) : Assembler :=
  operations.foldl perform assembler

/-! ## Settings -/

/-- The settings of an assembler: what the definitions of its labels were, its encoding, and its
name for texts. -/
structure IsSet (definitions : List (LabelName × Int)) (encoding file : String)
    (assembler : Assembler) : Prop where
  predefined : assembler.predefined = (LabelTable.net definitions).wrapped
  encoding : assembler.encoding = encoding
  file : assembler.file = file

variable {assembler other : Assembler} {definitions : List (LabelName × Int)}
variable {encoding file : String}

theorem isSet_new (labels : LabelTable) (encoding file : String) :
    (new labels encoding file).IsSet labels.entries encoding file := by
  rw [new_eq]
  exact ⟨by rw [LabelTable.net_entries], rfl, rfl⟩

/-- What programs define is no setting. -/
theorem IsSet.withScope (h : assembler.IsSet definitions encoding file) (scope : Scope) :
    { assembler with scope }.IsSet definitions encoding file :=
  ⟨h.predefined, h.encoding, h.file⟩

/-- Assembling bytes touches only what programs define. -/
theorem exists_scope_assembleBytes (assembler : Assembler) (bytes : List UInt8) (name : String) :
    ∃ scope, (assembler.assembleBytes bytes name).assembler = { assembler with scope } := by
  rw [assembleBytes]
  dsimp only
  split
  · exact ⟨.empty, rfl⟩
  · exact ⟨_, rfl⟩

/-- Assembling touches only what programs define. -/
theorem exists_scope_assemble (assembler : Assembler) (source : Source) (name : Option String) :
    ∃ scope, (assembler.assemble source name).assembler = { assembler with scope } := by
  rw [assemble]
  split
  · exact exists_scope_assembleBytes assembler _ _
  · exact ⟨.empty, rfl⟩

/-- So does assembling a file; if there is none, nothing is touched. -/
theorem exists_scope_assembleFile (assembler : Assembler) (tree : Tree) (path : String) :
    ∃ scope, (assembler.assembleFile tree path).assembler = { assembler with scope } := by
  unfold assembleFile
  dsimp only
  split
  · exact ⟨assembler.scope, rfl⟩
  · exact exists_scope_assembleBytes assembler _ _

/-- Encoding a word touches only what programs define. -/
theorem exists_scope_encode (assembler : Assembler) (lexeme : Lexeme) :
    ∃ scope, assembler.perform (.encode lexeme) = { assembler with scope } := by
  rw [perform, encode]
  cases assembler.scope.encode lexeme with
  | error failure => exact ⟨assembler.scope, rfl⟩
  | ok result => exact ⟨result.2, rfl⟩

/-- **An operation sets what it is there to set**, and no other setting. -/
theorem IsSet.perform (h : assembler.IsSet definitions encoding file) (operation : Operation) :
    (assembler.perform operation).IsSet (definitions ++ operation.definition?.toList)
      (operation.encoding?.getD encoding) (operation.file?.getD file) := by
  have hscope : ∀ later : Assembler, (∃ scope, later = { assembler with scope }) →
      later.IsSet (definitions ++ []) encoding file := by
    rintro later ⟨scope, rfl⟩
    rw [List.append_nil]
    exact h.withScope scope
  cases operation with
  | assemble source name => exact hscope _ (exists_scope_assemble assembler source name)
  | assembleFile tree path => exact hscope _ (exists_scope_assembleFile assembler tree path)
  | encode lexeme => exact hscope _ (exists_scope_encode assembler lexeme)
  | defineLabel name address =>
      have hd := defineLabel_of_net h.predefined name address
      rw [Assembler.perform, hd]
      exact ⟨rfl, h.encoding, h.file⟩
  | setEncoding encoding =>
      have hsame := hscope assembler ⟨assembler.scope, rfl⟩
      exact ⟨hsame.predefined, rfl, h.file⟩
  | setFile file =>
      have hsame := hscope assembler ⟨assembler.scope, rfl⟩
      exact ⟨hsame.predefined, h.encoding, rfl⟩

/-- The last setting, counted from the first. -/
theorem getLastD_filterMap_cons {α β : Type} (setting? : α → Option β) (first : α) (rest : List α)
    (initial : β) : ((first :: rest).filterMap setting?).getLastD initial =
      (rest.filterMap setting?).getLastD ((setting? first).getD initial) := by
  rw [List.filterMap_cons]
  cases setting? first with
  | none => rfl
  | some setting => exact List.getLastD_cons ..

/-- **After operations the settings are the last ones**, with the definitions in order. -/
theorem IsSet.performAll (h : assembler.IsSet definitions encoding file)
    (operations : List Operation) :
    (assembler.performAll operations).IsSet
      (definitions ++ operations.filterMap Operation.definition?)
      ((operations.filterMap Operation.encoding?).getLastD encoding)
      ((operations.filterMap Operation.file?).getLastD file) := by
  induction operations generalizing assembler definitions encoding file with
  | nil =>
      rw [List.filterMap_nil, List.append_nil]
      exact h
  | cons operation operations ih =>
      have hlater := ih (h.perform operation)
      rw [List.append_assoc, ← getLastD_filterMap_cons Operation.encoding?,
        ← getLastD_filterMap_cons Operation.file?] at hlater
      have hdefinitions : (operation :: operations).filterMap Operation.definition? =
          operation.definition?.toList ++ operations.filterMap Operation.definition? := by
        rw [List.filterMap_cons]
        cases operation.definition? <;> rfl
      rw [hdefinitions]
      exact hlater

/-! ## Assembling again -/

/-- Only the settings count in assembling. -/
theorem assemble_eq_of_isSet (h : assembler.IsSet definitions encoding file)
    (h' : other.IsSet definitions encoding file) (source : Source) (name : Option String) :
    assembler.assemble source name = other.assemble source name := by
  obtain ⟨predefined, encoding, file, scope⟩ := assembler
  obtain ⟨predefined', encoding', file', scope'⟩ := other
  obtain ⟨hp, rfl, rfl⟩ := h
  obtain ⟨hp', rfl, rfl⟩ := h'
  simp only at hp hp'
  subst hp hp'
  rfl

/-- **An assembler assembles a program as a new one with its settings does**, whatever it has been
asked for: it gives the same words or the same failure, and it leaves the same labels and the same
index.  The labels of the new one are the net of all definitions, those that the first assembler was
made with included. -/
theorem assemble_performAll (predefined : LabelTable) (encoding file : String)
    (operations : List Operation) (source : Source) (name : Option String) :
    ((new predefined encoding file).performAll operations).assemble source name =
      (new (.net (predefined.entries ++ operations.filterMap Operation.definition?))
        ((operations.filterMap Operation.encoding?).getLastD encoding)
        ((operations.filterMap Operation.file?).getLastD file)).assemble source name := by
  have hold := (isSet_new predefined encoding file).performAll operations
  refine assemble_eq_of_isSet hold ⟨?_, ?_, ?_⟩ source name <;> rw [new_eq]

end Assembler

end StackAssembler
