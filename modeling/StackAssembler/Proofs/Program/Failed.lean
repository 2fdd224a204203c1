import StackAssembler.Proofs.Program.History
import StackAssembler.Proofs.Program.Run

/-!
# What a failure leaves behind

An assembler that fails to assemble leaves nothing defined, whatever the failure is and whatever was
defined before; its settings stay.  There is one exception: to assemble a file the assembler first
opens it, and as long as there are no bytes to assemble it does not turn to a program at all.  So a
file that cannot be read leaves even the labels of the program before.
-/

namespace StackAssembler

/-- An operation on a file that cannot be read. -/
def Operation.IsUnreadable : Operation → Prop
  | .assembleFile tree path =>
    ∃ failure, tree.read (Path.ofString path).text = .error failure
  | _ => False

namespace Assembler

/-- What an operation that assembles gives. -/
def assembly? (assembler : Assembler) : Operation → Option Assembly
  | .assemble source file => some (assembler.assemble source file)
  | .assembleFile tree path => some (assembler.assembleFile tree path)
  | _ => none

variable {assembler : Assembler} {failure : Failure}

/-- Bytes that cannot be assembled leave nothing defined. -/
theorem assembler_assembleBytes_of_error {bytes : List UInt8} {name : String}
    (h : (assembler.assembleBytes bytes name).result = .error failure) :
    (assembler.assembleBytes bytes name).assembler = { assembler with scope := .empty } := by
  cases ho : assembler.outcome bytes name with
  | error failure => exact (assembleBytes_of_error ho).2
  | ok result =>
      rw [(assembleBytes_of_ok ho).1] at h
      cases h

/-- Neither does a program that cannot be assembled, be it that it has no bytes. -/
theorem assembler_assemble_of_error {source : Source} {name : Option String}
    (h : (assembler.assemble source name).result = .error failure) :
    (assembler.assemble source name).assembler = { assembler with scope := .empty } := by
  rw [assemble] at h ⊢
  split at h
  · exact assembler_assembleBytes_of_error h
  · rfl

/-- A file that is read leaves nothing defined if it cannot be assembled. -/
theorem assembler_assembleFile_of_read {tree : Tree} {path : String} {bytes : List UInt8}
    (hr : tree.read (Path.ofString path).text = .ok bytes)
    (h : (assembler.assembleFile tree path).result = .error failure) :
    (assembler.assembleFile tree path).assembler = { assembler with scope := .empty } := by
  unfold assembleFile at h ⊢
  simp only [hr] at h ⊢
  exact assembler_assembleBytes_of_error h

/-- A file that cannot be read leaves all as it was. -/
theorem assembler_assembleFile_of_unreadable {tree : Tree} {path : String} {other : Failure}
    (hr : tree.read (Path.ofString path).text = .error other) :
    (assembler.assembleFile tree path).assembler = assembler := by
  unfold assembleFile
  simp only [hr]

/-- **An assembler that fails to assemble keeps its settings, and nothing is defined any more**,
unless it is a file that cannot be read: that leaves the assembler as it was.  This holds after
whatever the assembler has been asked for before. -/
theorem assembler_of_failed (predefined : LabelTable) (encoding file : String)
    (operations : List Operation) (operation : Operation) (assembly : Assembly)
    (failure : Failure) :
    let before := (new predefined encoding file).performAll operations
    before.assembly? operation = some assembly → assembly.result = .error failure →
      (assembly.assembler.predefined = before.predefined ∧
        assembly.assembler.encoding = before.encoding ∧
        assembly.assembler.file = before.file) ∧
      (¬ operation.IsUnreadable →
        assembly.assembler.labels = .empty ∧ assembly.assembler.index = 1) ∧
      (operation.IsUnreadable → assembly.assembler = before) := by
  intro before hassembly hfailed
  cases operation with
  | assemble source name =>
      cases hassembly
      rw [assembler_assemble_of_error hfailed]
      exact ⟨⟨rfl, rfl, rfl⟩, fun _ => ⟨rfl, rfl⟩, False.elim⟩
  | assembleFile tree path =>
      cases hassembly
      cases hr : tree.read (Path.ofString path).text with
      | ok bytes =>
          rw [assembler_assembleFile_of_read hr hfailed]
          refine ⟨⟨rfl, rfl, rfl⟩, fun _ => ⟨rfl, rfl⟩, fun hu => ?_⟩
          obtain ⟨other, ho⟩ := hu
          rw [hr] at ho
          cases ho
      | error other =>
          rw [assembler_assembleFile_of_unreadable hr]
          exact ⟨⟨rfl, rfl, rfl⟩, fun hread => absurd ⟨other, hr⟩ hread, fun _ => rfl⟩
  | encode | defineLabel | setEncoding | setFile => cases hassembly

/-- A text that the encoding cannot write, after a program that defined a label. -/
theorem assembler_of_failed_unwritable :
    let before := (new .empty "ascii" "<input>").performAll [.assemble (.text ['a', ':']) none]
    let operation : Operation := .assemble (.text ['é']) none
    let assembly := before.assemble (.text ['é']) none
    let failure : Failure := .internal (.unwritable ⟨.ascii, ['é'], 0, 1⟩)
    before.labels ≠ .empty ∧ before.assembly? operation = some assembly ∧
      assembly.result = .error failure ∧ ¬ operation.IsUnreadable ∧
      assembly.assembler.labels = .empty ∧ assembly.assembler.index = 1 := by
  intro before operation assembly failure
  have hfailed : assembly.result = .error failure := by decide +kernel
  have hempty := assembler_of_failed .empty "ascii" "<input>"
    [.assemble (.text ['a', ':']) none] operation assembly failure rfl hfailed
  exact ⟨by decide +kernel, rfl, hfailed, id, hempty.2.1 id⟩

/-- A file that is not there leaves the labels of the program before it, and its index. -/
theorem labels_of_missing_file :
    let before := (new .empty "utf-8" "<input>").performAll [.assemble (.text ['a', ':']) none]
    let assembly := before.assembleFile ⟨[], []⟩ "missing.sm"
    assembly.result = .error (.file (.notFound "missing.sm")) ∧
      assembly.assembler.labels ≠ .empty ∧ assembly.assembler.index ≠ 1 := by
  decide +kernel

end Assembler

end StackAssembler
